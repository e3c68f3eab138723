import Disinherit.Proofs.Tree.Spans
import Disinherit.Script.ClassStatement

/-!
# Nodes within nodes

`Node.preorder` lists a node with everything below it. In a well-spanned tree all of that lies
within the node (`WellSpanned.within_preorder`), and two nodes of one tree either do not overlap, or
one of them stands below the other (`WellSpanned.disjoint_or_nested`). If they overlap, then the one
that starts later is below (`WellSpanned.below_of_overlap`). A node that is not empty has only one
parent (`WellSpanned.parent_unique`).

A super reference is found together with its parent: the parent belongs to the tree that was
searched, and the reference is one of its children (`mem_superSites`).
-/

namespace Disinherit

namespace Node

/-! ### Below a node -/

/-- What holds of a node as soon as it holds of its children holds of every node. -/
@[elab_as_elim]
theorem childInduction {motive : Node → Prop}
    (step : ∀ n, (∀ c ∈ n.children, motive c) → motive n) : ∀ n, motive n
  | ⟨kind, field, named, missing, erroneous, start, stop, children⟩ =>
    step _ fun c _hc => childInduction step c
termination_by n => sizeOf n
decreasing_by
  have hlt : sizeOf c < sizeOf children := List.sizeOf_lt_of_mem _hc
  simp only [Node.mk.sizeOf_spec]
  omega

/-- A node stands strictly below another. -/
def Below (m n : Node) : Prop :=
  ∃ c ∈ n.children, m ∈ c.preorder

theorem mem_preorder_iff {m n : Node} : m ∈ n.preorder ↔ m = n ∨ m.Below n := by
  rw [preorder_eq, List.mem_cons, List.mem_flatMap]
  rfl

theorem mem_preorder_self (n : Node) : n ∈ n.preorder :=
  mem_preorder_iff.2 (.inl rfl)

theorem Below.mem_preorder {m n : Node} (h : m.Below n) : m ∈ n.preorder :=
  mem_preorder_iff.2 (.inr h)

theorem mem_preorder_of_mem_children {c n : Node} (h : c ∈ n.children) : c ∈ n.preorder :=
  Below.mem_preorder ⟨c, h, mem_preorder_self c⟩

theorem mem_preorder_trans {k m n : Node} (hk : k ∈ m.preorder) (hm : m ∈ n.preorder) :
    k ∈ n.preorder := by
  induction n using childInduction with
  | step n ih =>
    rcases mem_preorder_iff.1 hm with rfl | ⟨c, hc, hm⟩
    · exact hk
    · exact Below.mem_preorder ⟨c, hc, ih c hc hm⟩

/-- No node stands below itself. -/
theorem not_below_self (n : Node) : ¬ n.Below n := by
  induction n using childInduction with
  | step n ih =>
    rintro ⟨c, hc, hn⟩
    refine ih c hc ?_
    -- `n` is in its child `c`, and so `c` is in a child of its own
    rcases mem_preorder_iff.1 hn with rfl | ⟨d, hd, hn⟩
    · exact ⟨n, hc, mem_preorder_self n⟩
    · exact ⟨d, hd, mem_preorder_trans (mem_preorder_of_mem_children hc) hn⟩

/-! ### Nodes of one tree -/

namespace WellSpanned

variable {n a b : Node}

theorem of_mem_preorder (h : n.WellSpanned) (ha : a ∈ n.preorder) : a.WellSpanned :=
  fun m hm => h m (mem_preorder_trans hm ha)

theorem within_preorder (h : n.WellSpanned) (ha : a ∈ n.preorder) :
    n.start ≤ a.start ∧ a.stop ≤ n.stop := by
  induction n using childInduction with
  | step n ih =>
    rcases mem_preorder_iff.1 ha with rfl | ⟨c, hc, ha⟩
    · exact ⟨Nat.le_refl _, Nat.le_refl _⟩
    · have hchild := h.spansWell.within c hc
      have hbelow := ih c hc (h.child hc) ha
      omega

/-- Two nodes of one tree do not overlap, or one is below the other. -/
theorem disjoint_or_nested (h : n.WellSpanned) (ha : a ∈ n.preorder) (hb : b ∈ n.preorder) :
    a.stop ≤ b.start ∨ b.stop ≤ a.start ∨ a ∈ b.preorder ∨ b ∈ a.preorder := by
  induction n using childInduction with
  | step n ih =>
    rcases mem_preorder_iff.1 ha with rfl | ⟨c, hc, hac⟩
    · -- the root has everything in it
      exact .inr (.inr (.inr hb))
    · rcases mem_preorder_iff.1 hb with rfl | ⟨d, hd, hbd⟩
      · exact .inr (.inr (.inl ha))
      · by_cases hcd : c = d
        · subst hcd
          exact ih c hc (h.child hc) hac hbd
        · -- below different children, which come one after the other
          have hwithin := (h.child hc).within_preorder hac
          have hwithin' := (h.child hd).within_preorder hbd
          rcases pairwise_or h.spansWell.ordered hc hd hcd with hlt | hlt
          · left
            omega
          · right
            left
            omega

/-- Of two nodes that overlap, the one that starts later is below the other. -/
theorem below_of_overlap (h : n.WellSpanned) (ha : a ∈ n.preorder) (hb : b ∈ n.preorder)
    (hstart : a.start < b.start) (hoverlap : b.start < a.stop) (hb' : b.start ≤ b.stop) :
    b.Below a := by
  rcases h.disjoint_or_nested ha hb with hlt | hlt | hnested | hnested
  · omega
  · omega
  · -- `a` is not in `b`, since it starts before it
    have := (h.of_mem_preorder hb).within_preorder hnested
    omega
  · rcases mem_preorder_iff.1 hnested with rfl | hbelow
    · omega
    · exact hbelow

end WellSpanned

/-! ### Parents -/

/-- In a tree, one node is a child of the other. -/
def IsParentIn (root p n : Node) : Prop :=
  p ∈ root.preorder ∧ n ∈ p.children

/-- Every node but the root has a parent. -/
theorem exists_parent {root n : Node} (h : n ∈ root.preorder) (hne : n ≠ root) :
    ∃ p, IsParentIn root p n := by
  induction root using childInduction with
  | step root ih =>
    obtain ⟨c, hc, hn⟩ := (mem_preorder_iff.1 h).resolve_left hne
    -- a child of the root, or below a child that is not the node itself
    by_cases hnc : n = c
    · exact ⟨root, mem_preorder_self root, hnc ▸ hc⟩
    · obtain ⟨p, hp, hchild⟩ := ih c hc hn hnc
      exact ⟨p, Below.mem_preorder ⟨c, hc, hp⟩, hchild⟩

/-- A node that is not empty is not a child of one node and of another below that. -/
theorem WellSpanned.not_below_of_mem_children {p q n : Node} (h : q.WellSpanned)
    (hwidth : n.start < n.stop) (hp : n ∈ p.children) (hq : n ∈ q.children) : ¬ p.Below q := by
  rintro ⟨c, hc, hpc⟩
  have hn : n ∈ c.preorder := mem_preorder_trans (mem_preorder_of_mem_children hp) hpc
  by_cases hcn : c = n
  · -- `n` would stand below itself
    rw [hcn] at hpc
    refine not_below_self n ?_
    rcases mem_preorder_iff.1 hpc with heq | ⟨d, hd, hpd⟩
    · exact ⟨n, heq ▸ hp, mem_preorder_self n⟩
    · exact ⟨d, hd, mem_preorder_trans (mem_preorder_of_mem_children hp) hpd⟩
  · -- or in two children of `q`, which come one after the other
    have hwithin := (h.child hc).within_preorder hn
    rcases pairwise_or h.spansWell.ordered hc hq hcn with hlt | hlt <;> omega

theorem WellSpanned.parent_unique {root p q n : Node} (h : root.WellSpanned)
    (hwidth : n.start < n.stop) (hp : IsParentIn root p n) (hq : IsParentIn root q n) : p = q := by
  have hin := (h.of_mem_preorder hp.1).spansWell.within n hp.2
  have hin' := (h.of_mem_preorder hq.1).spansWell.within n hq.2
  -- both parents hold `n`, and so one of them is in the other
  rcases h.disjoint_or_nested hp.1 hq.1 with hlt | hlt | hnested | hnested
  · omega
  · omega
  · refine (mem_preorder_iff.1 hnested).resolve_right ?_
    exact (h.of_mem_preorder hq.1).not_below_of_mem_children hwidth hp.2 hq.2
  · refine ((mem_preorder_iff.1 hnested).resolve_right ?_).symm
    exact (h.of_mem_preorder hp.1).not_below_of_mem_children hwidth hq.2 hp.2

/-! ### Classes and members -/

theorem mem_preorder_of_declaredClass {stmt cls : Node} (h : stmt.declaredClass? = some cls) :
    cls ∈ stmt.preorder := by
  unfold declaredClass? at h
  split at h
  · obtain rfl := Option.some.inj h
    exact mem_preorder_self _
  · -- in an export, the class is a child in one of two roles
    rcases Option.or_eq_some_iff.1 (Option.filter_eq_some_iff.1 h).1 with hc | ⟨-, hc⟩
    · exact mem_preorder_of_mem_children (child?_mem hc).1
    · exact mem_preorder_of_mem_children (child?_mem hc).1
  · cases h

theorem mem_preorder_of_mem_bodyItems {cls n : Node} (h : n ∈ cls.bodyItems) :
    n ∈ cls.preorder := by
  unfold bodyItems at h
  split at h
  · next body hbody =>
    have hn := mem_preorder_of_mem_children (List.mem_filter.1 h).1
    exact mem_preorder_trans hn (mem_preorder_of_mem_children (child?_mem hbody).1)
  · cases h

/-! ### Where references are found -/

/-- A site is `n` itself, with the given parent, or both reference and parent are found in `n`. -/
def SuperSite.FoundIn (parent n : Node) (p : SuperSite) : Prop :=
  (p.parent = parent ∧ p.node = n) ∨ (p.parent ∈ n.preorder ∧ p.node ∈ p.parent.children)

/-- What is found in a child is found in its parent. -/
theorem SuperSite.FoundIn.of_child {n c : Node} {p : SuperSite} (hc : c ∈ n.children)
    (h : p.FoundIn n c) : p.parent ∈ n.preorder ∧ p.node ∈ p.parent.children := by
  rcases h with ⟨hparent, hnode⟩ | ⟨hparent, hnode⟩
  · rw [hparent, hnode]
    exact ⟨mem_preorder_self n, hc⟩
  · exact ⟨Below.mem_preorder ⟨c, hc, hparent⟩, hnode⟩

mutual

theorem foundIn_of_mem_superSitesAt (parent : Node) :
    ∀ (n : Node) (p : SuperSite), p ∈ superSitesAt parent n → p.FoundIn parent n
  | ⟨kind, field, named, missing, erroneous, start, stop, children⟩, p, hp => by
    rw [superSitesAt] at hp
    -- a scope of its own is not searched, and below a reference only its index or its arguments are
    split at hp
    · cases hp
    · split at hp
      · rcases List.mem_cons.1 hp with rfl | hp
        · exact .inl ⟨rfl, rfl⟩
        · obtain ⟨c, hc, hfound⟩ := foundIn_of_mem_superSitesUnder .index children p hp
          exact .inr ⟨Below.mem_preorder ⟨c, hc, hfound.1⟩, hfound.2⟩
      · split at hp
        · rcases List.mem_cons.1 hp with rfl | hp
          · exact .inl ⟨rfl, rfl⟩
          · obtain ⟨c, hc, hfound⟩ := foundIn_of_mem_superSitesUnder .arguments children p hp
            exact .inr ⟨Below.mem_preorder ⟨c, hc, hfound.1⟩, hfound.2⟩
        · obtain ⟨c, hc, hfound⟩ := foundIn_of_mem_superSitesAmong _ children p hp
          exact .inr (hfound.of_child hc)

theorem foundIn_of_mem_superSitesAmong (parent : Node) :
    ∀ (ns : List Node) (p : SuperSite), p ∈ superSitesAmong parent ns → ∃ c ∈ ns, p.FoundIn parent c
  | [], p, hp => by cases hp
  | n :: ns, p, hp => by
    rw [superSitesAmong] at hp
    rcases List.mem_append.1 hp with hp | hp
    · exact ⟨n, List.mem_cons_self, foundIn_of_mem_superSitesAt parent n p hp⟩
    · obtain ⟨c, hc, hfound⟩ := foundIn_of_mem_superSitesAmong parent ns p hp
      exact ⟨c, List.mem_cons_of_mem n hc, hfound⟩

theorem foundIn_of_mem_superSitesUnder (f : Field) :
    ∀ (ns : List Node) (p : SuperSite), p ∈ superSitesUnder f ns →
      ∃ c ∈ ns, p.parent ∈ c.preorder ∧ p.node ∈ p.parent.children
  | [], p, hp => by cases hp
  | ⟨kind, field, named, missing, erroneous, start, stop, children⟩ :: ns, p, hp => by
    rw [superSitesUnder] at hp
    split at hp
    · obtain ⟨c, hc, hfound⟩ := foundIn_of_mem_superSitesAmong _ children p hp
      exact ⟨_, List.mem_cons_self, hfound.of_child hc⟩
    · obtain ⟨c, hc, hfound⟩ := foundIn_of_mem_superSitesUnder f ns p hp
      exact ⟨c, List.mem_cons_of_mem _ hc, hfound⟩

end

/-- Reference and parent are nodes of the tree that was searched. -/
theorem mem_superSites {n : Node} {skip : Option Node} {p : SuperSite}
    (hp : p ∈ n.superSites skip) : p.parent ∈ n.preorder ∧ p.node ∈ p.parent.children := by
  obtain ⟨c, hc, hfound⟩ := foundIn_of_mem_superSitesAmong n _ p hp
  exact hfound.of_child (List.mem_filter.1 hc).1

/-- The child that is left out holds no reference. -/
theorem exists_child_of_mem_superSites {n k : Node} {p : SuperSite}
    (hp : p ∈ n.superSites (some k)) : ∃ c ∈ n.children, c ≠ k ∧ p.FoundIn n c := by
  obtain ⟨c, hc, hfound⟩ := foundIn_of_mem_superSitesAmong n _ p hp
  obtain ⟨hchild, hother⟩ := List.mem_filter.1 hc
  refine ⟨c, hchild, ?_, hfound⟩
  rintro rfl
  simp at hother

end Node

end Disinherit
