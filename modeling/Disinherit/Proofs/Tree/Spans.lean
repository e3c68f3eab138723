import Disinherit.Proofs.Lists
import Disinherit.Super.Reference

/-!
# Spans of nodes

In a tree that a parser made, the children of a node lie within it, one after the other, and a super
reference begins with its keyword. `Node.WellSpanned` asks this of every node.

It follows that the super references below a node start at different places. They are found in the
order of the text, each within the node that was searched (`Sites`), even where one reference stands
in the index or the arguments of another.
-/

namespace Disinherit

namespace Node

/-! ### Well-spanned trees -/

/-- The children of a node lie within it, in order, and the keyword of a super reference comes
first. -/
structure SpansWell (n : Node) : Prop where
  within : ∀ c ∈ n.children, n.start ≤ c.start ∧ c.start ≤ c.stop ∧ c.stop ≤ n.stop
  ordered : n.children.Pairwise fun a b => a.stop ≤ b.start
  /-- `super.x` and `super[e]` begin with `super`. -/
  member : n.isSuperMember = true → ∀ c ∈ n.child? .object, c.start = n.start ∧ c.start < c.stop
  /-- `super(...)` begins with `super`. -/
  call : n.isSuperCall = true → ∀ c ∈ n.child? .function, c.start = n.start ∧ c.start < c.stop

instance (n : Node) : Decidable n.SpansWell :=
  decidable_of_iff
    ((∀ c ∈ n.children, n.start ≤ c.start ∧ c.start ≤ c.stop ∧ c.stop ≤ n.stop) ∧
      (n.children.Pairwise fun a b => a.stop ≤ b.start) ∧
      (n.isSuperMember = true → ∀ c ∈ n.child? .object, c.start = n.start ∧ c.start < c.stop) ∧
      (n.isSuperCall = true → ∀ c ∈ n.child? .function, c.start = n.start ∧ c.start < c.stop))
    ⟨fun ⟨hw, ho, hm, hc⟩ => ⟨hw, ho, hm, hc⟩, fun h => ⟨h.within, h.ordered, h.member, h.call⟩⟩

/-- Every node of the tree spans its children well. -/
def WellSpanned (n : Node) : Prop :=
  ∀ m ∈ n.preorder, m.SpansWell

instance (n : Node) : Decidable n.WellSpanned :=
  inferInstanceAs (Decidable (∀ m ∈ n.preorder, m.SpansWell))

theorem preorderAll_eq_flatMap (ns : List Node) : preorderAll ns = ns.flatMap preorder := by
  induction ns with
  | nil => rfl
  | cons n ns ih => rw [preorderAll, ih, List.flatMap_cons]

theorem preorder_eq (n : Node) : n.preorder = n :: n.children.flatMap preorder := by
  rw [← preorderAll_eq_flatMap]
  cases n
  rfl

namespace WellSpanned

variable {n c : Node}

theorem spansWell (h : n.WellSpanned) : n.SpansWell :=
  h n (by rw [preorder_eq]; exact List.mem_cons_self)

theorem child (h : n.WellSpanned) (hc : c ∈ n.children) : c.WellSpanned := by
  intro m hm
  refine h m ?_
  rw [preorder_eq]
  exact List.mem_cons_of_mem _ (List.mem_flatMap.2 ⟨c, hc, hm⟩)

end WellSpanned

theorem child?_mem {n c : Node} {f : Field} (h : n.child? f = some c) :
    c ∈ n.children ∧ c.field = some f :=
  ⟨List.mem_of_find?_eq_some h, by simpa using List.find?_some h⟩

/-! ### The keyword of a reference -/

/-- A super reference of either form. -/
def isSuperReference (n : Node) : Bool :=
  n.isSuperMember || n.isSuperCall

/-- The keyword of a super reference is its child and begins where it does. Its role is not that of
the part that is searched further. -/
theorem WellSpanned.keyword {n : Node} (h : n.WellSpanned) (hn : n.isSuperReference = true) :
    ∃ c ∈ n.children, c.start = n.start ∧ c.start < c.stop ∧
      (c.field = some .object ∨ c.field = some .function) := by
  -- what has the keyword in some role has a child in that role
  have hsuper : ∀ f, n.hasSuper f = true → ∃ c, n.child? f = some c := by
    intro f hf
    unfold hasSuper at hf
    split at hf
    · next c hc => exact ⟨c, hc⟩
    · cases hf
  rcases Bool.or_eq_true_iff.1 hn with hm | hc
  · obtain ⟨c, hc⟩ := hsuper .object (Bool.and_eq_true_iff.1 hm).2
    obtain ⟨hstart, hpos⟩ := h.spansWell.member hm c hc
    exact ⟨c, (child?_mem hc).1, hstart, hpos, .inl (child?_mem hc).2⟩
  · obtain ⟨c, hc'⟩ := hsuper .function (Bool.and_eq_true_iff.1 hc).2
    obtain ⟨hstart, hpos⟩ := h.spansWell.call hc c hc'
    exact ⟨c, (child?_mem hc').1, hstart, hpos, .inr (child?_mem hc').2⟩

/-- What comes after the keyword starts later than the reference. -/
theorem WellSpanned.start_lt {n c : Node} (h : n.WellSpanned) (hn : n.isSuperReference = true)
    (hc : c ∈ n.children) (hfield : c.field ≠ some .object ∧ c.field ≠ some .function)
    (hpos : c.start < c.stop) : n.start < c.start := by
  obtain ⟨k, hk, hstart, hkpos, hkfield⟩ := h.keyword hn
  -- the keyword has a role of its own, so it is another child and stands in front
  have hne : k ≠ c := by
    rintro rfl
    rcases hkfield with hf | hf
    · exact hfield.1 hf
    · exact hfield.2 hf
  have hwithin := (h.spansWell.within c hc).1
  rcases pairwise_or h.spansWell.ordered hk hc hne with hlt | hlt <;> omega

/-! ### The references below a node -/

/-- Super references found between two offsets, in the order of the text. -/
structure Sites (lo hi : Nat) (ps : List SuperSite) : Prop where
  within : ∀ p ∈ ps, lo ≤ p.node.start ∧ p.node.start < p.node.stop ∧ p.node.stop ≤ hi
  increasing : ps.Pairwise fun p q => p.node.start < q.node.start
  wellSpanned : ∀ p ∈ ps, p.node.WellSpanned
  isSuper : ∀ p ∈ ps, p.node.isSuperReference = true

namespace Sites

variable {lo lo' hi hi' mid : Nat} {ps qs : List SuperSite}

theorem nil : Sites lo hi [] :=
  ⟨by simp, .nil, by simp, by simp⟩

theorem mono (h : Sites lo hi ps) (hlo : lo' ≤ lo) (hhi : hi ≤ hi') : Sites lo' hi' ps where
  within p hp := by
    have := h.within p hp
    omega
  increasing := h.increasing
  wellSpanned := h.wellSpanned
  isSuper := h.isSuper

/-- What is found in one stretch of the text comes before what is found in the next. -/
theorem append (h : Sites lo mid ps) (h' : Sites mid hi qs) (hlo : lo ≤ mid) (hhi : mid ≤ hi) :
    Sites lo hi (ps ++ qs) where
  within p hp := by
    rcases List.mem_append.1 hp with hp | hp
    · -- `mid` lies within the bounds, and it is between the two lists
      have := h.within p hp
      omega
    · have := h'.within p hp
      omega
  increasing := by
    refine List.pairwise_append.2 ⟨h.increasing, h'.increasing, fun p hp q hq => ?_⟩
    have := h.within p hp
    have := h'.within q hq
    omega
  wellSpanned p hp := (List.mem_append.1 hp).elim (h.wellSpanned p) (h'.wellSpanned p)
  isSuper p hp := (List.mem_append.1 hp).elim (h.isSuper p) (h'.isSuper p)

/-- A reference comes before those in the part of it that is searched further. -/
theorem cons {n parent : Node} (hn : n.WellSpanned) (hsuper : n.isSuperReference = true)
    (h : ps = [] ∨ ∃ c ∈ n.children, (c.field ≠ some .object ∧ c.field ≠ some .function) ∧
      Sites c.start c.stop ps) :
    Sites n.start n.stop (⟨n, parent⟩ :: ps) := by
  -- the reference itself has some width, because of its keyword
  have hself : Sites n.start n.stop [⟨n, parent⟩] := by
    obtain ⟨k, hk, hstart, hpos, -⟩ := hn.keyword hsuper
    have hstop := (hn.spansWell.within k hk).2.2
    refine ⟨?_, List.pairwise_singleton _ _, ?_, ?_⟩ <;> intro p hp <;>
      obtain rfl := List.mem_singleton.1 hp
    · exact ⟨Nat.le_refl _, show n.start < n.stop by omega, Nat.le_refl _⟩
    · exact hn
    · exact hsuper
  rcases h with rfl | ⟨c, hc, hfield, hsites⟩
  · exact hself
  · have hwithin := hn.spansWell.within c hc
    -- what is found below it starts behind the keyword
    have hbelow : ∀ p ∈ ps, n.start < p.node.start := by
      intro p hp
      have := hsites.within p hp
      have := hn.start_lt hsuper hc hfield (by omega)
      omega
    have hrest := hsites.mono hwithin.1 hwithin.2.2
    refine ⟨fun p hp => ?_, List.pairwise_cons.2 ⟨hbelow, hsites.increasing⟩, fun p hp => ?_,
      fun p hp => ?_⟩
    · exact (List.mem_cons.1 hp).elim (fun h => hself.within p (by simp [h])) (hrest.within p)
    · exact (List.mem_cons.1 hp).elim (fun h => hself.wellSpanned p (by simp [h]))
        (hrest.wellSpanned p)
    · exact (List.mem_cons.1 hp).elim (fun h => hself.isSuper p (by simp [h])) (hrest.isSuper p)

end Sites

mutual

/-- The references in a node. -/
theorem sites_superSitesAt (parent : Node) :
    ∀ n : Node, n.WellSpanned → Sites n.start n.stop (superSitesAt parent n)
  | ⟨kind, field, named, missing, erroneous, start, stop, children⟩, hn => by
    have hchildren : ∀ c ∈ children, c.WellSpanned := fun c hc => hn.child hc
    rw [superSitesAt]
    split
    · exact .nil
    · -- of a reference only the index or the arguments are searched further
      split
      · next hm =>
        exact .cons hn (by simp [isSuperReference, hm])
          (sites_superSitesUnder .index (by decide) children hchildren)
      · split
        · next hc =>
          exact .cons hn (by simp [isSuperReference, hc])
            (sites_superSitesUnder .arguments (by decide) children hchildren)
        · exact sites_superSitesAmong _ children hchildren hn.spansWell.ordered
            fun c hc => hn.spansWell.within c hc

/-- The references in some nodes, one after the other between two offsets. -/
theorem sites_superSitesAmong (parent : Node) {lo hi : Nat} :
    ∀ ns : List Node, (∀ c ∈ ns, c.WellSpanned) → (ns.Pairwise fun a b => a.stop ≤ b.start) →
      (∀ c ∈ ns, lo ≤ c.start ∧ c.start ≤ c.stop ∧ c.stop ≤ hi) →
      Sites lo hi (superSitesAmong parent ns)
  | [], _, _, _ => .nil
  | n :: ns, hns, hordered, hwithin => by
    obtain ⟨hafter, hordered⟩ := List.pairwise_cons.1 hordered
    have hn := hwithin n List.mem_cons_self
    have hfirst := sites_superSitesAt parent n (hns n List.mem_cons_self)
    -- the rest begins where the first node ends
    have hrest : Sites n.stop hi (superSitesAmong parent ns) :=
      sites_superSitesAmong parent ns (fun c hc => hns c (List.mem_cons_of_mem n hc)) hordered
        fun c hc => ⟨hafter c hc, (hwithin c (List.mem_cons_of_mem n hc)).2⟩
    rw [superSitesAmong]
    exact (hfirst.mono hn.1 (Nat.le_refl _)).append hrest (by omega) hn.2.2

/-- The references below the first node with a role. -/
theorem sites_superSitesUnder (f : Field) (hf : f ≠ .object ∧ f ≠ .function) :
    ∀ ns : List Node, (∀ c ∈ ns, c.WellSpanned) → superSitesUnder f ns = [] ∨
      ∃ c ∈ ns, (c.field ≠ some .object ∧ c.field ≠ some .function) ∧
        Sites c.start c.stop (superSitesUnder f ns)
  | [], _ => .inl rfl
  | ⟨kind, field, named, missing, erroneous, start, stop, children⟩ :: ns, hns => by
    have hn := hns _ List.mem_cons_self
    rw [superSitesUnder]
    split
    · next hfield =>
      -- the child in the role is searched, and it is not the keyword
      refine .inr ⟨_, List.mem_cons_self, ?_, ?_⟩
      · simpa [hfield] using hf
      · exact sites_superSitesAmong _ children (fun c hc => hn.child hc) hn.spansWell.ordered
          fun c hc => hn.spansWell.within c hc
    · rcases sites_superSitesUnder f hf ns fun c hc => hns c (List.mem_cons_of_mem _ hc) with
        hnone | ⟨c, hc, hfound⟩
      · exact .inl hnone
      · exact .inr ⟨c, List.mem_cons_of_mem _ hc, hfound⟩

end

/-- The references below a node lie within it and start at different places. -/
theorem sites_superSites {n : Node} (h : n.WellSpanned) (skip : Option Node) :
    Sites n.start n.stop (n.superSites skip) :=
  sites_superSitesAmong n _ (fun _ hc => h.child (List.mem_filter.1 hc).1)
    (h.spansWell.ordered.filter _) fun c hc => h.spansWell.within c (List.mem_filter.1 hc).1

end Node

end Disinherit
