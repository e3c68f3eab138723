import Disinherit.Member.Basic
import Disinherit.Proofs.Tree.Nesting
import Disinherit.Proofs.Tree.Samples

/-!
# Which super references are found

A super reference belongs to a member if it is reached from there without entering a function or a
class. `Node.superReferences` lists those in a node in the order of the text, and this file compares
the list with what `Node.superSites` finds. The search goes down the tree in the same way, save for
the references themselves. Of a reference it looks only at the children of its index or its
arguments, and so it asks of the index neither whether it is a reference nor whether it is a
function or a class.

`SearchesAll` says of a reference that nothing is lost or gained by this. The search finds exactly
the references of the member just if it holds of each of them (`superSites_eq_iff`). By induction on
the tree, the comparison is made one child at a time: children come one after the other, and a list
of references falls apart into those that start in each of them (`flatMap_eq_flatMap_iff`).
-/

namespace Disinherit

namespace Node

/-! ### The references of a scope -/

mutual

/-- A node and what is below it, each node before its children, without functions and classes. -/
def inScope : Node → List Node
  | n@⟨kind, _, _, _, _, _, _, children⟩ => if kind.isScope then [] else n :: inScopeAll children

/-- The nodes of several trees, without functions and classes. -/
def inScopeAll : List Node → List Node
  | [] => []
  | n :: ns => n.inScope ++ inScopeAll ns

end

/-- The super references that are reached without entering a function or a class, in the order of
the text. -/
def superReferences (n : Node) : List Node :=
  n.inScope.filter isSuperReference

/-- The part of a reference below which the search goes on: the index or the arguments. -/
def searchedPart? (n : Node) : Option Node :=
  n.child? (if n.isSuperMember then .index else .arguments)

/-- Below its searched part nothing is lost, and nothing is found that is out of reach. -/
structure SearchesAll (n : Node) : Prop where
  /-- All references that it holds are in that part. -/
  within : n.children.flatMap superReferences = n.searchedPart?.toList.flatMap superReferences
  /-- The part is no reference itself. -/
  notReference : ∀ i ∈ n.searchedPart?, i.isSuperReference = false
  /-- If the part is a function or a class, there are no references right in it. -/
  notScope : ∀ i ∈ n.searchedPart?, i.kind.isScope = true → i.children.flatMap superReferences = []

/-- The children of a node without the one that begins where `skip` does and is of its kind. -/
def opened (n : Node) (skip : Option Node) : List Node :=
  n.children.filter fun c => match skip with
    | some k => !(c.start == k.start && c.kind == k.kind)
    | none => true

theorem inScopeAll_eq_flatMap (ns : List Node) : inScopeAll ns = ns.flatMap inScope := by
  induction ns with
  | nil => rfl
  | cons n ns ih => rw [inScopeAll, ih, List.flatMap_cons]

theorem inScope_eq (n : Node) :
    n.inScope = if n.kind.isScope then [] else n :: n.children.flatMap inScope := by
  rw [← inScopeAll_eq_flatMap]
  cases n
  rfl

section References

variable {n : Node}

theorem superReferences_of_isScope (h : n.kind.isScope = true) : n.superReferences = [] := by
  rw [superReferences, inScope_eq, if_pos h, List.filter_nil]

theorem superReferences_eq (h : n.kind.isScope = false) : n.superReferences
    = (if n.isSuperReference then [n] else []) ++ n.children.flatMap superReferences := by
  rw [superReferences, inScope_eq, if_neg (Bool.eq_false_iff.1 h), List.filter_cons,
    List.filter_flatMap]
  cases n.isSuperReference <;> rfl

/-- A super reference is no function or class. -/
theorem isScope_of_isSuperReference (h : n.isSuperReference = true) : n.kind.isScope = false := by
  have hkind : n.kind = .memberExpression ∨ n.kind = .subscriptExpression ∨
      n.kind = .callExpression := by
    simp only [isSuperReference, isSuperMember, isSuperCall, Bool.or_eq_true, Bool.and_eq_true,
      beq_iff_eq] at h
    rcases h with ⟨hkind | hkind, -⟩ | ⟨hkind, -⟩
    · exact .inl hkind
    · exact .inr (.inl hkind)
    · exact .inr (.inr hkind)
  rcases hkind with hkind | hkind | hkind <;> rw [hkind] <;> rfl

/-- A call is of another kind than the references to members. -/
theorem isSuperMember_of_isSuperCall (h : n.isSuperCall = true) : n.isSuperMember = false := by
  have hkind : n.kind = .callExpression := beq_iff_eq.1 (Bool.and_eq_true_iff.1 h).1
  rw [isSuperMember, hkind]
  rfl

theorem superReferences_of_reference (h : n.isSuperReference = true) :
    n.superReferences = n :: n.children.flatMap superReferences := by
  rw [superReferences_eq (isScope_of_isSuperReference h), if_pos h]
  rfl

theorem superReferences_of_plain (hscope : n.kind.isScope = false)
    (h : n.isSuperReference = false) : n.superReferences = n.children.flatMap superReferences := by
  rw [superReferences_eq hscope, if_neg (Bool.eq_false_iff.1 h)]
  rfl

theorem mem_preorder_of_mem_superReferences {m : Node} (hm : m ∈ n.superReferences) :
    m ∈ n.preorder ∧ m.isSuperReference = true := by
  obtain ⟨hin, href⟩ := List.mem_filter.1 hm
  refine ⟨?_, href⟩
  clear hm
  -- what is in scope of a node is the node itself or in scope of a child
  induction n using childInduction with
  | step n ih =>
    rw [inScope_eq] at hin
    split at hin
    · cases hin
    · rcases List.mem_cons.1 hin with rfl | hbelow
      · exact mem_preorder_self _
      · obtain ⟨c, hc, hm⟩ := List.mem_flatMap.1 hbelow
        exact Below.mem_preorder ⟨c, hc, ih c hc hm⟩

end References

/-! ### What the search finds -/

/-- The references that the search finds in a node. -/
def found (n : Node) : List Node :=
  (superSitesAt n n).map (·.node)

/-- The parent plays no part in what is found. -/
theorem map_node_superSitesAt (parent n : Node) :
    (superSitesAt parent n).map (·.node) = n.found := by
  obtain ⟨kind, field, named, missing, erroneous, start, stop, children⟩ := n
  rw [found, superSitesAt, superSitesAt]
  split
  · rfl
  · split
    · rfl
    · split <;> rfl

theorem map_node_superSitesAmong (parent : Node) (ns : List Node) :
    (superSitesAmong parent ns).map (·.node) = ns.flatMap found := by
  induction ns with
  | nil => rfl
  | cons n ns ih => rw [superSitesAmong, List.map_append, map_node_superSitesAt, ih,
    List.flatMap_cons]

theorem map_node_superSitesUnder (f : Field) (ns : List Node) : (superSitesUnder f ns).map (·.node)
    = (ns.find? fun c => c.field == some f).toList.flatMap fun i => i.children.flatMap found := by
  induction ns with
  | nil => rfl
  | cons n ns ih =>
    obtain ⟨kind, field, named, missing, erroneous, start, stop, children⟩ := n
    rw [superSitesUnder, List.find?_cons]
    by_cases hfield : field = some f
    · -- the first child in the role is searched, and the search ends there
      rw [if_pos hfield, map_node_superSitesAmong]
      simp [hfield]
    · rw [if_neg hfield, ih, beq_eq_false_iff_ne.2 hfield]

section Found

variable {n : Node}

theorem found_of_isScope (h : n.kind.isScope = true) : n.found = [] := by
  obtain ⟨kind, field, named, missing, erroneous, start, stop, children⟩ := n
  rw [found, superSitesAt, if_pos h]
  rfl

theorem found_of_reference (h : n.isSuperReference = true) :
    n.found = n :: n.searchedPart?.toList.flatMap fun i => i.children.flatMap found := by
  have hscope := isScope_of_isSuperReference h
  obtain ⟨kind, field, named, missing, erroneous, start, stop, children⟩ := n
  rw [found, superSitesAt, if_neg (Bool.eq_false_iff.1 hscope), searchedPart?]
  rcases Bool.or_eq_true_iff.1 h with hmember | hcall
  · -- for a property it is the index that is searched on
    rw [if_pos hmember, if_pos hmember, List.map_cons, map_node_superSitesUnder]
    rfl
  · -- for a call it is the argument list
    have hmember := isSuperMember_of_isSuperCall hcall
    rw [if_neg (Bool.eq_false_iff.1 hmember), if_neg (Bool.eq_false_iff.1 hmember), if_pos hcall,
      List.map_cons, map_node_superSitesUnder]
    rfl

theorem found_of_plain (hscope : n.kind.isScope = false) (h : n.isSuperReference = false) :
    n.found = n.children.flatMap found := by
  obtain ⟨hmember, hcall⟩ := Bool.or_eq_false_iff.1 h
  obtain ⟨kind, field, named, missing, erroneous, start, stop, children⟩ := n
  rw [found, superSitesAt, if_neg (Bool.eq_false_iff.1 hscope),
    if_neg (Bool.eq_false_iff.1 hmember),
    if_neg (Bool.eq_false_iff.1 hcall), map_node_superSitesAmong]

/-- The search comes back with nothing just if there is nothing: the first reference is always
found. -/
theorem found_eq_nil_iff : n.found = [] ↔ n.superReferences = [] := by
  induction n using childInduction with
  | step n ih =>
    cases hscope : n.kind.isScope with
    | true => rw [found_of_isScope hscope, superReferences_of_isScope hscope]
    | false =>
      cases href : n.isSuperReference with
      | true =>
        rw [found_of_reference href, superReferences_of_reference href]
        -- the reference itself is there on both sides
        exact iff_of_false (List.cons_ne_nil _ _) (List.cons_ne_nil _ _)
      | false =>
        rw [found_of_plain hscope href, superReferences_of_plain hscope href,
          List.flatMap_eq_nil_iff, List.flatMap_eq_nil_iff]
        exact forall₂_congr ih

theorem flatMap_found_eq_nil_iff (ns : List Node) :
    ns.flatMap found = [] ↔ ns.flatMap superReferences = [] := by
  rw [List.flatMap_eq_nil_iff, List.flatMap_eq_nil_iff]
  exact forall₂_congr fun c _ => found_eq_nil_iff

theorem mem_preorder_of_mem_found {m : Node} (hm : m ∈ n.found) : m ∈ n.preorder := by
  obtain ⟨p, hp, rfl⟩ := List.mem_map.1 hm
  rcases foundIn_of_mem_superSitesAt n n p hp with ⟨-, hnode⟩ | ⟨hparent, hchild⟩
  · rw [hnode]
    exact mem_preorder_self n
  · exact mem_preorder_trans (mem_preorder_of_mem_children hchild) hparent

end Found

/-! ### One child after the other -/

/-- The nodes start within `n`. -/
def StartIn (n : Node) (ms : List Node) : Prop :=
  ∀ m ∈ ms, n.start ≤ m.start ∧ m.start < n.stop

namespace WellSpanned

variable {n : Node}

theorem startIn_superReferences (h : n.WellSpanned) : n.StartIn n.superReferences := by
  intro m hm
  obtain ⟨hpre, href⟩ := mem_preorder_of_mem_superReferences hm
  obtain ⟨k, hk, hstart, hpos, -⟩ := (h.of_mem_preorder hpre).keyword href
  have hwithin := h.within_preorder hpre
  have hkeyword := ((h.of_mem_preorder hpre).spansWell.within k hk).2.2
  omega

theorem startIn_found (h : n.WellSpanned) : n.StartIn n.found := by
  intro m hm
  obtain ⟨p, hp, rfl⟩ := List.mem_map.1 hm
  have hwithin := (sites_superSitesAt n n h).within p hp
  omega

theorem startIn_flatMap_found (h : n.WellSpanned) : n.StartIn (n.children.flatMap found) := by
  intro m hm
  obtain ⟨c, hc, hm⟩ := List.mem_flatMap.1 hm
  have hchild := h.spansWell.within c hc
  have hstart := (h.child hc).startIn_found m hm
  omega

end WellSpanned

/-- Lists that are cut in two at the same place are equal just if both parts are. -/
theorem append_eq_append_iff_of_start {mid : Nat} {as bs as' bs' : List Node}
    (has : ∀ a ∈ as, a.start < mid) (has' : ∀ a ∈ as', a.start < mid)
    (hbs : ∀ b ∈ bs, mid ≤ b.start) (hbs' : ∀ b ∈ bs', mid ≤ b.start) :
    as ++ bs = as' ++ bs' ↔ as = as' ∧ bs = bs' := by
  -- the first part is what starts before the cut
  have hfirst : ∀ xs ys : List Node, (∀ x ∈ xs, x.start < mid) → (∀ y ∈ ys, mid ≤ y.start) →
      (xs ++ ys).filter (fun x => decide (x.start < mid)) = xs := by
    intro xs ys hxs hys
    rw [List.filter_append, List.filter_eq_self.2 fun x hx => decide_eq_true (hxs x hx),
      List.filter_eq_nil_iff.2 fun y hy => by simpa using hys y hy, List.append_nil]
  constructor
  · intro heq
    have has_eq : as = as' := by
      rw [← hfirst as bs has hbs, heq, hfirst as' bs' has' hbs']
    subst has_eq
    exact ⟨rfl, List.append_cancel_left heq⟩
  · rintro ⟨rfl, rfl⟩
    rfl

/-- Of nodes in order, all together hold the same just if each of them does. -/
theorem flatMap_eq_flatMap_iff {f g : Node → List Node} {cs : List Node}
    (hordered : cs.Pairwise fun a b => a.stop ≤ b.start) (hf : ∀ c ∈ cs, c.StartIn (f c))
    (hg : ∀ c ∈ cs, c.StartIn (g c)) : cs.flatMap f = cs.flatMap g ↔ ∀ c ∈ cs, f c = g c := by
  induction cs with
  | nil => simp
  | cons c cs ih =>
    obtain ⟨hafter, hordered⟩ := List.pairwise_cons.1 hordered
    -- what the later children give starts where `c` stops or after
    have hrest : ∀ e : Node → List Node, (∀ d ∈ c :: cs, d.StartIn (e d)) →
        ∀ m ∈ cs.flatMap e, c.stop ≤ m.start := by
      intro e he m hm
      obtain ⟨d, hd, hm⟩ := List.mem_flatMap.1 hm
      exact Nat.le_trans (hafter d hd) (he d (List.mem_cons_of_mem c hd) m hm).1
    rw [List.flatMap_cons, List.flatMap_cons,
      append_eq_append_iff_of_start (fun m hm => (hf c List.mem_cons_self m hm).2)
        (fun m hm => (hg c List.mem_cons_self m hm).2) (hrest f hf) (hrest g hg),
      ih hordered (fun d hd => hf d (List.mem_cons_of_mem c hd))
        fun d hd => hg d (List.mem_cons_of_mem c hd)]
    exact (List.forall_mem_cons (p := fun d => f d = g d)).symm

/-- If all that the nodes hold starts in one of them, the others hold nothing. -/
theorem flatMap_eq_of_startIn {f : Node → List Node} {cs : List Node} {i : Node}
    (hordered : cs.Pairwise fun a b => a.stop ≤ b.start) (hf : ∀ c ∈ cs, c.StartIn (f c))
    (hi : i ∈ cs) (hall : i.StartIn (cs.flatMap f)) : cs.flatMap f = f i := by
  obtain ⟨front, back, rfl⟩ := List.append_of_mem hi
  obtain ⟨-, hback, hfront⟩ := List.pairwise_append.1 hordered
  -- another child gives only what starts in it, which is outside of `i`
  have hnone : ∀ c ∈ front ++ back, f c = [] := by
    intro c hc
    rw [List.eq_nil_iff_forall_not_mem]
    intro m hm
    have hc' : c ∈ front ++ i :: back := by
      rcases List.mem_append.1 hc with hc | hc
      · exact List.mem_append_left _ hc
      · exact List.mem_append_right _ (List.mem_cons_of_mem i hc)
    have hin := hall m (List.mem_flatMap.2 ⟨c, hc', hm⟩)
    have hown := hf c hc' m hm
    rcases List.mem_append.1 hc with hc | hc
    · have := hfront c hc i List.mem_cons_self
      omega
    · have := (List.pairwise_cons.1 hback).1 c hc
      omega
  rw [List.flatMap_append, List.flatMap_cons,
    List.flatMap_eq_nil_iff.2 fun c hc => hnone c (List.mem_append_left _ hc),
    List.flatMap_eq_nil_iff.2 fun c hc => hnone c (List.mem_append_right _ hc), List.nil_append,
    List.append_nil]

/-! ### The search and the scope -/

section Compare

variable {n i : Node}

/-- Going on below the searched part of a reference finds what that part holds, just if it is
neither a reference nor a function or class with references in it. -/
theorem flatMap_found_eq_superReferences_iff :
    i.children.flatMap found = i.superReferences ↔ i.isSuperReference = false ∧
      (i.kind.isScope = true → i.children.flatMap superReferences = []) ∧
      (i.kind.isScope = false → i.found = i.superReferences) := by
  cases hscope : i.kind.isScope with
  | true =>
    -- a node cannot be both a scope and a reference
    have href : i.isSuperReference = false := by
      rw [Bool.eq_false_iff]
      intro href
      exact Bool.false_ne_true ((isScope_of_isSuperReference href).symm.trans hscope)
    rw [superReferences_of_isScope hscope, flatMap_found_eq_nil_iff]
    simp [href]
  | false =>
    cases href : i.isSuperReference with
    | true =>
      -- the part itself would have to be found below it
      refine iff_of_false (fun heq => ?_) fun h => by cases h.1
      have hmem : i ∈ i.children.flatMap found := by
        rw [heq, superReferences_of_reference href]
        exact List.mem_cons_self
      obtain ⟨c, hc, hfound⟩ := List.mem_flatMap.1 hmem
      exact not_below_self i ⟨c, hc, mem_preorder_of_mem_found hfound⟩
    | false =>
      rw [found_of_plain hscope href]
      simp

/-- Where nothing is searched further, there must be nothing. -/
theorem searchesAll_iff_of_none (hpart : n.searchedPart? = none) :
    n.SearchesAll ↔ n.children.flatMap superReferences = [] := by
  constructor
  · intro hall
    have hwithin := hall.within
    rw [hpart] at hwithin
    exact hwithin
  · intro hnil
    refine ⟨?_, fun i hi => ?_, fun i hi => ?_⟩
    · rw [hpart]
      exact hnil
    · cases hpart.symm.trans hi
    · cases hpart.symm.trans hi

theorem searchesAll_iff_of_some (hpart : n.searchedPart? = some i) :
    n.SearchesAll ↔ n.children.flatMap superReferences = i.superReferences ∧
      i.isSuperReference = false ∧
        (i.kind.isScope = true → i.children.flatMap superReferences = []) := by
  have hlist : n.searchedPart?.toList.flatMap superReferences = i.superReferences := by
    rw [hpart, Option.toList_some, List.flatMap_singleton]
  constructor
  · intro hall
    exact ⟨hall.within.trans hlist, hall.notReference i hpart, hall.notScope i hpart⟩
  · rintro ⟨hwithin, hnot, hscope⟩
    refine ⟨hwithin.trans hlist.symm, fun j hj => ?_, fun j hj => ?_⟩
    · obtain rfl := Option.some.inj (hpart.symm.trans hj)
      exact hnot
    · obtain rfl := Option.some.inj (hpart.symm.trans hj)
      exact hscope

/-- The comparison at a reference, when its children have been compared. -/
theorem found_eq_iff_of_reference (h : n.WellSpanned) (href : n.isSuperReference = true)
    (ih : ∀ c ∈ n.children, c.found = c.superReferences ↔ ∀ m ∈ c.superReferences, m.SearchesAll) :
    n.found = n.superReferences ↔ ∀ m ∈ n.superReferences, m.SearchesAll := by
  rw [found_of_reference href, superReferences_of_reference href, List.forall_mem_cons,
    List.cons.injEq, and_iff_right rfl]
  cases hpart : n.searchedPart? with
  | none =>
    -- nothing below the reference is searched, so that there must be nothing to find
    rw [searchesAll_iff_of_none hpart]
    constructor
    · intro heq
      have hnil : n.children.flatMap superReferences = [] := heq.symm
      rw [hnil]
      exact ⟨rfl, fun m hm => absurd hm List.not_mem_nil⟩
    · rintro ⟨hnil, -⟩
      exact hnil.symm
  | some i =>
    have hi : i ∈ n.children := (child?_mem hpart).1
    rw [searchesAll_iff_of_some hpart, Option.toList_some, List.flatMap_singleton]
    constructor
    · intro heq
      -- what is found starts in the part, and so all that the reference holds is in there
      have hstarts := (h.child hi).startIn_flatMap_found
      rw [heq] at hstarts
      have hwithin := flatMap_eq_of_startIn h.spansWell.ordered
        (fun c hc => (h.child hc).startIn_superReferences) hi hstarts
      obtain ⟨hnot, hscope, hplain⟩ := flatMap_found_eq_superReferences_iff.1 (heq.trans hwithin)
      refine ⟨⟨hwithin, hnot, hscope⟩, ?_⟩
      rw [hwithin]
      cases hkind : i.kind.isScope with
      | true =>
        -- a part that is a scope has no references of its own
        rw [superReferences_of_isScope hkind]
        exact fun m hm => absurd hm List.not_mem_nil
      | false => exact (ih i hi).1 (hplain hkind)
    · rintro ⟨⟨hwithin, hnot, hscope⟩, hbelow⟩
      rw [hwithin] at hbelow ⊢
      exact flatMap_found_eq_superReferences_iff.2 ⟨hnot, hscope, fun _ => (ih i hi).2 hbelow⟩

/-- The search finds all references of a node and no others just if this is so at each of them. -/
theorem found_eq_iff (h : n.WellSpanned) :
    n.found = n.superReferences ↔ ∀ m ∈ n.superReferences, m.SearchesAll := by
  induction n using childInduction with
  | step n ih =>
    have ih' := fun c hc => ih c hc (h.child hc)
    cases hscope : n.kind.isScope with
    | true =>
      -- neither goes into a scope
      rw [found_of_isScope hscope, superReferences_of_isScope hscope]
      simp
    | false =>
      cases href : n.isSuperReference with
      | true => exact found_eq_iff_of_reference h href ih'
      | false =>
        -- at a plain node both lists are put together from the children, in the same order
        rw [found_of_plain hscope href, superReferences_of_plain hscope href,
          flatMap_eq_flatMap_iff h.spansWell.ordered (fun c hc => (h.child hc).startIn_found)
            fun c hc => (h.child hc).startIn_superReferences,
          List.forall_mem_flatMap]
        exact forall₂_congr ih'

/-- Of the children that are not empty only the one that is to be skipped is left out. -/
theorem mem_opened_iff {k c : Node} (h : n.WellSpanned) (hk : k ∈ n.children)
    (hwidth : k.start < k.stop) (hc : c ∈ n.children) (hwidth' : c.start < c.stop) :
    c ∈ n.opened (some k) ↔ c ≠ k := by
  rw [opened, List.mem_filter, and_iff_right hc]
  constructor
  · rintro hopen rfl
    simp at hopen
  · intro hne
    -- the skipped child is told by where it starts, and no other child of some width starts there
    have hstart : c.start ≠ k.start := by
      rcases pairwise_or h.spansWell.ordered hc hk hne with hlt | hlt <;> omega
    simp [hstart]

/-- **What the search for super references finds.** References come in the order of the text and
without repetition. They are those of the scope, the skipped child apart, just if each of these is
searched in full, which fails where the index of a reference is itself a reference or a scope with
references in it. -/
theorem superSites_eq_iff (h : n.WellSpanned) (skip : Option Node) :
    ((n.superSites skip).map (·.node)).Pairwise (fun a b => a.start < b.start) ∧
      ((n.superSites skip).map (·.node) = (n.opened skip).flatMap superReferences ↔
        ∀ m ∈ (n.opened skip).flatMap superReferences, m.SearchesAll) ∧
      (∀ k ∈ n.children, k.start < k.stop → skip = some k →
        ∀ c ∈ n.children, c.start < c.stop → (c ∈ n.opened skip ↔ c ≠ k)) := by
  have hchild : ∀ c ∈ n.opened skip, c.WellSpanned := fun c hc => h.child (List.mem_filter.1 hc).1
  refine ⟨List.pairwise_map.2 (sites_superSites h skip).increasing, ?_, ?_⟩
  · have hfound : (n.superSites skip).map (·.node) = (n.opened skip).flatMap found :=
      map_node_superSitesAmong n (n.opened skip)
    have hordered : (n.opened skip).Pairwise fun a b => a.stop ≤ b.start :=
      h.spansWell.ordered.filter _
    rw [hfound, flatMap_eq_flatMap_iff hordered (fun c hc => (hchild c hc).startIn_found)
        fun c hc => (hchild c hc).startIn_superReferences,
      List.forall_mem_flatMap]
    exact forall₂_congr fun c hc => found_eq_iff (hchild c hc)
  · rintro k hk hwidth rfl c hc hwidth'
    exact mem_opened_iff h hk hwidth hc hwidth'

end Compare

/-! ### References in an index -/

/-- The expression `super[i]` with a given index. -/
def shortIndexed (start stop : Nat) (index : Node) : Node :=
  .sound .subscriptExpression none start stop
    [.sound .superKeyword (some .object) start (start + 5) [], index]

/-- The expression `super[f(super.k)]`. -/
def indexedByCall : Node :=
  .shortIndexed 4 21 (.sound .callExpression (some .index) 10 20
    [.sound .identifier (some .function) 10 11 [],
      .sound (.other "arguments") (some .arguments) 11 20 [.shortReference none 12]])

/-- The method `m()\x7bsuper[f(super.k)]\x7d`. -/
def referenceInIndex : Node :=
  .shortMethod 0 0 1 22 [] [.sound .expressionStatement none 4 21 [indexedByCall]]

/-- The method `m()\x7bsuper[super.k]\x7d`. -/
def referenceAsIndex : Node :=
  .shortMethod 0 0 1 19 []
    [.sound .expressionStatement none 4 18 [.shortIndexed 4 18 (.shortReference (some .index) 10)]]

/-- The method `m()\x7bsuper[class\x7bf=super.k\x7d]\x7d`. -/
def classAsIndex : Node :=
  .shortMethod 0 0 1 28 [] [.sound .expressionStatement none 4 27
    [.shortIndexed 4 27 (.sound .classExpression (some .index) 10 26
      [.sound (.other "class_body") (some .body) 15 26
        [.sound .fieldDefinition (some (.other "member")) 16 25
          [.sound .propertyIdentifier (some .property) 16 17 [],
            .shortReference (some .value) 18]]])]]

/-- A reference somewhere in the index is found along with the one that has the index. -/
theorem superSites_eq_referenceInIndex : referenceInIndex.WellSpanned ∧
    (referenceInIndex.superSites referenceInIndex.memberName?).map (·.node.start) = [4, 12] ∧
    (referenceInIndex.superSites referenceInIndex.memberName?).map (·.node)
      = (referenceInIndex.opened referenceInIndex.memberName?).flatMap superReferences := by
  have hspans : referenceInIndex.WellSpanned := by decide +kernel
  refine ⟨hspans, by decide +kernel,
    (superSites_eq_iff hspans referenceInIndex.memberName?).2.1.2 ?_⟩
  have hscope : (referenceInIndex.opened referenceInIndex.memberName?).flatMap superReferences
      = [indexedByCall, .shortReference none 12] := rfl
  rw [hscope, List.forall_mem_cons, List.forall_mem_singleton]
  constructor
  · -- the index is a plain call
    refine ⟨rfl, fun i hi => ?_, fun i hi hkind => ?_⟩
    · cases hi
      rfl
    · cases hi
      cases hkind
  · -- there is no index
    refine ⟨rfl, fun i hi => ?_, fun i hi => ?_⟩
    · cases hi
    · cases hi

/-- A reference that is itself the index is not found, and in a class that is the index one is found
that belongs to the class. -/
theorem not_superSites_eq_referenceAsIndex :
    (referenceAsIndex.WellSpanned ∧
      (referenceAsIndex.superSites referenceAsIndex.memberName?).map (·.node)
        ≠ (referenceAsIndex.opened referenceAsIndex.memberName?).flatMap superReferences) ∧
    (classAsIndex.WellSpanned ∧ (classAsIndex.superSites classAsIndex.memberName?).map (·.node)
      ≠ (classAsIndex.opened classAsIndex.memberName?).flatMap superReferences) := by
  refine ⟨⟨by decide +kernel, fun h => ?_⟩, by decide +kernel, fun h => ?_⟩
  · exact absurd (congrArg (List.map (·.start)) h) (by decide +kernel)
  · exact absurd (congrArg (List.map (·.start)) h) (by decide +kernel)

end Node

end Disinherit
