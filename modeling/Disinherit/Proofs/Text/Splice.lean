import Disinherit.Layout.Reindent
import Disinherit.Proofs.Lists

/-!
# Edits that are applied

Edits are put in order by an insertion sort, and what is known of it is known of `Edit.inOrder`
(`inOrder_eq_insertionSort`). Of several edits of a range those are applied that do not reach back
before the end of one that was taken earlier. So an edit is sure to be applied if each of the others
is apart from it or starts within it (`Edit.mem_applied`).

Edits that move lines never stand in the way. They are made only for lines which no other edit
touches, and are therefore apart from all others (`Script.clears_of_mem_shiftEdits`).
-/

namespace Disinherit

namespace Edit

/-! ### The order of edits -/

instance : IsTrans Edit fun a b => precedes a b = true where
  trans a b c hab hbc := by
    rw [precedes_iff] at *
    omega

/-- Of two edits one precedes the other. -/
instance : Std.Total fun a b : Edit => precedes a b = true where
  total a b := by
    rw [precedes_iff, precedes_iff]
    omega

theorem insert_eq_orderedInsert (e : Edit) (es : List Edit) :
    insert e es = es.orderedInsert (fun a b => precedes a b = true) e := by
  induction es with
  | nil => rfl
  | cons a es ih => rw [insert, List.orderedInsert_cons, ih]

theorem inOrder_eq_insertionSort (es : List Edit) :
    inOrder es = es.insertionSort fun a b => precedes a b = true := by
  induction es with
  | nil => rfl
  | cons e es ih => rw [inOrder, List.insertionSort_cons, insert_eq_orderedInsert, ih]

theorem perm_inOrder (es : List Edit) : (inOrder es).Perm es := by
  rw [inOrder_eq_insertionSort]
  exact List.perm_insertionSort _ es

theorem pairwise_inOrder (es : List Edit) :
    (inOrder es).Pairwise fun a b => precedes a b = true := by
  rw [inOrder_eq_insertionSort]
  exact List.pairwise_insertionSort _ es

theorem mem_of_mem_applied {start stop : Nat} {edits : List Edit} {e : Edit}
    (h : e ∈ applied start stop edits) : e ∈ edits :=
  (perm_inOrder edits).mem_iff.1 (mem_of_mem_admitted h)

/-! ### Edits apart -/

/-- Two edits replace different parts of the text. They may meet at their ends. -/
def Apart (a b : Edit) : Prop :=
  a.stop ≤ b.start ∨ b.stop ≤ a.start

/-- An edit lies within another, which starts before it. -/
def Inside (a b : Edit) : Prop :=
  b.start < a.start ∧ a.stop ≤ b.stop

/-- Two edits start at different places, and the earlier one ends before the other starts. -/
def Clears (a b : Edit) : Prop :=
  (a.start < b.start ∧ a.stop ≤ b.start) ∨ (b.start < a.start ∧ b.stop ≤ a.start)

theorem Apart.symm {a b : Edit} (h : a.Apart b) : b.Apart a :=
  Or.symm h

namespace Clears

variable {a b : Edit}

theorem symm (h : a.Clears b) : b.Clears a :=
  Or.symm h

theorem apart (h : a.Clears b) : a.Apart b :=
  h.imp And.right And.right

theorem ne (h : a.Clears b) : a ≠ b := by
  rintro rfl
  rcases h with ⟨hlt, -⟩ | ⟨hlt, -⟩
  · exact Nat.lt_irrefl _ hlt
  · exact Nat.lt_irrefl _ hlt

/-- The one that comes first in order ends before the other starts. -/
theorem stop_le (h : a.Clears b) (hle : a.start < b.start ∨ (a.start = b.start ∧ a.stop ≤ b.stop)) :
    a.stop ≤ b.start := by
  rcases h with ⟨-, hstop⟩ | ⟨hlt, -⟩
  · exact hstop
  · omega

end Clears

/-- A walk takes an edit if it stands in front of it, and nothing that comes before leads past its
start. -/
theorem mem_admitted {stop cursor : Nat} {es : List Edit} {e : Edit}
    (hsorted : es.Pairwise fun a b => precedes a b = true) (he : e ∈ es) (hle : e.start ≤ e.stop)
    (hcursor : cursor ≤ e.start) (hstop : e.stop ≤ stop)
    (hothers : ∀ a ∈ es, a = e ∨ a.Apart e ∨ a.Inside e) : e ∈ admitted stop cursor es := by
  induction es generalizing cursor with
  | nil => cases he
  | cons a es ih =>
    obtain ⟨hfirst, hrest⟩ := List.pairwise_cons.1 hsorted
    have hothers' : ∀ b ∈ es, b = e ∨ b.Apart e ∨ b.Inside e :=
      fun b hb => hothers b (List.mem_cons_of_mem a hb)
    unfold admitted
    by_cases hae : a = e
    · -- `e` fits in behind the cursor
      rw [hae, if_neg (by omega)]
      exact List.mem_cons_self
    · have hmem : e ∈ es := (List.mem_cons.1 he).resolve_left (Ne.symm hae)
      split
      · -- `a` is left out, and the cursor stays
        exact ih hrest hmem hcursor hothers'
      · -- the walk goes on from the end of `a`, which comes no later than the start of `e`
        have hprecedes := precedes_iff.1 (hfirst e hmem)
        refine List.mem_cons_of_mem _ (ih hrest hmem ?_ hothers')
        rcases (hothers a List.mem_cons_self).resolve_left hae with (hlt | hlt) | ⟨hlt, -⟩
        · exact hlt
        · omega
        · omega

/-- An edit within a range is applied if each of the others is apart from it or lies within it. -/
theorem mem_applied {start stop : Nat} {edits : List Edit} {e : Edit} (he : e ∈ edits)
    (hstart : start ≤ e.start) (hle : e.start ≤ e.stop) (hstop : e.stop ≤ stop)
    (hothers : ∀ a ∈ edits, a = e ∨ a.Apart e ∨ a.Inside e) : e ∈ applied start stop edits := by
  have hmem : ∀ {a}, a ∈ inOrder edits ↔ a ∈ edits := (perm_inOrder edits).mem_iff
  exact mem_admitted (pairwise_inOrder edits) (hmem.2 he) hle hstart hstop
    fun a ha => hothers a (hmem.1 ha)

/-- An edit that does not touch a range clears every edit of it. -/
theorem clears_of_touches {a b : Edit} (h : a.touches b.start b.stop = false) : a.Clears b := by
  simp only [touches, Bool.or_eq_false_iff, Bool.and_eq_false_iff, decide_eq_false_iff_not] at h
  unfold Clears
  omega

end Edit

namespace Script

/-- The text of a node with edits, given in order, put in place. -/
def woven (s : Script) (n : Node) (es : List Edit) : Attempt String :=
  match s.source.weave? n.stop n.start es with
  | some text => .ok text
  | none => .error .cutCharacter

/-- The edits that are applied when a node is written out with its lines moved to `indent`. -/
def appliedEdits (s : Script) (n : Node) (edits : List Edit) (indent : String) : List Edit :=
  Edit.applied n.start n.stop (edits ++ s.shiftEdits n edits indent)

theorem render_eq_woven (s : Script) (n : Node) (edits : List Edit) (indent : String) :
    s.render n edits indent = s.woven n (s.appliedEdits n edits indent) := rfl

/-- An edit that moves a line clears the edits that were there before. -/
theorem clears_of_mem_shiftEdits {s : Script} {n : Node} {edits : List Edit} {indent : String}
    {a b : Edit} (ha : a ∈ edits) (hb : b ∈ s.shiftEdits n edits indent) : a.Clears b := by
  have htouches := (List.mem_filter.1 hb).2
  rw [Bool.not_eq_true', List.any_eq_false] at htouches
  exact Edit.clears_of_touches (Bool.eq_false_iff.2 (htouches a ha))

end Script

end Disinherit
