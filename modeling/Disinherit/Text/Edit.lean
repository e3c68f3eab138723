import Disinherit.Text.Source

/-!
# Edits and splicing

An `Edit` replaces a byte range by a text. `Source.withEdits?` renders a range with a list of edits:
the edits are put in order of their ranges, `Edit.admitted` picks those that do not reach back
before the end of the last one picked, nor past the end of the range, and `Source.weave?` alternates
kept text and replacements.

The order of the list decides only between edits with the same range: of two insertions at one place
the earlier in the list comes first, since `Edit.inOrder` is an insertion sort.
-/

namespace Disinherit

/-- Replace the bytes from `start` up to `stop` by `text`. -/
structure Edit where
  start : Nat
  stop : Nat
  text : String
deriving DecidableEq, Repr

namespace Edit

/-- Edits in order of their start, then of their stop. -/
def precedes (a b : Edit) : Bool :=
  decide (a.start < b.start) || (a.start == b.start && decide (a.stop ≤ b.stop))

/-- Puts an edit in front of the first one that it precedes. -/
def insert (e : Edit) : List Edit → List Edit
  | [] => [e]
  | a :: es => if precedes e a then e :: a :: es else a :: insert e es

/-- The edits of a list in order. Edits with the same range keep their places. -/
def inOrder : List Edit → List Edit
  | [] => []
  | e :: es => insert e (inOrder es)

/-- The edits that a walk over an ordered list takes, when it stands at `cursor` and must not pass
`stop`. The walk goes on from the end of each edit it takes. -/
def admitted (stop : Nat) : Nat → List Edit → List Edit
  | _, [] => []
  | cursor, e :: es =>
    if e.start < cursor ∨ stop < e.stop then admitted stop cursor es
    else e :: admitted stop e.stop es

/-- The edits of a list that are applied to the range, in order. -/
def applied (start stop : Nat) (edits : List Edit) : List Edit :=
  admitted stop start (inOrder edits)

theorem precedes_iff {a b : Edit} :
    precedes a b = true ↔ a.start < b.start ∨ (a.start = b.start ∧ a.stop ≤ b.stop) := by
  simp [precedes]

@[simp] theorem admitted_nil (stop cursor : Nat) : admitted stop cursor [] = [] := rfl

/-- Nothing is taken that is not in the list. -/
theorem mem_of_mem_admitted {stop cursor : Nat} {es : List Edit} {e : Edit}
    (h : e ∈ admitted stop cursor es) : e ∈ es := by
  induction es generalizing cursor with
  | nil => simp at h
  | cons a es ih =>
    unfold admitted at h
    split at h
    · exact List.mem_cons_of_mem _ (ih h)
    · rcases List.mem_cons.1 h with rfl | h
      · exact List.mem_cons_self
      · exact List.mem_cons_of_mem _ (ih h)

end Edit

namespace Source

/-- The text from `cursor` up to `stop` with the edits, given in order, put in place. -/
def weave? (s : Source) (stop : Nat) : Nat → List Edit → Option String
  | cursor, [] => s.slice? cursor stop
  | cursor, e :: es => do
    let kept ← s.slice? cursor e.start
    let rest ← s.weave? stop e.stop es
    return kept ++ e.text ++ rest

/-- The text of a range with the edits applied. -/
def withEdits? (s : Source) (start stop : Nat) (edits : List Edit) : Option String :=
  s.weave? stop start (Edit.applied start stop edits)

/-- With no edits a range is copied. -/
@[simp] theorem withEdits?_nil (s : Source) (start stop : Nat) :
    s.withEdits? start stop [] = s.slice? start stop := by
  simp [withEdits?, Edit.applied, Edit.inOrder, weave?]

end Source

end Disinherit
