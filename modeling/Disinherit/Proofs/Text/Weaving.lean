import Disinherit.Proofs.Text.Boundaries

/-!
# The bytes of an edited text

The walk over an ordered list of edits takes some that follow one another (`Edit.Successive`), and
it takes all that do. `Source.weaveBytes` is what it writes then, byte by byte. Up to the first edit
the bytes are copied (`weaveBytes_eq_append`), and the list may be cut at any offset that lies in no
edit (`weaveBytes_append`).
-/

namespace Disinherit

open Text

namespace Text

@[simp] theorem encode_append (s t : String) : encode (s ++ t) = encode s ++ encode t := by
  simp [encode]

theorem encode_injective {a b : String} (h : encode a = encode b) : a = b := by
  have hdecode := congrArg decode? h
  rwa [decode?_encode, decode?_encode, Option.some.injEq] at hdecode

end Text

namespace Edit

/-! ### Edits that follow one another -/

/-- Edits within a range, each of them behind the end of the one before. -/
structure Successive (start stop : Nat) (es : List Edit) : Prop where
  within : ∀ e ∈ es, start ≤ e.start ∧ e.start ≤ e.stop ∧ e.stop ≤ stop
  ordered : es.Pairwise fun a b => a.stop ≤ b.start

namespace Successive

variable {start stop : Nat} {e : Edit} {es : List Edit}

theorem nil : Successive start stop [] :=
  ⟨fun _ h => absurd h List.not_mem_nil, .nil⟩

theorem head (h : Successive start stop (e :: es)) :
    start ≤ e.start ∧ e.start ≤ e.stop ∧ e.stop ≤ stop :=
  h.within e List.mem_cons_self

theorem behind (h : Successive start stop (e :: es)) : ∀ a ∈ es, e.stop ≤ a.start :=
  (List.pairwise_cons.1 h.ordered).1

/-- The edits after the first follow its end. -/
theorem tail (h : Successive start stop (e :: es)) : Successive e.stop stop es where
  within a ha := ⟨h.behind a ha, (h.within a (List.mem_cons_of_mem e ha)).2⟩
  ordered := (List.pairwise_cons.1 h.ordered).2

theorem cons (hle : start ≤ e.start) (hle' : e.start ≤ e.stop) (hstop : e.stop ≤ stop)
    (h : Successive e.stop stop es) : Successive start stop (e :: es) where
  within a ha := by
    rcases List.mem_cons.1 ha with rfl | ha
    · exact ⟨hle, hle', hstop⟩
    · have := h.within a ha
      omega
  ordered := List.pairwise_cons.2 ⟨fun a ha => (h.within a ha).1, h.ordered⟩

theorem apart (h : Successive start stop es) : es.Pairwise Apart :=
  h.ordered.imp .inl

/-- Some of the edits follow one another too, within any range that they lie in. -/
theorem filter {q : Edit → Bool} {start' stop' : Nat} (h : Successive start stop es)
    (hrange : ∀ a ∈ es, q a = true → start' ≤ a.start ∧ a.stop ≤ stop') :
    Successive start' stop' (es.filter q) where
  within a ha := by
    obtain ⟨ha, hq⟩ := List.mem_filter.1 ha
    exact ⟨(hrange a ha hq).1, (h.within a ha).2.1, (hrange a ha hq).2⟩
  ordered := h.ordered.filter q

end Successive

/-! ### What the walk takes -/

section Walk

variable {stop cursor : Nat} {es : List Edit}

/-- Of well-formed edits in any order the walk takes some that follow one another. -/
theorem successive_admitted (hes : ∀ e ∈ es, e.start ≤ e.stop) :
    Successive cursor stop (admitted stop cursor es) := by
  induction es generalizing cursor with
  | nil => exact .nil
  | cons e es ih =>
    have hrest : ∀ a ∈ es, a.start ≤ a.stop := fun a ha => hes a (List.mem_cons_of_mem e ha)
    rw [admitted]
    split
    · exact ih hrest
    · next htaken =>
      exact .cons (by omega) (hes e List.mem_cons_self) (by omega) (ih hrest)

/-- It takes all of them if they follow one another from the start. -/
theorem admitted_eq_self (h : Successive cursor stop es) : admitted stop cursor es = es := by
  induction es generalizing cursor with
  | nil => rfl
  | cons e es ih =>
    have := h.head
    rw [admitted, if_neg (by omega), ih h.tail]

end Walk

end Edit

namespace Source

/-- The bytes from `cursor` up to `stop` with the edits, given in order, put in place. -/
def weaveBytes (s : Source) (stop : Nat) : Nat → List Edit → List UInt8
  | cursor, [] => s.range cursor stop
  | cursor, e :: es => s.range cursor e.start ++ encode e.text ++ s.weaveBytes stop e.stop es

variable {s : Source} {start mid stop cursor : Nat} {es es' : List Edit}

/-! ### Ranges -/

theorem length_range (hstop : stop ≤ s.size) : (s.range start stop).length = stop - start := by
  rw [range, List.length_take, List.length_drop]
  unfold size at hstop
  omega

theorem range_append_range (hstart : start ≤ mid) (hstop : mid ≤ stop) :
    s.range start mid ++ s.range mid stop = s.range start stop := by
  have hdrop : s.bytes.drop mid = (s.bytes.drop start).drop (mid - start) := by
    rw [List.drop_drop, Nat.add_sub_cancel' hstart]
  rw [range, range, range, hdrop, ← List.take_add, ← Nat.sub_add_sub_cancel hstop hstart,
    Nat.add_comm]

@[simp] theorem range_self (i : Nat) : s.range i i = [] := by
  rw [range, Nat.sub_self, List.take_zero]

/-! ### Weaving -/

/-- The text that the walk writes. -/
theorem encode_of_weave? {text : String} (h : s.weave? stop cursor es = some text) :
    encode text = s.weaveBytes stop cursor es := by
  induction es generalizing cursor text with
  | nil => exact decode?_eq_some_iff.1 h
  | cons e es ih =>
    -- what is kept, the text of the edit, and the rest
    obtain ⟨kept, hkept, h⟩ := Option.bind_eq_some_iff.1 h
    obtain ⟨rest, hrest, h⟩ := Option.bind_eq_some_iff.1 h
    obtain rfl := Option.some.inj h
    rw [weaveBytes, encode_append, encode_append, ih hrest, decode?_eq_some_iff.1 hkept]

/-- Up to the first edit the bytes are copied. -/
theorem weaveBytes_eq_append (hstart : start ≤ mid) (hstop : mid ≤ stop)
    (hes : ∀ e ∈ es, mid ≤ e.start) :
    s.weaveBytes stop start es = s.range start mid ++ s.weaveBytes stop mid es := by
  cases es with
  | nil => exact (range_append_range hstart hstop).symm
  | cons e es =>
    -- the first piece that is kept reaches over `mid`
    rw [weaveBytes, weaveBytes, ← range_append_range hstart (hes e List.mem_cons_self)]
    simp only [List.append_assoc]

/-- What comes before an offset is written by the edits there, and what comes after it by the
others. -/
theorem weaveBytes_append (h : Edit.Successive start mid es) (hle : start ≤ mid)
    (hstop : mid ≤ stop) (hes' : ∀ e ∈ es', mid ≤ e.start) :
    s.weaveBytes stop start (es ++ es')
      = s.weaveBytes mid start es ++ s.weaveBytes stop mid es' := by
  induction es generalizing start with
  | nil => exact weaveBytes_eq_append hle hstop hes'
  | cons e es ih =>
    rw [List.cons_append, weaveBytes, weaveBytes, ih h.tail h.head.2.2]
    simp only [List.append_assoc]

end Source

namespace Script

variable {s : Script} {start stop : Nat} {edits : List Edit}

theorem exists_withEdits (hstart : s.source.IsBoundary start) (hstop : s.source.IsBoundary stop)
    (hedits : ∀ e ∈ edits, e.OnBoundaries s.source) :
    ∃ text, s.withEdits start stop edits = .ok text ∧
      encode text = s.source.weaveBytes stop start (Edit.applied start stop edits) := by
  obtain ⟨text, htext⟩ := Source.exists_withEdits? hstart hstop hedits
  refine ⟨text, ?_, Source.encode_of_weave? htext⟩
  rw [withEdits, htext]

end Script

end Disinherit
