import Disinherit.Proofs.Text.Weaving
import Mathlib.Data.List.Flatten
import Mathlib.Data.List.Pairwise
import Mathlib.Data.List.Perm.Basic

/-!
# Edits made at once

Edits are applied in a walk over the text, one after the other. This file says what the walk comes
to, without an order of the edits (`Script.substitutes_withEdits`).

`Source.substituted` makes all edits at once, and it does so offset by offset. What comes out of an
offset is the text that is inserted there, then the text of an edit that begins there, and then the
byte itself, unless an edit replaces it. For edits that follow one another (`Edit.Successive`) this
is what the walk writes (`weaveBytes_eq_substituted`). The one delicate place is an offset at which
an edit without bytes meets others. It goes first in both, since it comes first in the order of the
ranges.

The walk takes edits that follow one another (`Edit.successive_admitted`), and what it leaves out
starts within an edit that it took before (`Edit.exists_left`). If no two edits overlap then nothing
is left out, and if their ranges are different too then at every offset there is at most one edit of
each kind, whatever the order of the list (`Source.substituted_perm`).
-/

namespace Disinherit

open Text

namespace Edit

/-! ### What the walk takes -/

section Walk

variable {stop : Nat} {es : List Edit}

/-- What the walk leaves out starts before the place where it set out, or within an edit that it
took. -/
theorem exists_left (cursor : Nat) (hsorted : es.Pairwise fun a b => precedes a b = true)
    (hstop : ∀ e ∈ es, e.stop ≤ stop) :
    ∃ left, es.Perm (admitted stop cursor es ++ left) ∧ ∀ e ∈ left, e.start < cursor ∨
      ∃ a ∈ admitted stop cursor es, a.start ≤ e.start ∧ e.start < a.stop := by
  induction es generalizing cursor with
  | nil => exact ⟨[], .nil, fun e he => absurd he List.not_mem_nil⟩
  | cons e es ih =>
    obtain ⟨hfirst, hsorted⟩ := List.pairwise_cons.1 hsorted
    have hrest : ∀ a ∈ es, a.stop ≤ stop := fun a ha => hstop a (List.mem_cons_of_mem e ha)
    rw [admitted]
    split
    · next hskip =>
      -- `e` is left out: since it ends in time, it started too early
      obtain ⟨left, hperm, hleft⟩ := ih cursor hsorted hrest
      refine ⟨e :: left, (hperm.cons e).trans List.perm_middle.symm, fun a ha => ?_⟩
      rcases List.mem_cons.1 ha with rfl | ha
      · have := hstop a List.mem_cons_self
        left
        omega
      · exact hleft a ha
    · -- `e` is admitted, and the cursor moves to its end
      obtain ⟨left, hperm, hleft⟩ := ih e.stop hsorted hrest
      refine ⟨left, hperm.cons e, fun a ha => .inr ?_⟩
      rcases hleft a ha with hlt | ⟨b, hb, hle, hlt⟩
      · -- `a` starts before the end of `e`, and it comes later in order
        have hmem : a ∈ es := hperm.mem_iff.2 (List.mem_append_right _ ha)
        have := precedes_iff.1 (hfirst a hmem)
        exact ⟨e, List.mem_cons_self, by omega, hlt⟩
      · exact ⟨b, List.mem_cons_of_mem e hb, hle, hlt⟩

end Walk

/-! ### Edits that do not overlap -/

/-- Two edits that do not overlap and have different ranges. -/
structure Separate (a b : Edit) : Prop where
  apart : a.Apart b
  ne : a.start ≠ b.start ∨ a.stop ≠ b.stop

instance (a b : Edit) : Decidable (a.Separate b) :=
  decidable_of_iff ((a.stop ≤ b.start ∨ b.stop ≤ a.start) ∧ (a.start ≠ b.start ∨ a.stop ≠ b.stop))
    ⟨fun h => ⟨h.1, h.2⟩, fun h => ⟨h.apart, h.ne⟩⟩

theorem Separate.symm {a b : Edit} (h : a.Separate b) : b.Separate a :=
  ⟨h.apart.symm, h.ne.imp Ne.symm Ne.symm⟩

section Separate

variable {start stop : Nat} {edits edits' : List Edit}

/-- In order, edits that do not overlap follow one another. -/
theorem successive_inOrder
    (hwithin : ∀ e ∈ edits, start ≤ e.start ∧ e.start ≤ e.stop ∧ e.stop ≤ stop)
    (happart : edits.Pairwise Apart) : Successive start stop (inOrder edits) where
  within e he := hwithin e ((perm_inOrder edits).mem_iff.1 he)
  ordered := by
    have happart' := ((perm_inOrder edits).pairwise_iff Apart.symm).2 happart
    refine (happart'.and (pairwise_inOrder edits)).imp_of_mem fun {a b} ha hb ⟨hab, hle⟩ => ?_
    have hawithin := hwithin a ((perm_inOrder edits).mem_iff.1 ha)
    have hbwithin := hwithin b ((perm_inOrder edits).mem_iff.1 hb)
    have hle := precedes_iff.1 hle
    rcases hab with hstop | hstop
    · exact hstop
    · -- the later of the two ends where the other starts only if both are empty and in one place
      omega

/-- Edits with different ranges have only one order. -/
theorem inOrder_perm (hperm : edits'.Perm edits) (hseparate : edits.Pairwise Separate) :
    inOrder edits' = inOrder edits := by
  have hboth : (inOrder edits').Perm (inOrder edits) :=
    ((perm_inOrder edits').trans hperm).trans (perm_inOrder edits).symm
  -- sorted lists with the same elements agree if the order tells any two of them apart
  refine hboth.eq_of_pairwise ?_ (pairwise_inOrder edits') (pairwise_inOrder edits)
  intro a b ha hb hab hba
  have ha' := ((perm_inOrder edits').trans hperm).mem_iff.1 ha
  have hb' := (perm_inOrder edits).mem_iff.1 hb
  have hab := precedes_iff.1 hab
  have hba := precedes_iff.1 hba
  by_contra hne
  have hsymm : Std.Symm Separate := ⟨fun _ _ => Separate.symm⟩
  have := (hseparate.forall ha' hb' hne).ne
  omega

end Separate

/-! ### What edits do to one offset -/

/-- The edit puts its text in at the offset and replaces nothing. -/
def insertsAt (i : Nat) (e : Edit) : Bool :=
  e.start == i && e.stop == i

/-- The edit replaces bytes from the offset on. -/
def beginsAt (i : Nat) (e : Edit) : Bool :=
  e.start == i && decide (i < e.stop)

/-- The edit replaces the byte at the offset. -/
def covers (i : Nat) (e : Edit) : Bool :=
  decide (e.start ≤ i) && decide (i < e.stop)

/-- The texts of the edits that pass a test. -/
def textsOf (p : Edit → Bool) (es : List Edit) : List UInt8 :=
  (es.filter p).flatMap fun e => encode e.text

section Tests

variable {i : Nat} {p : Edit → Bool} {e : Edit} {es es' : List Edit}

theorem insertsAt_iff : e.insertsAt i = true ↔ e.start = i ∧ e.stop = i := by
  simp [insertsAt]

theorem beginsAt_iff : e.beginsAt i = true ↔ e.start = i ∧ i < e.stop := by
  simp [beginsAt]

theorem covers_iff : e.covers i = true ↔ e.start ≤ i ∧ i < e.stop := by
  simp [covers]

theorem textsOf_cons_of_pos (h : p e = true) :
    textsOf p (e :: es) = encode e.text ++ textsOf p es := by
  rw [textsOf, List.filter_cons_of_pos h, List.flatMap_cons]
  rfl

theorem textsOf_cons_of_neg (h : ¬ p e = true) : textsOf p (e :: es) = textsOf p es := by
  rw [textsOf, List.filter_cons_of_neg h]
  rfl

theorem textsOf_eq_nil (h : ∀ e ∈ es, ¬ p e = true) : textsOf p es = [] := by
  rw [textsOf, List.filter_eq_nil_iff.2 h, List.flatMap_nil]

/-- Where only one edit passes, the order of the list does not matter. -/
theorem textsOf_perm (hperm : es'.Perm es)
    (hone : es.Pairwise fun a b => ¬ (p a = true ∧ p b = true)) : textsOf p es' = textsOf p es := by
  have hone' : es'.Pairwise fun a b => ¬ (p a = true ∧ p b = true) :=
    (hperm.pairwise_iff fun h hba => h hba.symm).2 hone
  -- at most one edit is chosen on each side
  have hnone : ∀ {l : List Edit}, (l.Pairwise fun a b => ¬ (p a = true ∧ p b = true)) →
      (l.filter p).Pairwise fun _ _ => False := by
    intro l hl
    refine (hl.filter p).imp_of_mem fun {a b} ha hb hnot => hnot ?_
    exact ⟨(List.mem_filter.1 ha).2, (List.mem_filter.1 hb).2⟩
  rw [textsOf, textsOf, (hperm.filter p).eq_of_pairwise (fun _ _ _ _ h => h.elim) (hnone hone')
    (hnone hone)]

end Tests

end Edit

namespace Source

variable (s : Source)

/-- What comes out of an offset when all edits are made at once: what is inserted there, then the
text of an edit that begins there, and then the byte, unless an edit replaces it. -/
def outcomeAt (es : List Edit) (i : Nat) : List UInt8 :=
  Edit.textsOf (·.insertsAt i) es ++ Edit.textsOf (·.beginsAt i) es
    ++ if es.any (·.covers i) then [] else s.range i (i + 1)

/-- The bytes of a range with all edits made at once. At the end of the range there is nothing left
but what is inserted there. -/
def substituted (start stop : Nat) (es : List Edit) : List UInt8 :=
  (List.range' start (stop - start)).flatMap (s.outcomeAt es) ++ Edit.textsOf (·.insertsAt stop) es

variable {s} {start mid stop cursor : Nat} {e : Edit} {es es' : List Edit}

/-! ### All edits at once -/

section Outcome

variable {i : Nat}

/-- Nothing happens to an offset before all edits. -/
theorem outcomeAt_of_lt (h : ∀ e ∈ es, i < e.start) : s.outcomeAt es i = s.range i (i + 1) := by
  have hinserts : ∀ e ∈ es, ¬ e.insertsAt i = true := by
    intro e he
    have := h e he
    rw [Edit.insertsAt_iff]
    omega
  have hbegins : ∀ e ∈ es, ¬ e.beginsAt i = true := by
    intro e he
    have := h e he
    rw [Edit.beginsAt_iff]
    omega
  have hcovers : es.any (·.covers i) = false := by
    refine List.any_eq_false.2 fun e he => ?_
    have := h e he
    rw [Edit.covers_iff]
    omega
  rw [outcomeAt, Edit.textsOf_eq_nil hinserts, Edit.textsOf_eq_nil hbegins, hcovers]
  rfl

/-- An edit that neither begins at an offset nor replaces its byte leaves it to the others. -/
theorem outcomeAt_cons (hbegins : ¬ e.beginsAt i = true) (hcovers : ¬ e.covers i = true) :
    s.outcomeAt (e :: es) i = (if e.insertsAt i then encode e.text else [])
      ++ s.outcomeAt es i := by
  have hinserts : Edit.textsOf (·.insertsAt i) (e :: es)
      = (if e.insertsAt i then encode e.text else []) ++ Edit.textsOf (·.insertsAt i) es := by
    split
    · next h => exact Edit.textsOf_cons_of_pos h
    · next h => exact Edit.textsOf_cons_of_neg h
  rw [outcomeAt, outcomeAt, hinserts, Edit.textsOf_cons_of_neg hbegins, List.any_cons,
    Bool.eq_false_iff.2 hcovers, Bool.false_or]
  simp only [List.append_assoc]

/-- Behind an edit there is nothing of it. -/
theorem outcomeAt_cons_of_lt (hstart : e.start < i) (hstop : e.stop ≤ i) :
    s.outcomeAt (e :: es) i = s.outcomeAt es i := by
  have hbegins : ¬ e.beginsAt i = true := by
    rw [Edit.beginsAt_iff]
    omega
  have hcovers : ¬ e.covers i = true := by
    rw [Edit.covers_iff]
    omega
  have hinserts : ¬ e.insertsAt i = true := by
    rw [Edit.insertsAt_iff]
    omega
  rw [outcomeAt_cons hbegins hcovers, if_neg hinserts, List.nil_append]

/-- An insertion in front of the others comes out first. -/
theorem outcomeAt_cons_of_insertsAt (h : e.insertsAt i = true) :
    s.outcomeAt (e :: es) i = encode e.text ++ s.outcomeAt es i := by
  have hrange := Edit.insertsAt_iff.1 h
  have hbegins : ¬ e.beginsAt i = true := by
    rw [Edit.beginsAt_iff]
    omega
  have hcovers : ¬ e.covers i = true := by
    rw [Edit.covers_iff]
    omega
  rw [outcomeAt_cons hbegins hcovers, if_pos h]

/-- From the bytes that an edit replaces there comes its text, at the first of them, if all other
edits are behind it. -/
theorem outcomeAt_cons_of_covers (h : e.covers i = true) (hes : ∀ a ∈ es, e.stop ≤ a.start) :
    s.outcomeAt (e :: es) i = if e.start = i then encode e.text else [] := by
  have hrange := Edit.covers_iff.1 h
  -- an edit behind `e` starts after `i`, and so nothing else happens there
  have hinserts : ∀ a ∈ e :: es, ¬ a.insertsAt i = true := by
    intro a ha
    rw [Edit.insertsAt_iff]
    rcases List.mem_cons.1 ha with rfl | ha
    · omega
    · have := hes a ha
      omega
  have hbegins : ∀ a ∈ es, ¬ a.beginsAt i = true := by
    intro a ha
    have := hes a ha
    rw [Edit.beginsAt_iff]
    omega
  rw [outcomeAt, Edit.textsOf_eq_nil hinserts, List.any_cons, h, Bool.true_or, if_pos rfl,
    List.nil_append, List.append_nil]
  split
  · next hstart =>
    rw [Edit.textsOf_cons_of_pos (Edit.beginsAt_iff.2 ⟨hstart, hrange.2⟩),
      Edit.textsOf_eq_nil hbegins, List.append_nil]
  · next hstart =>
    rw [Edit.textsOf_cons_of_neg fun hat => hstart (Edit.beginsAt_iff.1 hat).1,
      Edit.textsOf_eq_nil hbegins]

end Outcome

/-- The offsets of a range are cut at one of them. -/
theorem offsets_eq_append (hstart : start ≤ mid) (hstop : mid ≤ stop) :
    List.range' start (stop - start) = List.range' start (mid - start) ++ List.range' mid
      (stop - mid) := by
  have happend := @List.range'_append_1 start (mid - start) (stop - mid)
  rw [Nat.add_sub_cancel' hstart] at happend
  rw [happend, show mid - start + (stop - mid) = stop - start by omega]

theorem offsets_eq_cons (h : start < stop) :
    List.range' start (stop - start) = start :: List.range' (start + 1) (stop - start - 1) :=
  List.range'_eq_cons_iff.2 ⟨rfl, by omega, rfl⟩

theorem flatMap_range_succ (s : Source) (start count : Nat) :
    (List.range' start count).flatMap (fun i => s.range i (i + 1))
      = s.range start (start + count) := by
  induction count generalizing start with
  | zero => exact (range_self start).symm
  | succ count ih =>
    -- one more byte in front
    rw [List.range'_succ, List.flatMap_cons, ih, range_append_range (Nat.le_succ _) (by omega)]
    congr 1
    omega

/-- Up to the first edit the bytes are kept. -/
theorem substituted_eq_append (hstart : start ≤ mid) (hstop : mid ≤ stop)
    (hes : ∀ e ∈ es, mid ≤ e.start) :
    s.substituted start stop es = s.range start mid ++ s.substituted mid stop es := by
  have hkept : (List.range' start (mid - start)).flatMap (s.outcomeAt es) = s.range start mid := by
    -- before `mid` no edit starts, and each offset keeps its byte
    calc (List.range' start (mid - start)).flatMap (s.outcomeAt es)
        = (List.range' start (mid - start)).flatMap fun i => s.range i (i + 1) := by
          refine List.flatMap_congr fun i hi => outcomeAt_of_lt fun e he => ?_
          have := List.mem_range'_1.1 hi
          have := hes e he
          omega
      _ = s.range start mid := by rw [flatMap_range_succ, Nat.add_sub_cancel' hstart]
  rw [substituted, substituted, offsets_eq_append hstart hstop, List.flatMap_append, hkept,
    List.append_assoc]

/-- An insertion at the start comes first. -/
theorem substituted_cons_of_insertsAt (h : e.insertsAt start = true) (hstop : start ≤ stop) :
    s.substituted start stop (e :: es) = encode e.text ++ s.substituted start stop es := by
  have hrange := Edit.insertsAt_iff.1 h
  rcases Nat.eq_or_lt_of_le hstop with rfl | hlt
  · -- the insertion is at the end of the range, where no offset is left
    rw [substituted, substituted, Nat.sub_self, List.range'_zero, List.flatMap_nil,
      List.flatMap_nil, Edit.textsOf_cons_of_pos h]
    rfl
  · -- the insertion is at the first of the offsets and not at any other
    have hend : ¬ e.insertsAt stop = true := by
      rw [Edit.insertsAt_iff]
      omega
    have hrest : (List.range' (start + 1) (stop - start - 1)).flatMap (s.outcomeAt (e :: es))
        = (List.range' (start + 1) (stop - start - 1)).flatMap (s.outcomeAt es) := by
      refine List.flatMap_congr fun i hi => outcomeAt_cons_of_lt ?_ ?_
      · have := List.mem_range'_1.1 hi
        omega
      · have := List.mem_range'_1.1 hi
        omega
    rw [substituted, substituted, offsets_eq_cons hlt, List.flatMap_cons, List.flatMap_cons, hrest,
      outcomeAt_cons_of_insertsAt h, Edit.textsOf_cons_of_neg hend]
    simp only [List.append_assoc]

/-- An edit with bytes that begins at the start gives its text for them. -/
theorem substituted_cons_of_lt (hlt : e.start < e.stop) (hstop : e.stop ≤ stop)
    (hes : ∀ a ∈ es, e.stop ≤ a.start) :
    s.substituted e.start stop (e :: es) = encode e.text ++ s.substituted e.stop stop es := by
  -- the text comes at the first offset of the edit, and nothing at those inside
  have hfirst : s.outcomeAt (e :: es) e.start = encode e.text :=
    (outcomeAt_cons_of_covers (Edit.covers_iff.2 ⟨Nat.le_refl _, hlt⟩) hes).trans (if_pos rfl)
  have hinner : (List.range' (e.start + 1) (e.stop - e.start - 1)).flatMap (s.outcomeAt (e :: es))
      = [] := by
    refine List.flatMap_eq_nil_iff.2 fun i hi => ?_
    have hi := List.mem_range'_1.1 hi
    rw [outcomeAt_cons_of_covers (Edit.covers_iff.2 ⟨by omega, by omega⟩) hes, if_neg (by omega)]
  -- behind the edit it is as if it were not there
  have hrest : (List.range' e.stop (stop - e.stop)).flatMap (s.outcomeAt (e :: es))
      = (List.range' e.stop (stop - e.stop)).flatMap (s.outcomeAt es) := by
    refine List.flatMap_congr fun i hi => outcomeAt_cons_of_lt ?_ ?_
    · have := List.mem_range'_1.1 hi
      omega
    · exact (List.mem_range'_1.1 hi).1
  have hend : ¬ e.insertsAt stop = true := by
    rw [Edit.insertsAt_iff]
    omega
  rw [substituted, substituted, offsets_eq_append (Nat.le_of_lt hlt) hstop, offsets_eq_cons hlt,
    List.flatMap_append, List.flatMap_cons, hfirst, hinner, hrest, Edit.textsOf_cons_of_neg hend,
    List.append_nil, List.append_assoc]

/-- **The walk makes all edits at once**, if they follow one another. -/
theorem weaveBytes_eq_substituted (h : Edit.Successive start stop es) :
    s.weaveBytes stop start es = s.substituted start stop es := by
  induction es generalizing start with
  | nil =>
    rcases Nat.le_total start stop with hle | hle
    · -- without edits all bytes are kept
      rw [weaveBytes, substituted_eq_append hle (Nat.le_refl stop) fun e he =>
        absurd he List.not_mem_nil, substituted, Nat.sub_self]
      exact (List.append_nil _).symm
    · -- a range that ends before it starts has no bytes, and no edit fits into it
      rw [weaveBytes, substituted, range, Nat.sub_eq_zero_of_le hle]
      rfl
  | cons e es ih =>
    obtain ⟨hstart, hwidth, hstop⟩ := h.head
    -- the edit inserts at one place or replaces some bytes, and either way its text comes first
    have hnext : s.substituted e.start stop (e :: es)
        = encode e.text ++ s.substituted e.stop stop es := by
      rcases Nat.eq_or_lt_of_le hwidth with heq | hlt
      · rw [← heq]
        exact substituted_cons_of_insertsAt (Edit.insertsAt_iff.2 ⟨rfl, heq.symm⟩) (by omega)
      · exact substituted_cons_of_lt hlt hstop h.behind
    have hfirst : ∀ a ∈ e :: es, e.start ≤ a.start := by
      intro a ha
      rcases List.mem_cons.1 ha with rfl | ha
      · exact Nat.le_refl _
      · exact Nat.le_trans hwidth (h.behind a ha)
    rw [weaveBytes, ih h.tail, substituted_eq_append hstart (by omega) hfirst, hnext,
      List.append_assoc]

/-- For edits of different ranges that do not overlap, the order of the list does not matter. -/
theorem substituted_perm (hperm : es'.Perm es) (hseparate : es.Pairwise Edit.Separate) :
    s.substituted start stop es' = s.substituted start stop es := by
  -- of separate edits at most one inserts at `i`, and at most one begins there
  have hinserts : ∀ i, Edit.textsOf (·.insertsAt i) es' = Edit.textsOf (·.insertsAt i) es := by
    intro i
    refine Edit.textsOf_perm hperm (hseparate.imp fun {a b} hab ⟨ha, hb⟩ => ?_)
    have := Edit.insertsAt_iff.1 ha
    have := Edit.insertsAt_iff.1 hb
    have := hab.ne
    omega
  have hbegins : ∀ i, Edit.textsOf (·.beginsAt i) es' = Edit.textsOf (·.beginsAt i) es := by
    intro i
    refine Edit.textsOf_perm hperm (hseparate.imp fun {a b} hab ⟨ha, hb⟩ => ?_)
    have := Edit.beginsAt_iff.1 ha
    have := Edit.beginsAt_iff.1 hb
    rcases hab.apart with hstop | hstop <;> omega
  have hcovers : ∀ i, es'.any (·.covers i) = es.any (·.covers i) := by
    intro i
    rw [Bool.eq_iff_iff, List.any_eq_true, List.any_eq_true]
    exact exists_congr fun a => and_congr_left fun _ => hperm.mem_iff
  have hat : s.outcomeAt es' = s.outcomeAt es := by
    funext i
    rw [outcomeAt, outcomeAt, hinserts, hbegins, hcovers]
  rw [substituted, substituted, hat, hinserts]

end Source

namespace Script

variable {s : Script} {start stop : Nat} {edits : List Edit}

/-- A text that is spliced is the range with the applied edits made at once. -/
theorem encode_of_withEdits {text : String} (hedits : ∀ e ∈ edits, e.start ≤ e.stop)
    (h : s.withEdits start stop edits = .ok text) :
    encode text = s.source.substituted start stop (Edit.applied start stop edits) := by
  -- the edits that are applied follow one another, whatever edits were given
  have hsuccessive : Edit.Successive start stop (Edit.applied start stop edits) :=
    Edit.successive_admitted fun e he => hedits e ((Edit.perm_inOrder edits).mem_iff.1 he)
  rw [withEdits] at h
  split at h
  · next text' htext =>
    obtain rfl := Except.ok.inj h
    rw [← Source.weaveBytes_eq_substituted hsuccessive]
    exact Source.encode_of_weave? htext
  · cases h

/-- Edits of a range are made at once, as far as they do not overlap. -/
structure Substitutes (s : Script) (start stop : Nat) (edits : List Edit) : Prop where
  /-- No two of the edits that are applied overlap. -/
  apart : (Edit.applied start stop edits).Pairwise Edit.Apart
  /-- All others of the list start within one of them. -/
  others : ∃ left, edits.Perm (Edit.applied start stop edits ++ left) ∧ ∀ e ∈ left,
    ∃ a ∈ Edit.applied start stop edits, a.start ≤ e.start ∧ e.start < a.stop
  /-- The text is the range with the applied edits made at once. -/
  result : ∃ text, s.withEdits start stop edits = .ok text ∧
    encode text = s.source.substituted start stop (Edit.applied start stop edits)
  /-- Edits of different ranges that do not overlap are all applied. -/
  complete : edits.Pairwise Edit.Separate → (Edit.applied start stop edits).Perm edits ∧
    ∃ text, s.withEdits start stop edits = .ok text ∧
      encode text = s.source.substituted start stop edits
  /-- The order in which they are listed does not matter. -/
  unordered : edits.Pairwise Edit.Separate →
    ∀ edits', edits'.Perm edits → s.withEdits start stop edits' = s.withEdits start stop edits

/-- **Splicing is simultaneous substitution**, for edits within a range with all offsets between
characters. -/
theorem substitutes_withEdits (hstart : s.source.IsBoundary start)
    (hstop : s.source.IsBoundary stop)
    (hwithin : ∀ e ∈ edits, start ≤ e.start ∧ e.start ≤ e.stop ∧ e.stop ≤ stop)
    (hedits : ∀ e ∈ edits, e.OnBoundaries s.source) : s.Substitutes start stop edits := by
  have hmem : ∀ {e}, e ∈ Edit.inOrder edits → e ∈ edits := (Edit.perm_inOrder edits).mem_iff.1
  have hsuccessive : Edit.Successive start stop (Edit.applied start stop edits) :=
    Edit.successive_admitted fun e he => (hwithin e (hmem he)).2.1
  obtain ⟨text, htext, -⟩ := exists_withEdits hstart hstop hedits
  have hbytes := encode_of_withEdits (fun e he => (hwithin e he).2.1) htext
  -- separate edits are all applied
  have hall (hseparate : edits.Pairwise Edit.Separate) :
      Edit.applied start stop edits = Edit.inOrder edits :=
    Edit.admitted_eq_self (Edit.successive_inOrder hwithin (hseparate.imp Edit.Separate.apart))
  constructor
  case apart => exact hsuccessive.apart
  case others =>
    obtain ⟨left, hperm, hleft⟩ := Edit.exists_left start (Edit.pairwise_inOrder edits)
      fun e he => (hwithin e (hmem he)).2.2
    refine ⟨left, (Edit.perm_inOrder edits).symm.trans hperm, fun e he => ?_⟩
    -- no edit of the range starts before it
    have hwithin := hwithin e (hmem (hperm.mem_iff.2 (List.mem_append_right _ he)))
    exact (hleft e he).resolve_left (by omega)
  case result => exact ⟨text, htext, hbytes⟩
  case complete =>
    intro hseparate
    have hperm := Edit.perm_inOrder edits
    rw [hall hseparate] at hbytes ⊢
    exact ⟨hperm, text, htext, hbytes.trans (Source.substituted_perm hperm hseparate)⟩
  case unordered =>
    intro hseparate edits' hperm
    rw [withEdits, withEdits, Source.withEdits?, Source.withEdits?, Edit.applied, Edit.applied,
      Edit.inOrder_perm hperm hseparate]

end Script

/-- A text with a character of two bytes. -/
def accented : Script where
  source := .ofText "aéb\nc"
  root := .empty

/-- Four edits of it, listed from the last to the first. Each of them meets the next. -/
def touchingEdits : List Edit :=
  [⟨4, 4, ">"⟩, ⟨3, 4, "X"⟩, ⟨1, 3, "e"⟩, ⟨1, 1, "<"⟩]

/-- All four are made. One more, which overlaps two of them, is left out. -/
theorem substitutes_touchingEdits :
    (∀ e ∈ ⟨3, 5, "Y"⟩ :: touchingEdits, 1 ≤ e.start ∧ e.start ≤ e.stop ∧ e.stop ≤ 5) ∧
    (∀ e ∈ ⟨3, 5, "Y"⟩ :: touchingEdits, accented.source.IsBoundary e.start ∧
      accented.source.IsBoundary e.stop) ∧
    touchingEdits.Pairwise Edit.Separate ∧ accented.Substitutes 1 5 touchingEdits ∧
    (accented.withEdits 1 5 touchingEdits).toOption = some "<eX>\n" ∧
    accented.Substitutes 1 5 (⟨3, 5, "Y"⟩ :: touchingEdits) ∧
    (accented.withEdits 1 5 (⟨3, 5, "Y"⟩ :: touchingEdits)).toOption = some "<eX>\n" := by
  have hwithin : ∀ e ∈ ⟨3, 5, "Y"⟩ :: touchingEdits, 1 ≤ e.start ∧ e.start ≤ e.stop ∧
      e.stop ≤ 5 := by decide
  have hbounds : ∀ e ∈ ⟨3, 5, "Y"⟩ :: touchingEdits,
      accented.source.IsBoundary e.start ∧ accented.source.IsBoundary e.stop := by decide +kernel
  have hstart : accented.source.IsBoundary 1 := by decide +kernel
  have hstop : accented.source.IsBoundary 5 := by decide +kernel
  have hsubstitutes : ∀ edits, edits.Sublist (⟨3, 5, "Y"⟩ :: touchingEdits) →
      accented.Substitutes 1 5 edits :=
    fun edits hsub => Script.substitutes_withEdits hstart hstop
      (fun e he => hwithin e (hsub.mem he))
      fun e he => ⟨(hbounds e (hsub.mem he)).1, (hbounds e (hsub.mem he)).2⟩
  exact ⟨hwithin, hbounds, by decide,
    hsubstitutes _ (List.sublist_cons_self _ _), by decide +kernel,
    hsubstitutes _ (.refl _), by decide +kernel⟩

end Disinherit
