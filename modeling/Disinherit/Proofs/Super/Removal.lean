import Disinherit.Proofs.Text.Lines
import Disinherit.Super.Constructors

/-!
# The range of a removed statement

`Source.removalRange` cuts out a statement together with its line or with the blanks after it.
`Source.Removes` says what such a cut can take: besides the statement only blanks, on the left
nothing before the line of the statement, and on the right nothing after the line feed.

So a cut stops at every byte that shows (`Removes.lt_start`, `Removes.stop_le`). In particular the
cuts of two statements, one after the other, do not meet, although both may grow towards each other
(`Removes.stop_le_start`).
-/

namespace Disinherit

namespace Source

/-- A range that may be cut out in order to remove what stands from `start` to `stop`. -/
structure Removes (s : Source) (start stop : Nat) (cut : Nat × Nat) : Prop where
  start_le : cut.1 ≤ start
  le_stop : min stop s.size ≤ cut.2
  blankBefore : ∀ q, cut.1 ≤ q → q < start → ¬ s.ShowsAt q
  blankAfter : ∀ q, stop ≤ q → q < cut.2 → ¬ s.ShowsAt q
  /-- On the left at most the rest of the line is taken. -/
  lineBegin : cut.1 = start ∨ cut.1 = 0 ∨ s.bytes[cut.1 - 1]? = some Text.lineFeed
  /-- On the right a line feed can only come last. -/
  lineEnd : ∀ q, stop ≤ q → q + 1 < cut.2 → s.bytes[q]? ≠ some Text.lineFeed

/-! ### What is cut out -/

variable {s : Source} {start stop : Nat}

theorem blank_of_isIndentByte {b : UInt8} (h : Text.isIndentByte b = true) :
    Text.isBlankByte b = true ∧ b ≠ Text.lineFeed := by
  rcases Bool.or_eq_true_iff.1 h with h | h
  · obtain rfl := beq_iff_eq.1 h
    decide
  · obtain rfl := beq_iff_eq.1 h
    decide

/-- The spaces and tabs after an offset. -/
theorem exists_isIndentByte {q : Nat} (hstop : stop ≤ q)
    (hq : q < stop + ((s.bytes.drop stop).takeWhile Text.isIndentByte).length) :
    ∃ b, s.bytes[q]? = some b ∧ Text.isIndentByte b = true := by
  have hlt : q - stop < ((s.bytes.drop stop).takeWhile Text.isIndentByte).length := by omega
  obtain ⟨b, hb, hindent⟩ := exists_getElem?_of_lt_takeWhile hlt
  rw [List.getElem?_drop, Nat.add_sub_cancel' hstop] at hb
  exact ⟨b, hb, hindent⟩

theorem getElem?_of_lt_indent {q : Nat} (hstop : stop ≤ q)
    (hq : q < stop + ((s.bytes.drop stop).takeWhile Text.isIndentByte).length) :
    ∃ b, s.bytes[q]? = some b ∧ Text.isBlankByte b = true ∧ b ≠ Text.lineFeed :=
  (exists_isIndentByte hstop hq).imp fun _ h => ⟨h.1, blank_of_isIndentByte h.2⟩

theorem not_showsAt_of_all {q : Nat} (h : (s.range start stop).all Text.isBlankByte = true)
    (hstart : start ≤ q) (hstop : q < stop) : ¬ s.ShowsAt q := by
  rintro ⟨b, hb, hshows⟩
  have hmem : b ∈ s.range start stop := by
    refine List.mem_iff_getElem?.2 ⟨q - start, ?_⟩
    rw [range, List.getElem?_take_of_lt (by omega), List.getElem?_drop, Nat.add_sub_cancel' hstart]
    exact hb
  rw [List.all_eq_true.1 h b hmem] at hshows
  cases hshows

/-- With the blanks after it a statement is cut out from its start. -/
theorem removes_indent (s : Source) (start stop : Nat) :
    s.Removes start stop
      (start, stop + ((s.bytes.drop stop).takeWhile Text.isIndentByte).length) where
  start_le := Nat.le_refl _
  le_stop := by
    show min stop s.size ≤ stop + _
    omega
  blankBefore q hstart hq := by omega
  blankAfter q hstop hq := by
    obtain ⟨b, hb, hblank, -⟩ := getElem?_of_lt_indent hstop hq
    exact not_showsAt_of_eq hb hblank
  lineBegin := .inl rfl
  lineEnd q hstop hq := by
    obtain ⟨b, hb, -, hne⟩ := getElem?_of_lt_indent (s := s) hstop (by omega)
    rw [hb]
    exact fun h => hne (Option.some.inj h)

/-- A statement that is alone on its line is cut out with the line, given what comes after the
blanks. -/
theorem removes_line (hblank : (s.range (s.startOfLine start) start).all Text.isBlankByte = true)
    {cut : Nat} (hcut : min stop s.size ≤ cut)
    (hend : ∀ q b, stop + ((s.bytes.drop stop).takeWhile Text.isIndentByte).length ≤ q → q < cut →
      s.bytes[q]? = some b → Text.isBlankByte b = true ∧ (q + 1 < cut → b ≠ Text.lineFeed)) :
    s.Removes start stop (s.startOfLine start, cut) where
  start_le := s.startOfLine_le start
  le_stop := hcut
  blankBefore q hstart hq := not_showsAt_of_all hblank hstart hq
  blankAfter q hstop hq := by
    rintro ⟨b, hb, hshows⟩
    -- first the blanks of the line, and then what ends it
    rcases Nat.lt_or_ge q (stop + ((s.bytes.drop stop).takeWhile Text.isIndentByte).length) with
      hlt | hge
    · obtain ⟨b', hb', hblank', -⟩ := getElem?_of_lt_indent hstop hlt
      exact not_showsAt_of_eq hb' hblank' ⟨b, hb, hshows⟩
    · exact not_showsAt_of_eq hb (hend q b hge hq hb).1 ⟨b, hb, hshows⟩
  lineBegin := .inr (s.startOfLine_eq_zero_or start)
  lineEnd q hstop hq := by
    intro hfeed
    rcases Nat.lt_or_ge q (stop + ((s.bytes.drop stop).takeWhile Text.isIndentByte).length) with
      hlt | hge
    · obtain ⟨b, hb, -, hne⟩ := getElem?_of_lt_indent hstop hlt
      exact hne (Option.some.inj (hb.symm.trans hfeed))
    · exact (hend q _ hge (by omega) hfeed).2 hq rfl

/-- **The range of a removed statement** takes nothing else but blanks of its line. -/
theorem removes_removalRange (s : Source) (start stop : Nat) :
    s.Removes start stop (s.removalRange start stop) := by
  have hindent := removes_indent s start stop
  unfold removalRange
  simp only
  split
  · next hdrop =>
    -- nothing follows the blanks
    split
    · next hblank =>
      refine removes_line hblank (Nat.min_le_right _ _) fun q b hge hq hb => ?_
      have := List.drop_eq_nil_iff.1 hdrop
      have : q < s.bytes.length := hq
      omega
    · exact hindent
  · next b rest hdrop =>
    have hnext : ∀ i, s.bytes[stop + ((s.bytes.drop stop).takeWhile Text.isIndentByte).length + i]?
        = (b :: rest)[i]? := by
      intro i
      rw [← List.getElem?_drop, hdrop]
    split
    · -- the line ends with a line feed alone
      next hfeed =>
      obtain ⟨hblank, hfeed⟩ := Bool.and_eq_true_iff.1 hfeed
      obtain rfl := beq_iff_eq.1 hfeed
      refine removes_line hblank (by omega) fun q b' hge hq hb => ?_
      obtain rfl : q = stop + ((s.bytes.drop stop).takeWhile Text.isIndentByte).length + 0 := by
        omega
      obtain rfl := Option.some.inj ((hnext 0).symm.trans hb)
      exact ⟨by decide, fun hlt => by omega⟩
    · split
      · next hbreak =>
        obtain ⟨hreturn, hfeed⟩ := Bool.and_eq_true_iff.1 hbreak
        obtain ⟨hblank, hreturn⟩ := Bool.and_eq_true_iff.1 hreturn
        obtain rfl := beq_iff_eq.1 hreturn
        refine removes_line hblank (by omega) fun q b' hge hq hb => ?_
        -- the two bytes of the line break
        rcases Nat.lt_or_ge q (stop + ((s.bytes.drop stop).takeWhile Text.isIndentByte).length + 1)
          with hlt | hge'
        · obtain rfl : q = stop + ((s.bytes.drop stop).takeWhile Text.isIndentByte).length + 0 := by
            omega
          obtain rfl := Option.some.inj ((hnext 0).symm.trans hb)
          exact ⟨by decide, fun _ => by decide⟩
        · obtain rfl : q = stop + ((s.bytes.drop stop).takeWhile Text.isIndentByte).length + 1 := by
            omega
          rw [hnext 1, List.getElem?_cons_succ, ← List.head?_eq_getElem?, beq_iff_eq.1 hfeed] at hb
          obtain rfl := Option.some.inj hb
          exact ⟨by decide, fun hlt => by omega⟩
      · exact hindent

/-! ### Where a cut stops -/

namespace Removes

variable {cut cut' : Nat × Nat} {start' stop' q : Nat}

/-- What shows before the statement is left of the cut. -/
theorem lt_start (h : s.Removes start stop cut) (hshows : s.ShowsAt q) (hq : q < start) :
    q < cut.1 := by
  by_contra hge
  exact h.blankBefore q (by omega) hq hshows

/-- What shows after the statement is right of the cut. -/
theorem stop_le (h : s.Removes start stop cut) (hshows : s.ShowsAt q) (hq : stop ≤ q) :
    cut.2 ≤ q := by
  by_contra hlt
  exact h.blankAfter q hq (by omega) hshows

/-- The place of a cut tells where the statement starts. -/
theorem start_eq (h : s.Removes start stop cut) (h' : s.Removes start' stop' cut)
    (hfirst : s.ShowsAt start) (hfirst' : s.ShowsAt start') : start = start' := by
  rcases Nat.lt_trichotomy start start' with hlt | heq | hlt
  · -- a cut does not go back over something that shows
    have := h'.lt_start hfirst hlt
    have := h.start_le
    omega
  · exact heq
  · have := h.lt_start hfirst' hlt
    have := h'.start_le
    omega

/-- The cuts of two statements, one after the other, do not meet. -/
theorem stop_le_start (h : s.Removes start stop cut) (h' : s.Removes start' stop' cut')
    (hlast : s.ShowsAt (stop - 1)) (hpos : start < stop) (hfirst : s.ShowsAt start')
    (hle : stop ≤ start') : cut.2 ≤ cut'.1 := by
  -- the second cut does not reach into the first statement
  have hleft : stop ≤ cut'.1 := by
    have := h'.lt_start hlast (by omega)
    omega
  by_contra hlt
  rcases h'.lineBegin with hbegin | hzero | hfeed
  · have := h.stop_le hfirst hle
    omega
  · omega
  · -- the line feed before the second cut would stand within the first, or end the statement
    rcases Nat.lt_or_ge (cut'.1 - 1) stop with hin | hout
    · obtain ⟨b, hb, hshows⟩ := hlast
      rw [show stop - 1 = cut'.1 - 1 by omega, hfeed] at hb
      obtain rfl := Option.some.inj hb
      exact absurd hshows (by decide)
    · exact h.lineEnd _ hout (by omega) hfeed

end Removes

end Source

end Disinherit
