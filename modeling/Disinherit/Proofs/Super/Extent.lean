import Disinherit.Proofs.Super.Removal

/-!
# The extent of a removed statement

How much is cut out with a statement depends on whether it stands alone: nothing but blanks is
before it on its line, and nothing but spaces and tabs between it and the end of the line
(`Source.StandsAlone`). Then its whole line is taken, with the line break. Otherwise only the spaces
and tabs after it are taken.

The statements about lines are made without the functions that scan for them. Where a line begins
and where a run of blanks ends is told by the bytes there (`Source.BeginsLine`,
`Source.EndsBlanks`), and each has one answer, which is the one that is found. A carriage return
ends a line only together with a line feed. One on its own is neither a space nor a tab, so that it
is never taken.

`Source.takesExtent_removalRange` puts this together with what was known of the cut, that it takes
nothing that shows.
-/

namespace Disinherit

namespace Source

/-- The line of an offset begins at `first`: after a line feed or at the start of the text, and no
line feed follows up to the offset. -/
structure BeginsLine (s : Source) (offset first : Nat) : Prop where
  le : first ≤ offset
  atBegin : first = 0 ∨ s.bytes[first - 1]? = some Text.lineFeed
  unbroken : ∀ q, first ≤ q → q < offset → s.bytes[q]? ≠ some Text.lineFeed

/-- The spaces and tabs from `stop` on end at `next`, where something else is or the text ends. -/
structure EndsBlanks (s : Source) (stop next : Nat) : Prop where
  le : stop ≤ next
  indent : ∀ q, stop ≤ q → q < next → ∃ b, s.bytes[q]? = some b ∧ Text.isIndentByte b = true
  ends : ∀ b, s.bytes[next]? = some b → Text.isIndentByte b = false

/-- The line of what stops before `next` ends there, and `after` is where the next line begins:
after a line feed, after a carriage return and a line feed, or nowhere, at the end of the text. -/
inductive BreaksLine (s : Source) (next : Nat) : Nat → Prop
  | lineFeed (feed : s.bytes[next]? = some Text.lineFeed) : BreaksLine s next (next + 1)
  | carriageReturn (ret : s.bytes[next]? = some Text.carriageReturn)
      (feed : s.bytes[next + 1]? = some Text.lineFeed) : BreaksLine s next (next + 2)
  | endOfText (atEnd : next = s.size) : BreaksLine s next s.size

/-- What stands from `start` to `stop` is alone on the line from `first` to `after`. -/
structure StandsAlone (s : Source) (start stop first after : Nat) : Prop where
  begins : s.BeginsLine start first
  blank : ∀ q, first ≤ q → q < start → ¬ s.ShowsAt q
  breaks : ∃ next, s.EndsBlanks stop next ∧ s.BreaksLine next after

/-- The range to cut out in order to remove what stands from `start` to `stop`. -/
structure TakesExtent (s : Source) (start stop : Nat) (cut : Nat × Nat) : Prop where
  contains : cut.1 ≤ start ∧ stop ≤ cut.2 ∧ cut.2 ≤ s.size
  /-- Nothing else that shows is cut out. -/
  blank : ∀ q, cut.1 ≤ q → q < cut.2 → q < start ∨ stop ≤ q → ¬ s.ShowsAt q
  /-- Beside what is removed there is at most one line feed in the range, the last byte. -/
  lastFeed : ∀ q, cut.1 ≤ q → q < cut.2 → q < start ∨ stop ≤ q → s.bytes[q]? = some Text.lineFeed →
    q + 1 = cut.2
  /-- What is alone on its line goes with the line. -/
  alone : ∀ first after, s.StandsAlone start stop first after → cut = (first, after)
  /-- Anything else goes with the spaces and tabs after it. -/
  beside : (¬ ∃ first after, s.StandsAlone start stop first after) → cut.1 = start ∧
    s.EndsBlanks stop cut.2

/-! ### Lines and runs of blanks -/

variable {s : Source} {start stop : Nat}

theorem beginsLine_startOfLine (s : Source) (offset : Nat) :
    s.BeginsLine offset (s.startOfLine offset) where
  le := s.startOfLine_le offset
  atBegin := s.startOfLine_eq_zero_or offset
  unbroken _ hfirst hq := s.getElem?_ne_lineFeed hfirst hq

/-- A line begins in one place. -/
theorem BeginsLine.unique {offset first first' : Nat} (h : s.BeginsLine offset first)
    (h' : s.BeginsLine offset first') : first = first' := by
  -- the later of the two would follow a line feed of the same line
  have hle : ∀ {a b : Nat}, s.BeginsLine offset a → s.BeginsLine offset b → b ≤ a := by
    intro a b ha hb
    by_contra hlt
    rcases hb.atBegin with hzero | hfeed
    · omega
    · have := hb.le
      exact ha.unbroken (b - 1) (by omega) (by omega) hfeed
  exact Nat.le_antisymm (hle h' h) (hle h h')

theorem endsBlanks_takeWhile (s : Source) (stop : Nat) :
    s.EndsBlanks stop (stop + ((s.bytes.drop stop).takeWhile Text.isIndentByte).length) where
  le := Nat.le_add_right _ _
  indent _ hstop hq := exists_isIndentByte hstop hq
  ends b hb := by
    rw [← List.getElem?_drop] at hb
    exact eq_false_of_getElem?_takeWhile hb

/-- A run of blanks ends in one place. -/
theorem EndsBlanks.unique {next next' : Nat} (h : s.EndsBlanks stop next)
    (h' : s.EndsBlanks stop next') : next = next' := by
  have hle : ∀ {a b : Nat}, s.EndsBlanks stop a → s.EndsBlanks stop b → b ≤ a := by
    intro a b ha hb
    by_contra hlt
    -- the earlier end would be a blank of the longer run
    obtain ⟨c, hc, hindent⟩ := hb.indent a ha.le (by omega)
    rw [ha.ends c hc] at hindent
    cases hindent
  exact Nat.le_antisymm (hle h' h) (hle h h')

theorem EndsBlanks.le_size {next : Nat} (h : s.EndsBlanks stop next) (hstop : stop ≤ s.size) :
    next ≤ s.size := by
  by_contra hlt
  obtain ⟨b, hb, -⟩ := h.indent (next - 1) (by omega) (by omega)
  have : next - 1 < s.size := (List.getElem?_eq_some_iff.1 hb).1
  omega

theorem BreaksLine.le_size {next after : Nat} (h : s.BreaksLine next after) : after ≤ s.size := by
  cases h with
  | lineFeed feed => exact (List.getElem?_eq_some_iff.1 feed).1
  | carriageReturn ret feed => exact (List.getElem?_eq_some_iff.1 feed).1
  | endOfText atEnd => exact Nat.le_refl _

theorem all_range_iff (s : Source) (start stop : Nat) :
    (s.range start stop).all Text.isBlankByte = true ↔
      ∀ q, start ≤ q → q < stop → ¬ s.ShowsAt q := by
  refine ⟨fun h q => not_showsAt_of_all h, fun h => List.all_eq_true.2 fun b hb => ?_⟩
  -- a byte that is no blank would show where it stands
  obtain ⟨i, hi⟩ := List.mem_iff_getElem?.1 hb
  obtain ⟨hlt, hbyte⟩ := getElem?_range_eq_some_iff.1 hi
  rw [← Bool.not_eq_false]
  exact fun hshows => h (start + i) (Nat.le_add_right _ _) hlt ⟨b, hbyte, hshows⟩

/-! ### The two cases of the cut -/

/-- The cut is decided by what is before the statement and by the two bytes after the blanks. -/
theorem removalRange_eq {next : Nat} (hnext : s.EndsBlanks stop next) : s.removalRange start stop =
    if (s.range (s.startOfLine start) start).all Text.isBlankByte = false then (start, next)
    else if s.bytes[next]? = none then (s.startOfLine start, s.size)
    else if s.bytes[next]? = some Text.lineFeed then (s.startOfLine start, next + 1)
    else if s.bytes[next]? = some Text.carriageReturn ∧ s.bytes[next + 1]? = some Text.lineFeed then
      (s.startOfLine start, next + 2)
    else (start, next) := by
  obtain rfl := hnext.unique (s.endsBlanks_takeWhile stop)
  unfold removalRange
  simp only
  -- from here on it does not matter how the end of the blanks is found
  generalize stop + ((s.bytes.drop stop).takeWhile Text.isIndentByte).length = next
  have hbyte : ∀ i, s.bytes[next + i]? = (s.bytes.drop next)[i]? := fun i => List.getElem?_drop.symm
  have hfirst := hbyte 0
  have hsecond := hbyte 1
  rw [Nat.add_zero] at hfirst
  rw [hfirst, hsecond]
  cases (s.range (s.startOfLine start) start).all Text.isBlankByte with
  | false => cases s.bytes.drop next <;> rfl
  | true =>
    cases s.bytes.drop next with
    | nil => rfl
    | cons b rest => simp [List.head?_eq_getElem?]

/-- What is alone on its line is cut out with the line. -/
theorem removalRange_of_standsAlone {first after : Nat} (h : s.StandsAlone start stop first after) :
    s.removalRange start stop = (first, after) := by
  obtain ⟨next, hnext, hbreaks⟩ := h.breaks
  obtain rfl := h.begins.unique (s.beginsLine_startOfLine start)
  have hblank := (s.all_range_iff _ start).2 h.blank
  rw [removalRange_eq hnext, if_neg (by simp [hblank])]
  -- each way for a line to end is one branch
  cases hbreaks with
  | lineFeed feed => rw [feed, if_neg nofun, if_pos rfl]
  | carriageReturn ret feed => rw [ret, feed, if_neg nofun, if_neg (by decide), if_pos ⟨rfl, rfl⟩]
  | endOfText atEnd => rw [if_pos (List.getElem?_eq_none (Nat.le_of_eq atEnd.symm))]

/-- What is not is cut out with the blanks after it. -/
theorem removalRange_of_not_standsAlone {next : Nat} (hstop : stop ≤ s.size)
    (hnext : s.EndsBlanks stop next) (h : ¬ ∃ first after, s.StandsAlone start stop first after) :
    s.removalRange start stop = (start, next) := by
  rw [removalRange_eq hnext]
  cases hblank : (s.range (s.startOfLine start) start).all Text.isBlankByte with
  | false => rfl
  | true =>
    -- the line is blank up to the start, and so it must go on behind the blanks
    have hbreaks : ∀ after, ¬ s.BreaksLine next after := fun after hafter =>
      h ⟨_, after, s.beginsLine_startOfLine start, (s.all_range_iff _ start).1 hblank, next,
        hnext, hafter⟩
    rw [if_neg nofun, if_neg, if_neg, if_neg]
    · exact fun hreturn => hbreaks _ (.carriageReturn hreturn.1 hreturn.2)
    · exact fun hfeed => hbreaks _ (.lineFeed hfeed)
    · exact fun hend => hbreaks _
        (.endOfText (Nat.le_antisymm (hnext.le_size hstop) (List.getElem?_eq_none_iff.1 hend)))

/-- Either way the cut ends in the text, and begins on the line of the statement. -/
theorem removalRange_sides (start : Nat) (hstop : stop ≤ s.size) :
    (s.removalRange start stop).2 ≤ s.size ∧
    ∀ q, (s.removalRange start stop).1 ≤ q → q < start → s.bytes[q]? ≠ some Text.lineFeed := by
  have hnext := s.endsBlanks_takeWhile stop
  by_cases h : ∃ first after, s.StandsAlone start stop first after
  · obtain ⟨first, after, h⟩ := h
    obtain ⟨next, -, hbreaks⟩ := h.breaks
    rw [removalRange_of_standsAlone h]
    exact ⟨hbreaks.le_size, h.begins.unbroken⟩
  · -- the cut begins at the start itself
    rw [removalRange_of_not_standsAlone hstop hnext h]
    exact ⟨hnext.le_size hstop, fun q hstart hq => absurd hq (Nat.not_lt.2 hstart)⟩

/-- **A removed statement takes its line with it if it is alone there**, and else the blanks after
it. -/
theorem takesExtent_removalRange (start : Nat) (hstop : stop ≤ s.size) :
    s.TakesExtent start stop (s.removalRange start stop) := by
  have hremoves := s.removes_removalRange start stop
  obtain ⟨hsize, hline⟩ := removalRange_sides start hstop
  have hcontains := hremoves.le_stop
  rw [Nat.min_eq_left hstop] at hcontains
  exact
    { contains := ⟨hremoves.start_le, hcontains, hsize⟩
      blank := by
        rintro q hfirst hlast (hbefore | hafter)
        · exact hremoves.blankBefore q hfirst hbefore
        · exact hremoves.blankAfter q hafter hlast
      lastFeed := by
        rintro q hfirst hlast (hbefore | hafter) hfeed
        · exact absurd hfeed (hline q hfirst hbefore)
        · -- a line feed within the cut is the last byte of it
          by_contra hne
          exact hremoves.lineEnd q hafter (by omega) hfeed
      alone := fun first after h => removalRange_of_standsAlone h
      beside := by
        intro h
        have hnext := s.endsBlanks_takeWhile stop
        rw [removalRange_of_not_standsAlone hstop hnext h]
        exact ⟨rfl, hnext⟩ }

/-- A method with a call on a line of its own, and another between two statements. -/
def callsOnLines : Source :=
  .ofText "m()\x7b\r\n\tsuper() \r\nx;super();\ty\x7d"

/-- The first call is removed with its line and the two bytes at its end, the second with the tab
after it. -/
theorem takesExtent_callsOnLines :
    14 ≤ callsOnLines.size ∧ callsOnLines.removalRange 7 14 = (6, 17) ∧
    callsOnLines.TakesExtent 7 14 (6, 17) ∧
    27 ≤ callsOnLines.size ∧ callsOnLines.removalRange 19 27 = (19, 28) ∧
    callsOnLines.TakesExtent 19 27 (19, 28) := by
  have hfirst : 14 ≤ callsOnLines.size := by decide +kernel
  have hsecond : 27 ≤ callsOnLines.size := by decide +kernel
  have halone : callsOnLines.removalRange 7 14 = (6, 17) := by decide +kernel
  have hbeside : callsOnLines.removalRange 19 27 = (19, 28) := by decide +kernel
  exact ⟨hfirst, halone, halone ▸ takesExtent_removalRange 7 hfirst,
    hsecond, hbeside, hbeside ▸ takesExtent_removalRange 19 hsecond⟩

end Source

end Disinherit
