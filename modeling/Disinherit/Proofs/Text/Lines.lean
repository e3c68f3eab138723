import Disinherit.Proofs.Lists
import Disinherit.Text.Blank
import Disinherit.Text.Source

/-!
# Lines and blanks of a source

The start of the line of an offset is the last place before it that follows a line feed, if there is
any (`Source.startOfLine_eq_zero_or`). Offsets with as many line feeds before them share the start
of their line (`Source.startOfLine_eq`), and so line and column together tell the offset
(`Source.position_injective`).

The line feeds of a range are listed in the order of the text (`Source.mem_lineFeeds`,
`Source.pairwise_lineFeeds`). A byte shows if it is no blank (`Source.ShowsAt`).
-/

namespace Disinherit

namespace Source

/-! ### Bytes that show -/

/-- The byte at an offset exists and is no blank. -/
def ShowsAt (s : Source) (offset : Nat) : Prop :=
  ∃ b, s.bytes[offset]? = some b ∧ Text.isBlankByte b = false

instance (s : Source) (offset : Nat) : Decidable (s.ShowsAt offset) :=
  decidable_of_iff (∃ b ∈ s.bytes[offset]?, Text.isBlankByte b = false) Iff.rfl

theorem ShowsAt.lt_size {s : Source} {offset : Nat} (h : s.ShowsAt offset) : offset < s.size := by
  obtain ⟨b, hb, -⟩ := h
  exact (List.getElem?_eq_some_iff.1 hb).1

theorem not_showsAt_of_eq {s : Source} {offset : Nat} {b : UInt8}
    (hbyte : s.bytes[offset]? = some b) (hblank : Text.isBlankByte b = true) :
    ¬ s.ShowsAt offset := by
  rintro ⟨b', hb', hshows⟩
  obtain rfl := Option.some.inj (hbyte.symm.trans hb')
  rw [hblank] at hshows
  cases hshows

/-! ### Line feeds -/

section LineFeeds

variable {s : Source} {start stop : Nat}

theorem getElem?_range_eq_some_iff {i : Nat} {b : UInt8} :
    (s.range start stop)[i]? = some b ↔ start + i < stop ∧ s.bytes[start + i]? = some b := by
  rw [range, List.getElem?_take, List.getElem?_drop]
  split
  · next hlt =>
    rw [and_iff_right (show start + i < stop by omega)]
  · next hge =>
    refine iff_of_false (fun h => by cases h) fun h => ?_
    omega

theorem getElem?_of_getElem?_range {i : Nat} {b : UInt8} (h : (s.range start stop)[i]? = some b) :
    s.bytes[start + i]? = some b :=
  (getElem?_range_eq_some_iff.1 h).2

/-- The line feeds of a range are those bytes of it. -/
theorem mem_lineFeeds {q : Nat} :
    q ∈ s.lineFeeds start stop ↔ start ≤ q ∧ q < stop ∧ s.bytes[q]? = some Text.lineFeed := by
  unfold lineFeeds
  rw [List.mem_filterMap]
  constructor
  · rintro ⟨⟨b, i⟩, hmem, hb⟩
    -- indices count from `start`, so that they are offsets of the source
    obtain ⟨hle, hget⟩ := List.mem_zipIdx_iff_le_and_getElem?_sub.1 hmem
    dsimp only at hle hget hb
    split at hb
    · next hfeed =>
      obtain rfl := Option.some.inj hb
      obtain rfl := beq_iff_eq.1 hfeed
      obtain ⟨hlt, hbyte⟩ := getElem?_range_eq_some_iff.1 hget
      rw [Nat.add_sub_cancel' hle] at hlt hbyte
      exact ⟨hle, hlt, hbyte⟩
    · cases hb
  · rintro ⟨hle, hlt, hbyte⟩
    refine ⟨(Text.lineFeed, q), List.mem_zipIdx_iff_le_and_getElem?_sub.2 ⟨hle, ?_⟩, rfl⟩
    rw [getElem?_range_eq_some_iff]
    dsimp only
    rw [Nat.add_sub_cancel' hle]
    exact ⟨hlt, hbyte⟩

/-- They are listed in the order of the text. -/
theorem pairwise_lineFeeds (s : Source) (start stop : Nat) :
    (s.lineFeeds start stop).Pairwise (· < ·) := by
  -- the indices increase, and some of them are picked
  have hindices : ((s.range start stop).zipIdx start).Pairwise fun a b => a.2 < b.2 := by
    have hrange : (((s.range start stop).zipIdx start).map Prod.snd).Pairwise (· < ·) := by
      rw [List.zipIdx_map_snd]
      exact List.pairwise_lt_range'
    exact List.pairwise_map.1 hrange
  refine List.pairwise_filterMap.2 (hindices.imp fun {x y} hlt a ha b hb => ?_)
  obtain ⟨-, rfl⟩ : (x.1 == Text.lineFeed) = true ∧ x.2 = a := by simpa using ha
  obtain ⟨-, rfl⟩ : (y.1 == Text.lineFeed) = true ∧ y.2 = b := by simpa using hb
  exact hlt

end LineFeeds

/-! ### Lines and columns -/

variable (s : Source)

theorem startOfLine_le (offset : Nat) : s.startOfLine offset ≤ offset := by
  have := List.length_take_le offset s.bytes
  unfold startOfLine
  simp only
  omega

/-- A line begins at the start of the text or after a line feed. -/
theorem startOfLine_eq_zero_or (offset : Nat) :
    s.startOfLine offset = 0 ∨ s.bytes[s.startOfLine offset - 1]? = some Text.lineFeed := by
  have hpassed := (List.takeWhile_sublist (· != Text.lineFeed)
    (l := (s.bytes.take offset).reverse)).length_le
  have hnext : ∀ b, (s.bytes.take offset).reverse[((s.bytes.take offset).reverse.takeWhile
      (· != Text.lineFeed)).length]? = some b → (b != Text.lineFeed) = false :=
    fun _ => eq_false_of_getElem?_takeWhile
  unfold startOfLine
  simp only
  generalize ((s.bytes.take offset).reverse.takeWhile (· != Text.lineFeed)).length = passed
    at hpassed hnext ⊢
  rw [List.length_reverse] at hpassed
  rcases Nat.eq_or_lt_of_le hpassed with hall | hlt
  · left
    -- the walk backwards came to the beginning
    omega
  · -- the walk backwards stopped at a byte, which is the line feed
    right
    rw [List.getElem?_reverse hlt, Nat.sub_right_comm] at hnext
    have hlength := List.length_take_le offset s.bytes
    have hget : s.bytes[(s.bytes.take offset).length - passed - 1]?
        = (s.bytes.take offset)[(s.bytes.take offset).length - passed - 1]? :=
      (List.getElem?_take_of_lt (by omega)).symm
    have hindex : (s.bytes.take offset).length - passed - 1 < (s.bytes.take offset).length := by
      omega
    rw [List.getElem?_eq_getElem hindex] at hnext
    rw [hget, List.getElem?_eq_getElem hindex]
    simpa using hnext _ rfl

/-- There is no line feed between the start of a line and an offset on it. -/
theorem getElem?_ne_lineFeed {offset q : Nat} (hstart : s.startOfLine offset ≤ q)
    (hq : q < offset) : s.bytes[q]? ≠ some Text.lineFeed := by
  intro hfeed
  have hbefore : (s.bytes.take offset)[q]? = some Text.lineFeed := by
    rw [List.getElem?_take_of_lt hq, hfeed]
  have hlength : q < (s.bytes.take offset).length := (List.getElem?_eq_some_iff.1 hbefore).1
  -- the walk backwards has passed the byte
  have hpassed : (s.bytes.take offset).length - 1 - q
      < ((s.bytes.take offset).reverse.takeWhile (· != Text.lineFeed)).length := by
    unfold startOfLine at hstart
    simp only at hstart
    omega
  obtain ⟨b, hb, hne⟩ := exists_getElem?_of_lt_takeWhile hpassed
  rw [List.getElem?_reverse (by omega), Nat.sub_sub_self (by omega), hbefore] at hb
  obtain rfl := Option.some.inj hb
  exact absurd hne (by decide)

/-- Offsets on one line have the same start of their line. -/
theorem startOfLine_eq {a b : Nat} (hle : a ≤ b) (hrow : s.row a = s.row b) :
    s.startOfLine a = s.startOfLine b := by
  obtain ⟨mid, hmid⟩ : ∃ mid, s.bytes.take b = s.bytes.take a ++ mid :=
    (List.take_prefix_take_left hle).imp fun _ h => h.symm
  -- between the two offsets there is no line feed
  have hcount : mid.count Text.lineFeed = 0 := by
    rw [row, row, hmid, List.count_append] at hrow
    omega
  have hpass : ∀ x ∈ mid.reverse, (x != Text.lineFeed) = true := by
    intro x hx
    rw [bne_iff_ne]
    rintro rfl
    exact List.count_eq_zero.1 hcount (List.mem_reverse.1 hx)
  unfold startOfLine
  simp only
  -- the walk back from `b` passes over what is between and goes on from `a`
  rw [hmid, List.reverse_append, List.takeWhile_append_of_pos hpass]
  simp only [List.length_append, List.length_reverse]
  omega

/-- Line and column tell the offset. -/
theorem position_injective {a b : Nat} (h : s.position a = s.position b) : a = b := by
  have hrow : s.row a = s.row b := Nat.succ.inj (congrArg Position.line h)
  have hcolumn : s.column a = s.column b := congrArg Position.column h
  -- in the same row the line starts in the same place, and the column counts from there
  have hstart : s.startOfLine a = s.startOfLine b := by
    rcases Nat.le_total a b with hle | hle
    · exact s.startOfLine_eq hle hrow
    · exact (s.startOfLine_eq hle hrow.symm).symm
  have ha := s.startOfLine_le a
  have hb := s.startOfLine_le b
  unfold column at hcolumn
  omega

end Source

end Disinherit
