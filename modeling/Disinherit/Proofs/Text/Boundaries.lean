import Disinherit.Proofs.Text.Lines
import Disinherit.Proofs.Text.Splice

/-!
# Character boundaries

Offsets count bytes, and a range of bytes spells a text only if it does not cut a character. An
offset is a boundary (`Source.IsBoundary`) if it lies between two characters or at an end of the
text; between two boundaries there is always a text (`exists_slice?`).

Some offsets are not handed over by the parser but computed from bytes: the start of a line, the end
of its blanks, a column within them. They are boundaries because a byte below 128 is a character of
its own, wherever it stands, and so there are boundaries on both sides of it
(`isBoundary_of_ascii`). A line starts after such a byte, and indentation consists of them.

Edits with both ends on boundaries can be applied to any text between boundaries
(`exists_withEdits?`), and a node is moved to another indentation by such edits
(`onBoundaries_of_mem_shiftEdits`). So nothing is cut when a node is rendered
(`Script.exists_render`).
-/

namespace Disinherit

open Text

namespace Text

/-- A byte that is a character of its own. -/
def IsAscii (b : UInt8) : Prop :=
  b &&& 0x80 = 0

instance (b : UInt8) : Decidable (IsAscii b) :=
  inferInstanceAs (Decidable (b &&& 0x80 = 0))

theorem isAscii_of_isIndentByte {b : UInt8} (h : isIndentByte b = true) : IsAscii b := by
  rcases Bool.or_eq_true_iff.1 h with h | h
  · obtain rfl := beq_iff_eq.1 h
    decide
  · obtain rfl := beq_iff_eq.1 h
    decide

/-- Decoding is the inverse of encoding. -/
theorem decode?_eq_some_iff {bytes : List UInt8} {t : String} :
    decode? bytes = some t ↔ encode t = bytes := by
  constructor
  · intro h
    unfold decode? String.fromUTF8? at h
    split at h
    · rw [← Option.some.inj h]
      simp [encode, String.fromUTF8]
    · cases h
  · rintro rfl
    exact decode?_encode t

end Text

namespace Source

variable {s : Source} {start stop offset : Nat}

/-- The offset lies between two characters, or at an end of the text. -/
def IsBoundary (s : Source) (offset : Nat) : Prop :=
  (⟨offset⟩ : String.Pos.Raw).IsValid s.text

instance (s : Source) (offset : Nat) : Decidable (s.IsBoundary offset) :=
  inferInstanceAs (Decidable (String.Pos.Raw.IsValid s.text ⟨offset⟩))

theorem isBoundary_zero (s : Source) : s.IsBoundary 0 :=
  String.Pos.Raw.isValid_zero

theorem size_eq (s : Source) : s.size = s.text.utf8ByteSize := by
  rw [size, s.bytes_eq]
  rfl

theorem isBoundary_size (s : Source) : s.IsBoundary s.size := by
  rw [size_eq]
  exact String.Pos.Raw.isValid_rawEndPos

theorem IsBoundary.le_size (h : s.IsBoundary offset) : offset ≤ s.size := by
  rw [size_eq]
  exact h.le_rawEndPos

theorem range_eq_extract (s : Source) (start stop : Nat) :
    s.range start stop = (s.text.toByteArray.extract start stop).data.toList := by
  rw [range, s.bytes_eq, encode, ByteArray.data_extract, Array.toList_extract]
  rfl

/-- Between two boundaries there is a text. -/
theorem exists_slice? (hstart : s.IsBoundary start) (hstop : s.IsBoundary stop) :
    ∃ t, s.slice? start stop = some t := by
  have hvalid : (s.text.toByteArray.extract start stop).IsValidUTF8 :=
    String.Pos.isValidUTF8_extract ⟨⟨start⟩, hstart⟩ ⟨⟨stop⟩, hstop⟩
  refine ⟨String.fromUTF8 _ hvalid, ?_⟩
  rw [slice?, range_eq_extract, decode?_eq_some_iff]
  rfl

/-! ### Bytes that are characters -/

/-- On both sides of a byte that is a character of its own there is a boundary. -/
theorem isBoundary_of_ascii {b : UInt8} (hb : s.bytes[offset]? = some b) (hascii : IsAscii b) :
    s.IsBoundary offset ∧ s.IsBoundary (offset + 1) := by
  rw [s.bytes_eq, encode, Array.getElem?_toList] at hb
  obtain ⟨hlt, hget⟩ := Array.getElem?_eq_some_iff.1 hb
  have hbefore : (⟨offset⟩ : String.Pos.Raw) < s.text.rawEndPos := hlt
  have hbyte : s.text.getUTF8Byte ⟨offset⟩ hbefore = b := hget
  have hvalid : s.IsBoundary offset :=
    String.Pos.Raw.isValid_iff_isUTF8FirstByte.2 (.inr ⟨hbefore, .inl (hbyte ▸ hascii)⟩)
  refine ⟨hvalid, ?_⟩
  -- the character at the boundary begins with the byte, and so it has no other bytes
  let pos : s.text.Pos := ⟨⟨offset⟩, hvalid⟩
  have hend : pos ≠ s.text.endPos := by
    intro heq
    have hoffset : offset = s.text.utf8ByteSize :=
      congrArg (fun p : s.text.Pos => p.offset.byteIdx) heq
    have : offset < s.text.utf8ByteSize := hlt
    omega
  have hfirst : pos.byte hend = b := by
    rw [← hbyte]
    simp [String.Pos.byte, String.Slice.Pos.byte, String.Slice.getUTF8Byte, pos]
  have hwidth : (pos.get hend).utf8Size = 1 := by
    rw [← String.Pos.utf8ByteSize_byte, UInt8.utf8ByteSize, hfirst]
    exact if_pos hascii
  have hnext : (pos.next hend).offset = ⟨offset + 1⟩ := by
    apply String.Pos.Raw.ext
    rw [String.Pos.byteIdx_offset_next, hwidth]
  show String.Pos.Raw.IsValid s.text ⟨offset + 1⟩
  rw [← hnext]
  exact (pos.next hend).isValid

/-- A line starts at a boundary. -/
theorem isBoundary_startOfLine (s : Source) (offset : Nat) :
    s.IsBoundary (s.startOfLine offset) := by
  rcases s.startOfLine_eq_zero_or offset with hzero | hfeed
  · rw [hzero]
    exact s.isBoundary_zero
  · rcases Nat.eq_zero_or_pos (s.startOfLine offset) with hzero | hpos
    · rw [hzero]
      exact s.isBoundary_zero
    · -- a line begins behind a line feed, which is a character of one byte
      have hafter := (isBoundary_of_ascii hfeed (by decide)).2
      rwa [Nat.sub_add_cancel hpos] at hafter

/-- Boundaries go on through indentation. Here `l` is what comes after `start`, as far as it is
looked at. -/
theorem isBoundary_of_indent {l : List UInt8}
    (hl : ∀ i b, l[i]? = some b → s.bytes[start + i]? = some b) (hstart : s.IsBoundary start)
    {n : Nat} (hn : n ≤ (l.takeWhile isIndentByte).length) : s.IsBoundary (start + n) := by
  cases n with
  | zero => exact hstart
  | succ n =>
    -- the last of the blanks is a character of one byte
    obtain ⟨b, hb, hindent⟩ := exists_getElem?_of_lt_takeWhile hn
    exact (isBoundary_of_ascii (hl n b hb) (isAscii_of_isIndentByte hindent)).2

end Source

/-! ### Edits -/

/-- Both ends of an edit are boundaries. -/
structure Edit.OnBoundaries (s : Source) (e : Edit) : Prop where
  start : s.IsBoundary e.start
  stop : s.IsBoundary e.stop

namespace Source

variable {s : Source} {start stop : Nat} {es : List Edit}

theorem exists_weave? (hstop : s.IsBoundary stop) (hes : ∀ e ∈ es, e.OnBoundaries s) {cursor : Nat}
    (hcursor : s.IsBoundary cursor) : ∃ t, s.weave? stop cursor es = some t := by
  induction es generalizing cursor with
  | nil => exact exists_slice? hcursor hstop
  | cons e es ih =>
    have he := hes e List.mem_cons_self
    -- from the cursor to the edit, and on from the end of the edit
    obtain ⟨kept, hkept⟩ := exists_slice? hcursor he.start
    obtain ⟨rest, hrest⟩ := ih (fun e' he' => hes e' (List.mem_cons_of_mem e he')) he.stop
    refine ⟨kept ++ e.text ++ rest, ?_⟩
    rw [weave?, hkept, hrest]
    rfl

theorem exists_withEdits? (hstart : s.IsBoundary start) (hstop : s.IsBoundary stop)
    (hes : ∀ e ∈ es, e.OnBoundaries s) : ∃ t, s.withEdits? start stop es = some t :=
  exists_weave? hstop (fun e he => hes e (Edit.mem_of_mem_applied he)) hstart

/-- The edit of a line has its ends on boundaries: it replaces the first part of the blanks. -/
theorem onBoundaries_lineEdit {lineBegin : Nat} (hbegin : s.IsBoundary lineBegin)
    (column stop : Nat) (indent : String) :
    (s.lineEdit column stop indent lineBegin).OnBoundaries s := by
  have hblanks : ∀ n, n ≤ s.indentWidth lineBegin stop → s.IsBoundary (lineBegin + n) := fun n hn =>
    isBoundary_of_indent (fun _ _ => getElem?_of_getElem?_range) hbegin hn
  unfold lineEdit
  dsimp only
  split
  · exact ⟨hbegin, hblanks _ (Nat.le_refl _)⟩
  · refine ⟨hbegin, ?_⟩
    rw [Nat.add_min_add_left]
    exact hblanks _ (Nat.min_le_left _ _)

end Source

namespace Script

variable {s : Script} {n : Node} {edits : List Edit}

theorem isBoundary_of_mem_startsOfLines {offset : Nat} (h : offset ∈ s.startsOfLines n) :
    s.source.IsBoundary offset := by
  obtain ⟨feed, hfeed, rfl⟩ := List.mem_map.1 h
  exact (Source.isBoundary_of_ascii (Source.mem_lineFeeds.1 hfeed).2.2 (by decide)).2

/-- The edits that move the lines of a node have their ends on boundaries. -/
theorem onBoundaries_of_mem_shiftEdits {indent : String} {e : Edit}
    (he : e ∈ s.shiftEdits n edits indent) : e.OnBoundaries s.source := by
  obtain ⟨offset, hoffset, rfl⟩ := List.mem_map.1 (List.mem_filter.1 he).1
  exact Source.onBoundaries_lineEdit (isBoundary_of_mem_startsOfLines (List.mem_filter.1 hoffset).1)
    _ _ _

/-- A node between boundaries, with edits on boundaries, can be rendered. -/
theorem exists_render (hstart : s.source.IsBoundary n.start) (hstop : s.source.IsBoundary n.stop)
    (hedits : ∀ e ∈ edits, e.OnBoundaries s.source) (indent : String) :
    ∃ t, s.render n edits indent = .ok t := by
  -- edits that move lines are on boundaries, whatever the others are
  have hall : ∀ e ∈ edits ++ s.shiftEdits n edits indent, e.OnBoundaries s.source := by
    intro e he
    rcases List.mem_append.1 he with he | he
    · exact hedits e he
    · exact onBoundaries_of_mem_shiftEdits he
  obtain ⟨t, ht⟩ := Source.exists_withEdits? hstart hstop hall
  refine ⟨t, ?_⟩
  rw [render, withEdits, ht]

theorem slice_eq_ok_iff {start stop : Nat} {text : String} :
    s.slice start stop = .ok text ↔ s.source.slice? start stop = some text := by
  unfold slice
  cases s.source.slice? start stop with
  | none =>
    constructor
    · intro h
      cases h
    · intro h
      cases h
  | some t =>
    constructor
    · intro h
      exact congrArg some (Except.ok.inj h)
    · intro h
      exact congrArg Except.ok (Option.some.inj h)

/-- What is read is the bytes of the range. -/
theorem encode_of_slice {start stop : Nat} {text : String} (h : s.slice start stop = .ok text) :
    encode text = s.source.range start stop :=
  decode?_eq_some_iff.1 (slice_eq_ok_iff.1 h)

theorem exists_slice {start stop : Nat} (hstart : s.source.IsBoundary start)
    (hstop : s.source.IsBoundary stop) : ∃ t, s.slice start stop = .ok t := by
  obtain ⟨t, ht⟩ := Source.exists_slice? hstart hstop
  exact ⟨t, slice_eq_ok_iff.2 ht⟩

end Script

end Disinherit
