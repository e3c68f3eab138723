import Disinherit.Text.Source
import Mathlib.Tactic.Common

/-!
# Lines

A text is cut behind every line feed (`Text.lines`). The lines make up the text again
(`flatten_lines`), and lines of the right form are the lines of what they make up
(`Lined.lines_flatten`). So a text that is written line by line can be read line by line.

A line is moved by exchanging the blanks that begin it, up to some column, for an indentation,
unless nothing but blanks comes before the line break: then they are all dropped (`movedLine`). It
is left as it is if it is `Settled`. Both notions speak about one line alone, and a moved line is
still one line (`exists_movedLine_append`).
-/

namespace Disinherit.Text

/-! ### The lines of a text -/

/-- The lines of a text, each with the line feed that ends it. The last one has none. -/
def lines : List UInt8 → List (List UInt8)
  | [] => [[]]
  | b :: bs => if b = lineFeed then [b] :: lines bs else (lines bs).modifyHead (b :: ·)

/-- Lines as a text has them: a line feed ends each line but the last, and there are no others. -/
inductive Lined : List (List UInt8) → Prop where
  | last {l : List UInt8} : lineFeed ∉ l → Lined [l]
  | next {l : List UInt8} {ls : List (List UInt8)} : lineFeed ∉ l → Lined ls →
    Lined ((l ++ [lineFeed]) :: ls)

section Lines

variable {l : List UInt8} {ls : List (List UInt8)}

theorem notMem_cons {b : UInt8} (hb : b ≠ lineFeed) (hl : lineFeed ∉ l) : lineFeed ∉ b :: l :=
  fun h => (List.mem_cons.1 h).elim hb.symm hl

theorem lines_of_notMem (h : lineFeed ∉ l) : lines l = [l] := by
  induction l with
  | nil => rfl
  | cons b l ih =>
    obtain ⟨hb, hl⟩ := not_or.1 (mt List.mem_cons.2 h)
    rw [lines, if_neg (Ne.symm hb), ih hl]
    rfl

/-- A line feed ends the first line. -/
theorem lines_append (h : lineFeed ∉ l) (bs : List UInt8) :
    lines (l ++ lineFeed :: bs) = (l ++ [lineFeed]) :: lines bs := by
  induction l with
  | nil => exact if_pos rfl
  | cons b l ih =>
    obtain ⟨hb, hl⟩ := not_or.1 (mt List.mem_cons.2 h)
    rw [List.cons_append, lines, if_neg (Ne.symm hb), ih hl]
    rfl

theorem Lined.modifyHead {b : UInt8} (hb : b ≠ lineFeed) (h : Lined ls) :
    Lined (ls.modifyHead (b :: ·)) := by
  cases h with
  | last hl => exact .last (notMem_cons hb hl)
  | @next l ls hl h => exact .next (l := b :: l) (notMem_cons hb hl) h

theorem lined_lines (bs : List UInt8) : Lined (lines bs) := by
  induction bs with
  | nil => exact .last List.not_mem_nil
  | cons b bs ih =>
    rw [lines]
    split
    · next hb =>
      subst hb
      exact .next (l := []) List.not_mem_nil ih
    · next hb => exact ih.modifyHead hb

/-- The lines are the lines of what they make up. -/
theorem Lined.lines_flatten (h : Lined ls) : lines ls.flatten = ls := by
  induction h with
  | last hl => rw [List.flatten_singleton, lines_of_notMem hl]
  | next hl _ ih => rw [List.flatten_cons, List.append_assoc, List.singleton_append,
    lines_append hl, ih]

/-- The lines of a text make it up. -/
theorem flatten_lines (bs : List UInt8) : (lines bs).flatten = bs := by
  induction bs with
  | nil => rfl
  | cons b bs ih =>
    rw [lines]
    split
    · rw [List.flatten_cons, ih]
      rfl
    · -- the byte goes to the first line, and there always is one
      cases hlines : lines bs with
      | nil => exact absurd (lined_lines bs) (hlines ▸ nofun)
      | cons l ls =>
        rw [hlines] at ih
        rw [List.modifyHead_cons, List.flatten_cons, List.cons_append, ← ih, List.flatten_cons]

theorem Lined.ne_nil (h : Lined ls) : ls ≠ [] := by
  cases h with
  | last => exact List.cons_ne_nil _ _
  | next => exact List.cons_ne_nil _ _

/-- Texts with the same lines are equal. -/
theorem lines_inj {bs bs' : List UInt8} : lines bs = lines bs' ↔ bs = bs' := by
  constructor
  · intro h
    rw [← flatten_lines bs, h, flatten_lines]
  · intro h
    rw [h]

end Lines

/-! ### Blanks at the beginning of a line -/

/-- The byte ends a line, or begins what does. -/
def isLineBreak (b : UInt8) : Bool :=
  b == lineFeed || b == carriageReturn

/-- The number of blanks with which a line begins. -/
def indentOf (line : List UInt8) : Nat :=
  (line.takeWhile isIndentByte).length

/-- Only blanks come before the line break. -/
def isBlankLine (l : List UInt8) : Bool :=
  l[indentOf l]?.any isLineBreak

/-- A line moved from a column to an indentation. A line of blanks loses them all. Of any other the
blanks up to the column are exchanged. -/
def movedLine (column : Nat) (indent line : List UInt8) : List UInt8 :=
  if isBlankLine line then line.drop (indentOf line)
    else indent ++ line.drop (min (indentOf line) column)

/-- Moving the line from the column to the indentation would change nothing: there are no blanks
before its line break, or up to the column they are the indentation. -/
def Settled (column : Nat) (indent line : List UInt8) : Prop :=
  if isBlankLine line = true then indentOf line = 0 else line.take (min (indentOf line) column)
    = indent

instance (column : Nat) (indent line : List UInt8) : Decidable (Settled column indent line) :=
  inferInstanceAs (Decidable (if isBlankLine line = true then _ else _))

/-- There is more than blanks in the line. -/
def HasText (line : List UInt8) : Prop :=
  ∃ b ∈ line, isIndentByte b = false

instance (line : List UInt8) : Decidable (HasText line) :=
  inferInstanceAs (Decidable (∃ b ∈ line, isIndentByte b = false))

section Blanks

variable {column : Nat} {indent line blanks rest : List UInt8} {b : UInt8}

theorem indentOf_le (line : List UInt8) : indentOf line ≤ line.length :=
  (List.takeWhile_prefix isIndentByte).length_le

/-- A line with text is blanks, a byte that is none, and the rest. -/
theorem HasText.split (h : HasText line) : ∃ blanks b rest, line = blanks ++ b :: rest ∧
    blanks.all isIndentByte = true ∧ isIndentByte b = false := by
  obtain ⟨c, hc, hshows⟩ := h
  induction line with
  | nil => cases hc
  | cons a line ih =>
    cases ha : isIndentByte a with
    | false => exact ⟨[], a, line, rfl, rfl, ha⟩
    | true =>
      -- a blank is not what shows, and so that comes later
      have hline : c ∈ line := by
        refine (List.mem_cons.1 hc).resolve_left ?_
        rintro rfl
        rw [ha] at hshows
        cases hshows
      obtain ⟨blanks, b, rest, rfl, hblanks, hb⟩ := ih hline
      exact ⟨a :: blanks, b, rest, rfl, by rw [List.all_cons, ha, hblanks, Bool.true_and], hb⟩

section Split

variable (hblanks : blanks.all isIndentByte = true) (hb : isIndentByte b = false)

include hblanks hb

theorem indentOf_split : indentOf (blanks ++ b :: rest) = blanks.length := by
  rw [indentOf, List.takeWhile_append_of_pos fun c hc => List.all_eq_true.1 hblanks c hc,
    List.takeWhile_cons_of_neg (by rw [hb]; exact Bool.false_ne_true), List.append_nil]

theorem isBlankLine_split : isBlankLine (blanks ++ b :: rest) = isLineBreak b := by
  rw [isBlankLine, indentOf_split hblanks hb, List.getElem?_append_right (Nat.le_refl _),
    Nat.sub_self]
  rfl

/-- What becomes of a line when it is moved. -/
theorem movedLine_split : movedLine column indent (blanks ++ b :: rest)
    = if isLineBreak b then b :: rest else indent ++ (blanks.drop column ++ b :: rest) := by
  have hdrop : (blanks ++ b :: rest).drop (min blanks.length column)
      = blanks.drop column ++ b :: rest := by
    -- no more is dropped than there are blanks
    rw [List.drop_append_of_le_length (Nat.min_le_left _ _)]
    congr 1
    exact List.drop_eq_drop_iff.2 (by omega)
  rw [movedLine, isBlankLine_split hblanks hb, indentOf_split hblanks hb, List.drop_left, hdrop]

end Split

/-- The line is not changed just if it is settled. -/
theorem movedLine_eq_self_iff :
    movedLine column indent line = line ↔ Settled column indent line := by
  unfold movedLine Settled
  split
  · -- a blank line loses all its blanks, and so it had none
    have hle := indentOf_le line
    constructor
    · intro h
      have hlength := congrArg List.length h
      rw [List.length_drop] at hlength
      omega
    · intro h
      rw [h, List.drop_zero]
  · -- another line stays if what is put in front is what was taken away
    rw [eq_comm (a := List.take _ _)]
    conv_lhs => rhs; rw [← List.take_append_drop (min (indentOf line) column) line]
    exact List.append_left_inj _

/-- A moved line is some of its blanks dropped, and perhaps the indentation in front. -/
theorem exists_movedLine (column : Nat) (indent line : List UInt8) : ∃ added count,
    (added = [] ∨ added = indent) ∧ count ≤ indentOf line ∧
      movedLine column indent line = added ++ line.drop count := by
  unfold movedLine
  split
  · exact ⟨[], _, .inl rfl, Nat.le_refl _, rfl⟩
  · exact ⟨indent, _, .inr rfl, Nat.min_le_left _ _, rfl⟩

theorem HasText.indentOf_lt (h : HasText line) : indentOf line < line.length := by
  obtain ⟨blanks, b, rest, rfl, hblanks, hb⟩ := h.split
  rw [indentOf_split hblanks hb, List.length_append, List.length_cons]
  omega

theorem hasText_append_lineFeed (l : List UInt8) : HasText (l ++ [lineFeed]) :=
  ⟨lineFeed, List.mem_append_right l List.mem_cons_self, by decide⟩

theorem notMem_append_drop {added : List UInt8} (hindent : lineFeed ∉ indent)
    (hadded : added = [] ∨ added = indent) (hline : lineFeed ∉ line) (count : Nat) :
    lineFeed ∉ added ++ line.drop count := by
  intro hmem
  rcases List.mem_append.1 hmem with hmem | hmem
  · rcases hadded with rfl | rfl
    · cases hmem
    · exact hindent hmem
  · exact hline (List.mem_of_mem_drop hmem)

theorem notMem_movedLine (column : Nat) (hindent : lineFeed ∉ indent) (hline : lineFeed ∉ line) :
    lineFeed ∉ movedLine column indent line := by
  obtain ⟨added, count, hadded, -, hmoved⟩ := exists_movedLine column indent line
  rw [hmoved]
  exact notMem_append_drop hindent hadded hline count

/-- If there is text in the last line, then there is in all: the others have their line feeds. -/
theorem Lined.hasText {ls : List (List UInt8)} (h : Lined ls)
    (hlast : ∀ l ∈ ls.getLast?, HasText l) : ∀ l ∈ ls, HasText l := by
  induction h with
  | @last l _ =>
    intro l' hl'
    obtain rfl := List.mem_singleton.1 hl'
    exact hlast l' rfl
  | @next l ls _ h ih =>
    -- only the last line can be without a line feed, which is text
    have hrest : ∀ l' ∈ ls.getLast?, HasText l' := by
      intro l' hl'
      refine hlast l' ?_
      rw [List.getLast?_cons_of_ne_nil h.ne_nil]
      exact hl'
    intro l' hl'
    rcases List.mem_cons.1 hl' with rfl | hl'
    · exact hasText_append_lineFeed l
    · exact ih hrest l' hl'

/-- So there is if the text ends with a byte that is neither a blank nor a line feed. -/
theorem Lined.hasText_of_getLast? {ls : List (List UInt8)} (h : Lined ls)
    (hlast : ls.flatten.getLast? = some b) (hb : isIndentByte b = false) (hne : b ≠ lineFeed) :
    ∀ l ∈ ls, HasText l := by
  refine h.hasText ?_
  induction h with
  | @last l _ =>
    intro l' hl'
    obtain rfl := Option.some.inj hl'
    rw [List.flatten_singleton] at hlast
    exact ⟨b, List.mem_of_getLast? hlast, hb⟩
  | @next l ls _ h ih =>
    rw [List.getLast?_cons_of_ne_nil h.ne_nil]
    refine ih ?_
    rw [List.flatten_cons, List.getLast?_append] at hlast
    cases hrest : ls.flatten.getLast? with
    | some b' => rwa [hrest] at hlast
    | none =>
      -- then the line feed would be the last byte
      rw [hrest, List.getLast?_concat] at hlast
      exact absurd (Option.some.inj hlast).symm hne

/-- A moved line has its line feed at the end and no other. -/
theorem exists_movedLine_append (column : Nat) (hindent : lineFeed ∉ indent)
    (hline : lineFeed ∉ line) :
    ∃ line', lineFeed ∉ line' ∧
      movedLine column indent (line ++ [lineFeed]) = line' ++ [lineFeed] := by
  obtain ⟨added, count, hadded, hcount, hmoved⟩ :=
    exists_movedLine column indent (line ++ [lineFeed])
  -- the line feed is no blank, and so it is not dropped
  have hlt := (hasText_append_lineFeed line).indentOf_lt
  rw [List.length_append, List.length_singleton] at hlt
  refine ⟨added ++ line.drop count, notMem_append_drop hindent hadded hline count, ?_⟩
  rw [hmoved, List.drop_append_of_le_length (by omega), List.append_assoc]

end Blanks

end Disinherit.Text
