import Disinherit.Proofs.Layout.LineByLine
import Disinherit.Proofs.Tree.Samples
import Mathlib.Data.List.Forall2

/-!
# Laid out texts

A line is laid out for an indentation if it begins with it, or has no blanks before its line break
(`Text.LaidOut`). Moving a line to an indentation of blanks lays it out (`laidOut_movedLine`).
Moving it there once more, now from the column at which the indentation ends, leaves it as it is
(`settled_of_laidOut`).

The same holds of a node (`Script.exists_laysOut`). Lines that begin in a template literal have no
part in this. They stay as they are, and after the node was moved they are found at other offsets.
So the lines of the moved text are compared with those of the node one by one (`Script.IsLaidOut`).
-/

namespace Disinherit

open Text

namespace Text

/-- The line begins with the indentation, or there are no blanks before its line break. -/
def LaidOut (indent line : List UInt8) : Prop :=
  if isBlankLine line = true then indentOf line = 0 else indent <+: line

instance (indent line : List UInt8) : Decidable (LaidOut indent line) :=
  inferInstanceAs (Decidable (if isBlankLine line = true then _ else _))

section Line

variable {column : Nat} {indent line : List UInt8}

theorem lineFeed_notMem (hindent : indent.all isIndentByte = true) : lineFeed ∉ indent :=
  fun h => absurd (List.all_eq_true.1 hindent _ h) (by decide)

theorem HasText.movedLine (h : HasText line) : HasText (movedLine column indent line) := by
  obtain ⟨blanks, b, rest, rfl, hblanks, hb⟩ := h.split
  refine ⟨b, ?_, hb⟩
  rw [movedLine_split hblanks hb]
  split
  · exact List.mem_cons_self
  · exact List.mem_append_right _ (List.mem_append_right _ List.mem_cons_self)

/-- A moved line is laid out. -/
theorem laidOut_movedLine (hindent : indent.all isIndentByte = true) (h : HasText line) :
    LaidOut indent (movedLine column indent line) := by
  obtain ⟨blanks, b, rest, rfl, hblanks, hb⟩ := h.split
  rw [movedLine_split hblanks hb]
  cases hbreak : isLineBreak b with
  | true =>
    -- the blanks are gone, and the line begins with its line break
    have hnil : ([] : List UInt8).all isIndentByte = true := rfl
    have hblank : isBlankLine (b :: rest) = true := (isBlankLine_split hnil hb).trans hbreak
    exact (if_pos hblank).mpr (indentOf_split hnil hb)
  | false =>
    -- what is left of the old blanks comes behind the indentation
    have hall : (indent ++ blanks.drop column).all isIndentByte = true := by
      rw [List.all_append, hindent, Bool.true_and]
      exact List.all_eq_true.2 fun c hc => List.all_eq_true.1 hblanks c (List.mem_of_mem_drop hc)
    have hblank : ¬ isBlankLine (indent ++ (blanks.drop column ++ b :: rest)) = true := by
      rw [← List.append_assoc, isBlankLine_split hall hb, hbreak]
      exact Bool.false_ne_true
    exact (if_neg hblank).mpr (List.prefix_append _ _)

/-- A line that is laid out does not change if it is moved from the end of the indentation. -/
theorem settled_of_laidOut (hindent : indent.all isIndentByte = true) (h : LaidOut indent line) :
    Settled indent.length indent line := by
  unfold LaidOut at h
  unfold Settled
  split
  · next hblank => exact (if_pos hblank).mp h
  · next hblank =>
    obtain ⟨more, rfl⟩ := (if_neg hblank).mp h
    -- the line begins with the indentation, which is made of blanks
    have hwidth : indent.length ≤ indentOf (indent ++ more) := by
      rw [indentOf, List.takeWhile_append_of_pos fun c hc => List.all_eq_true.1 hindent c hc,
        List.length_append]
      exact Nat.le_add_right _ _
    rw [Nat.min_eq_right hwidth, List.take_left]

end Line

end Text

namespace Script

/-- A text is laid out line by line with the lines of a node: each line after the first is, unless
that of the node begins in a template literal. -/
def IsLaidOut (s : Script) (n : Node) (indent text : String) : Prop :=
  List.Forall₂ (fun line l => n.inTemplate line.start = true ∨ LaidOut (encode indent) l)
    (s.linesOf n).tail (lines (encode text)).tail

/-- Moving a node with this text to `indent` gives `out`: it is laid out, it is the same text if
that was laid out already, and a node that has it for its text stays as it is. -/
structure LaysOut (s : Script) (n : Node) (indent text out : String) : Prop where
  laidOut : s.IsLaidOut n indent out
  kept : s.source.column n.start = (encode indent).length → s.IsLaidOut n indent text → out = text
  again : ∀ (s' : Script) (n' : Node), n'.OnBoundaries s'.source → n'.TemplatesNest →
    s'.text n' = .ok out →
    s'.source.column n'.start = (encode indent).length →
    List.Forall₂ (fun line line' => n.inTemplate line.start = n'.inTemplate line'.start)
      (s.linesOf n).tail
      (s'.linesOf n').tail →
    s'.render n' [] indent = .ok out

variable {s : Script} {n : Node} {indent text : String}

/-- If each line of a text comes from one of the node, then these lines show if it is laid out. -/
theorem isLaidOut_iff {first : Line} {rest : List Line} {l : List UInt8} {f : Line → List UInt8}
    (hlines : s.linesOf n = first :: rest) (htext : lines (encode text) = l :: rest.map f) :
    s.IsLaidOut n indent text ↔ ∀ line ∈ rest, n.inTemplate line.start = true ∨
      LaidOut (encode indent) (f line) := by
  rw [IsLaidOut, hlines, htext, List.tail_cons, List.tail_cons, List.forall₂_map_right_iff,
    List.forall₂_same]

/-- Whether a text is laid out with the lines of a node depends only on which of these begin in a
template literal. -/
theorem IsLaidOut.of_forall₂ {s' : Script} {n' : Node} (h : s.IsLaidOut n indent text)
    (hsame : List.Forall₂ (fun line line' => n.inTemplate line.start = n'.inTemplate line'.start)
      (s.linesOf n).tail (s'.linesOf n').tail) : s'.IsLaidOut n' indent text := by
  unfold IsLaidOut at *
  generalize (s.linesOf n).tail = first, (s'.linesOf n').tail = second,
    (lines (encode text)).tail = ls at *
  -- only the template literals count, and these are the same line by line
  induction hsame generalizing ls with
  | nil =>
    cases h
    exact .nil
  | cons htemplate _ ih =>
    cases h with
    | cons hline h => exact .cons (htemplate ▸ hline) (ih _ h)

section Render

variable (hn : n.OnBoundaries s.source) (htemplates : n.TemplatesNest) (hlast : s.EndsWithText n)
  (hindent : (encode indent).all isIndentByte = true)

include hn htemplates hlast hindent

/-- A node that is laid out, and begins where the indentation ends, stays as it is. -/
theorem render_eq_text (htext : s.text n = .ok text)
    (hcolumn : s.source.column n.start = (encode indent).length)
    (hlaid : s.IsLaidOut n indent text) : s.render n [] indent = .ok text := by
  obtain ⟨first, rest, out, hlines, hout, hbytes⟩ := exists_render_lines hn htemplates hlast indent
  have hrange : encode text = s.source.range n.start n.stop := encode_of_slice htext
  have hall := (isLaidOut_iff hlines (hrange ▸ Source.lines_range hlines)).1 hlaid
  -- the lines are where they should be, and moving them changes nothing
  have hsettled : ∀ line ∈ rest, n.inTemplate line.start = false →
      Settled (s.source.column n.start) (encode indent) line.bytes := by
    intro line hline hnot
    rw [hcolumn]
    exact settled_of_laidOut hindent
      ((hall line hline).resolve_left (by rw [hnot]; exact Bool.false_ne_true))
  have hsame := (Source.relaid_eq_range_iff hlines (lineFeed_notMem hindent)).2 hsettled
  rw [hout]
  congr 1
  apply encode_injective
  rw [hbytes, hrange]
  exact hsame

/-- **Moving a node lays it out, and moving it once more changes nothing.** -/
theorem exists_laysOut : ∃ text out, s.text n = .ok text ∧ s.render n [] indent = .ok out ∧
    s.LaysOut n indent text out := by
  obtain ⟨first, rest, out, hlines, hout, hbytes⟩ := exists_render_lines hn htemplates hlast indent
  obtain ⟨text, htext⟩ := exists_slice hn.start hn.stop
  -- the lines of the moved text are the moved lines
  have hmoved : lines (encode out) = first.bytes :: rest.map (s.relaid n indent) := by
    rw [hbytes]
    exact Source.lines_relaid hlines (lineFeed_notMem hindent) _ _
  have hbefore := hlast.hasText
  rw [Source.lines_range hlines] at hbefore
  have hrest : ∀ line ∈ rest, HasText line.bytes := fun line hline =>
    hbefore _ (List.mem_cons_of_mem _ (List.mem_map_of_mem hline))
  have hlaid : s.IsLaidOut n indent out := by
    refine (isLaidOut_iff hlines hmoved).2 fun line hline => ?_
    cases htemplate : n.inTemplate line.start with
    | true => exact .inl rfl
    | false =>
      rw [relaid, Line.relaid, htemplate]
      exact .inr (laidOut_movedLine hindent (hrest line hline))
  refine ⟨text, out, htext, hout, hlaid, fun hcolumn hlaid => ?_, ?_⟩
  · exact Except.ok.inj (hout.symm.trans
      (render_eq_text hn htemplates hlast hindent htext hcolumn hlaid))
  · intro s' n' hn' htemplates' htext' hcolumn' hsame
    -- the moved lines still have their text
    have hlast' : s'.EndsWithText n' := by
      apply endsWithText_of_hasText
      rw [← encode_of_slice htext', hmoved]
      intro l hl
      rcases List.mem_cons.1 hl with rfl | hl
      · exact hbefore _ List.mem_cons_self
      · obtain ⟨line, hline, rfl⟩ := List.mem_map.1 hl
        rw [relaid, Line.relaid]
        split
        · exact hrest line hline
        · exact (hrest line hline).movedLine
    exact render_eq_text hn' htemplates' hlast' hindent htext' hcolumn' (hlaid.of_forall₂ hsame)

end Render

end Script

/-- A field with a list for its value, in which a template literal stands. -/
def Node.listField : Node :=
  .sound .fieldDefinition (some (.other "member")) 2 29 [.sound .templateString none 10 16 []]

/-- The field stands in the second column, and all of its lines but the one in the template literal
begin with two spaces. -/
def laidOutField : Script where
  source := .ofText "  f = [\n  `a\n b`,\r\n\r\n  \tc\n  ]"
  root := .listField

/-- So it stays as it is. -/
theorem render_laidOutField :
    Node.listField.OnBoundaries laidOutField.source ∧ Node.listField.TemplatesNest ∧
    laidOutField.EndsWithText .listField ∧ (encode "  ").all isIndentByte = true ∧
    laidOutField.source.column Node.listField.start = (encode "  ").length ∧
    ∃ text, (laidOutField.text .listField).toOption = some text ∧
      laidOutField.IsLaidOut .listField "  " text ∧
      laidOutField.LaysOut .listField "  " text text ∧
      (laidOutField.render .listField [] "  ").toOption = some text := by
  have hbounds : Node.listField.OnBoundaries laidOutField.source := by decide +kernel
  have htemplates : Node.listField.TemplatesNest := by decide +kernel
  have hlast : laidOutField.EndsWithText .listField := by decide +kernel
  have hindent : (encode "  ").all isIndentByte = true := by decide +kernel
  have hcolumn : laidOutField.source.column Node.listField.start = (encode "  ").length := by
    decide +kernel
  obtain ⟨text, out, htext, hout, hlaysOut⟩ :=
    Script.exists_laysOut hbounds htemplates hlast hindent
  have hlaid : laidOutField.IsLaidOut .listField "  " text := by
    rw [Script.IsLaidOut, Script.encode_of_slice htext]
    decide +kernel
  obtain rfl := hlaysOut.kept hcolumn hlaid
  exact ⟨hbounds, htemplates, hlast, hindent, hcolumn, out, by rw [htext]; rfl, hlaid,
    hlaysOut, by rw [hout]; rfl⟩

end Disinherit
