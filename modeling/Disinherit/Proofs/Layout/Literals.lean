import Disinherit.Proofs.Layout.LineByLine
import Disinherit.Proofs.Tree.Samples
import Mathlib.Data.List.Sort

/-!
# Literals in a moved node

The value of a literal may depend on the blanks with which its lines begin. So a node that is moved
should carry its literals along as they are. What a literal becomes is what stands between the moved
text before it and the moved text behind it (`Script.Becomes`).

Template literals are carried along (`Script.movesLines_render`): a line that begins inside one is
not moved, and the blanks of a line that begins outside end before the backquote.

String literals are not protected in this way. A string may go over several lines too, all of which
but the last end with a backslash, and these are moved like any others. So a string keeps its text
just if each line after its first stands at the indentation already, or begins inside a template
literal that the string stands in (`Script.becomes_string`).
-/

namespace Disinherit

open Text

/-! ### What a part of a node becomes -/

namespace Script

/-- When a node is moved to `indent`, the text of a node in it becomes `text`: this stands between
what becomes of the text before it and what becomes of the text behind it. -/
def Becomes (s : Script) (n : Node) (indent : String) (m : Node) (text : String) : Prop :=
  ∃ before after, s.render n [] indent = .ok (before ++ text ++ after) ∧
    s.withEdits n.start m.start ((s.shiftEdits n [] indent).filter (·.start ≤ m.start))
    = .ok before ∧
    s.withEdits m.stop n.stop ((s.shiftEdits n [] indent).filter (m.stop ≤ ·.start)) = .ok after

/-- The edits that move lines within a node in the node. -/
def shiftEditsIn (s : Script) (n : Node) (indent : String) (m : Node) : List Edit :=
  (s.shiftEdits n [] indent).filter fun e => decide (m.start < e.start) && decide (e.start < m.stop)

variable {s : Script} {n m : Node} {indent : String}

theorem mem_shiftEditsIn {e : Edit} :
    e ∈ s.shiftEditsIn n indent m ↔ e ∈ s.shiftEdits n [] indent ∧ m.start < e.start ∧
      e.start < m.stop := by
  rw [shiftEditsIn, List.mem_filter, ← Bool.decide_and, decide_eq_true_iff]

/-- An edit that moves a line does not go beyond a byte that is no blank. -/
theorem stop_le_of_mem_shiftEdits {edits : List Edit} {e : Edit} {offset : Nat} {b : UInt8}
    (he : e ∈ s.shiftEdits n edits indent) (hle : e.start ≤ offset)
    (hbyte : s.source.bytes[offset]? = some b) (hb : isIndentByte b = false) : e.stop ≤ offset := by
  obtain ⟨lineBegin, -, rfl⟩ := List.mem_map.1 (List.mem_filter.1 he).1
  rw [Source.start_lineEdit] at hle
  exact Nat.le_trans (Source.stop_lineEdit_le _ _ _ _)
    (Source.add_indentWidth_le n.stop hle hbyte hb)

/-- The edits before a part of the node, in it, and behind it. -/
theorem shiftEdits_eq_append (hlt : m.start < m.stop) : s.shiftEdits n [] indent
    = (s.shiftEdits n [] indent).filter (·.start ≤ m.start) ++ (s.shiftEditsIn n indent m
      ++ (s.shiftEdits n [] indent).filter (m.stop ≤ ·.start)) := by
  have hsorted := (s.pairwise_shiftEdits n [] indent).imp And.left
  -- the edits are in order, and so they can be cut at the end of the part and then at its start
  have hbehind : ((s.shiftEdits n [] indent).filter fun e => !decide (e.start ≤ m.start))
      = s.shiftEditsIn n indent m ++ (s.shiftEdits n [] indent).filter (m.stop ≤ ·.start) := by
    have hcut : ((s.shiftEdits n [] indent).filter fun e => !decide (e.start ≤ m.start)).Pairwise
        fun a b => decide (b.start < m.stop) = true → decide (a.start < m.stop) = true :=
      (hsorted.filter _).imp fun {a b} hab hb => by
        rw [decide_eq_true_iff] at *
        omega
    rw [← filter_append_filter_not hcut, List.filter_filter, List.filter_filter, shiftEditsIn]
    congr 1
    · refine List.filter_congr fun e _ => ?_
      rw [← decide_not, ← Bool.decide_and, ← Bool.decide_and, decide_eq_decide]
      omega
    · refine List.filter_congr fun e _ => ?_
      rw [← decide_not, ← decide_not, ← Bool.decide_and, decide_eq_decide]
      omega
  have hcut : (s.shiftEdits n [] indent).Pairwise
      fun a b => decide (b.start ≤ m.start) = true → decide (a.start ≤ m.start) = true :=
    hsorted.imp fun {a b} hab hb => by
      rw [decide_eq_true_iff] at *
      omega
  rw [← hbehind, filter_append_filter_not hcut]

/-- What becomes of a part of a node is what the edits in it make of it, if no edit goes beyond its
ends. -/
theorem exists_becomes (hn : n.OnBoundaries s.source) (hm : m.OnBoundaries s.source)
    (hstart : n.start ≤ m.start) (hwide : m.start < m.stop) (hstop : m.stop ≤ n.stop)
    (hbefore : ∀ e ∈ s.shiftEdits n [] indent, e.start ≤ m.start → e.stop ≤ m.start)
    (hinside : ∀ e ∈ s.shiftEdits n [] indent, e.start < m.stop → e.stop ≤ m.stop) :
    ∃ text', encode text' = s.source.weaveBytes m.stop m.start (s.shiftEditsIn n indent m) ∧
      ∀ text, s.Becomes n indent m text ↔ text = text' := by
  have hmoves := s.successive_shiftEdits n [] indent
  have hsorted := (s.pairwise_shiftEdits n [] indent).imp And.left
  have hbounds : ∀ e ∈ s.shiftEdits n [] indent, e.OnBoundaries s.source := fun _ he =>
    onBoundaries_of_mem_shiftEdits he
  -- no edit crosses an end of `m`, so that each belongs to one of three parts
  have hfirst : Edit.Successive n.start m.start
      ((s.shiftEdits n [] indent).filter (·.start ≤ m.start)) :=
    hmoves.filter fun e he hle => ⟨(hmoves.within e he).1, hbefore e he (of_decide_eq_true hle)⟩
  have hmid : Edit.Successive m.start m.stop (s.shiftEditsIn n indent m) :=
    hmoves.filter fun e he hle => by
      obtain ⟨-, hgt, hlt⟩ := mem_shiftEditsIn.1 (List.mem_filter.2 ⟨he, hle⟩)
      exact ⟨Nat.le_of_lt hgt, hinside e he hlt⟩
  have hlast : Edit.Successive m.stop n.stop
      ((s.shiftEdits n [] indent).filter (m.stop ≤ ·.start)) :=
    hmoves.filter fun e he hle => ⟨of_decide_eq_true hle, (hmoves.within e he).2.2⟩
  obtain ⟨out, hout, hbytes⟩ := exists_render_nil hn indent
  obtain ⟨before, hbefore, hbeforeBytes⟩ :=
    exists_withEdits_of_successive hfirst (hsorted.filter _) hn.start hm.start
      fun e he => hbounds e (List.mem_filter.1 he).1
  obtain ⟨text', -, hmidBytes⟩ :=
    exists_withEdits_of_successive hmid (hsorted.filter _) hm.start hm.stop
      fun e he => hbounds e (List.mem_filter.1 he).1
  obtain ⟨after, hafter, hafterBytes⟩ :=
    exists_withEdits_of_successive hlast (hsorted.filter _) hm.stop hn.stop
      fun e he => hbounds e (List.mem_filter.1 he).1
  -- the whole is made up of the three parts
  have hthree : out = before ++ text' ++ after := by
    have hbehind : ∀ e ∈ s.shiftEditsIn n indent m ++ (s.shiftEdits n [] indent).filter
        (m.stop ≤ ·.start), m.start ≤ e.start := by
      intro e he
      rcases List.mem_append.1 he with he | he
      · exact (hmid.within e he).1
      · exact Nat.le_trans (Nat.le_of_lt hwide) (hlast.within e he).1
    apply encode_injective
    rw [encode_append, encode_append, hbytes, shiftEdits_eq_append hwide, hbeforeBytes, hmidBytes,
      hafterBytes, List.append_assoc, Source.weaveBytes_append hfirst hstart (by omega) hbehind,
      Source.weaveBytes_append hmid (Nat.le_of_lt hwide) hstop fun e he => (hlast.within e he).1]
  refine ⟨text', hmidBytes, fun text => ⟨?_, ?_⟩⟩
  · rintro ⟨before', after', hrender, hbefore', hafter'⟩
    obtain rfl := Except.ok.inj (hbefore.symm.trans hbefore')
    obtain rfl := Except.ok.inj (hafter.symm.trans hafter')
    -- with the first and the last part given, the middle one can be read off
    have hsame := congrArg encode (hthree.symm.trans (Except.ok.inj (hout.symm.trans hrender)))
    rw [encode_append, encode_append, encode_append, encode_append, List.append_left_inj,
      List.append_right_inj] at hsame
    exact encode_injective hsame.symm
  · rintro rfl
    exact ⟨before, after, hthree ▸ hout, hbefore, hafter⟩

/-! ### Template literals -/

/-- No line that begins inside a template literal is moved. -/
theorem shiftEditsIn_template (htemplates : n.TemplatesNest) (hm : m ∈ n.templateNodes) :
    s.shiftEditsIn n indent m = [] := by
  refine List.eq_nil_iff_forall_not_mem.2 fun e he => ?_
  obtain ⟨he, hinside⟩ := mem_shiftEditsIn.1 he
  rw [shiftEdits_nil htemplates] at he
  obtain ⟨lineBegin, hbegin, rfl⟩ := List.mem_map.1 he
  rw [Source.start_lineEdit] at hinside
  -- a line that begins inside of the literal is exempt from moving
  have hin : n.inTemplate lineBegin = true := Node.inTemplate_iff.2 ⟨m, hm, hinside⟩
  have hout := (List.mem_filter.1 hbegin).2
  rw [hin] at hout
  cases hout

/-- A template literal that begins with a backquote keeps its text. -/
theorem becomes_template (hn : n.OnBoundaries s.source) (htemplates : n.TemplatesNest)
    (hm : m ∈ n.templateNodes) (hquote : (s.source.range m.start m.stop).head? = some 0x60)
    (indent : String) : ∃ text, s.text m = .ok text ∧ s.Becomes n indent m text := by
  have hbounds : m.OnBoundaries s.source := hn.of_mem (Node.mem_templateNodes.1 hm).1.mem_preorder
  obtain ⟨hwide, hbyte⟩ := Source.getElem?_range_eq_some_iff.1
    (List.head?_eq_getElem?.symm.trans hquote)
  have hbefore : ∀ e ∈ s.shiftEdits n [] indent, e.start ≤ m.start → e.stop ≤ m.start :=
    fun e he hle => stop_le_of_mem_shiftEdits he hle hbyte (by decide)
  have hinside : ∀ e ∈ s.shiftEdits n [] indent, e.start < m.stop → e.stop ≤ m.stop := by
    -- an edit that starts before the end starts before the backquote, since there is none inside
    intro e he hlt
    have hle : e.start ≤ m.start := by
      by_contra hgt
      have hin : e ∈ s.shiftEditsIn n indent m := mem_shiftEditsIn.2 ⟨he, by omega, hlt⟩
      rw [shiftEditsIn_template htemplates hm] at hin
      cases hin
    exact Nat.le_trans (hbefore e he hle) (Nat.le_of_lt hwide)
  obtain ⟨text, htext⟩ := exists_slice hbounds.start hbounds.stop
  obtain ⟨hstart, hstop⟩ := htemplates.within m hm
  obtain ⟨text', hbytes, hbecomes⟩ := exists_becomes hn hbounds hstart hwide hstop hbefore hinside
  -- no edit starts inside, and so the text is taken over
  refine ⟨text, htext, (hbecomes text).2 (encode_injective ?_)⟩
  rw [hbytes, shiftEditsIn_template htemplates hm, encode_of_slice htext]
  rfl

/-- Moving a node to `indent` touches only blanks at the beginnings of lines: the first line stays,
each of the others is moved on its own, and template literals keep their texts. -/
structure MovesLines (s : Script) (n : Node) (indent : String) : Prop where
  lines : ∃ first rest text, s.linesOf n = first :: rest ∧ s.render n [] indent = .ok text ∧
    encode text = first.bytes ++ rest.flatMap (s.relaid n indent)
  templates : ∀ t ∈ n.templateNodes, ∃ text, s.text t = .ok text ∧ s.Becomes n indent t text

/-- **A node is moved line by line, and its template literals are carried along.** -/
theorem movesLines_render (hn : n.OnBoundaries s.source) (htemplates : n.TemplatesNest)
    (hquotes : ∀ t ∈ n.templateNodes, (s.source.range t.start t.stop).head? = some 0x60)
    (hlast : s.EndsWithText n) (indent : String) : s.MovesLines n indent where
  lines := exists_render_lines hn htemplates hlast indent
  templates t ht := becomes_template hn htemplates ht (hquotes t ht) indent

end Script

/-- A method with a template literal in a template literal. -/
def Node.nestedTemplates : Node :=
  .sound .methodDefinition (some (.other "member")) 4 72
    [.sound .templateString none 25 48 [.sound .templateString none 33 42 []]]

/-- Its lines end in different ways and are indented with spaces or a tab, more or less than the
method itself. Three of them begin in the template literals. -/
def unevenMethod : Script where
  source :=
    .ofText
      ("    f() \x7b\r\n\tx;\r\n   \r\n  y(`a\r\n  $\x7b`b\n    c`\x7d\r\n d`);\r\n\n        z;\r\n"
    ++ "      \x7d")
  root := .nestedTemplates

/-- Each of its lines goes its own way. -/
theorem movesLines_unevenMethod :
    Node.nestedTemplates.OnBoundaries unevenMethod.source ∧ Node.nestedTemplates.TemplatesNest ∧
    (∀ t ∈ Node.nestedTemplates.templateNodes,
      (unevenMethod.source.range t.start t.stop).head? = some 0x60) ∧
    unevenMethod.EndsWithText .nestedTemplates ∧ unevenMethod.MovesLines .nestedTemplates "  " ∧
    (unevenMethod.render .nestedTemplates [] "  ").toOption
      = some ("f() \x7b\r\n  x;\r\n\r\n  y(`a\r\n  $\x7b`b\n    c`\x7d\r\n d`);\r\n\n      z;\r\n"
        ++ "    \x7d") := by
  have hbounds : Node.nestedTemplates.OnBoundaries unevenMethod.source := by decide +kernel
  have htemplates : Node.nestedTemplates.TemplatesNest := by decide +kernel
  have hquotes : ∀ t ∈ Node.nestedTemplates.templateNodes,
      (unevenMethod.source.range t.start t.stop).head? = some 0x60 := by decide +kernel
  have hlast : unevenMethod.EndsWithText .nestedTemplates := by decide +kernel
  exact ⟨hbounds, htemplates, hquotes, hlast,
    Script.movesLines_render hbounds htemplates hquotes hlast "  ", by decide +kernel⟩

/-! ### String literals -/

namespace Script

variable {s : Script} {n m : Node} {indent : String}

/-- A string literal in a node: it lies in the node, between a quote and a quote. -/
structure HoldsString (s : Script) (n m : Node) : Prop where
  below : m.Below n
  kind : m.kind = .stringLiteral
  start : n.start ≤ m.start
  stop : m.stop ≤ n.stop
  quoted : ∃ quote body, (quote = 0x22 ∨ quote = 0x27) ∧
    s.source.range m.start m.stop = quote :: (body ++ [quote])

/-- The bytes at both ends of a string literal are its quotes. -/
theorem HoldsString.ends (h : s.HoldsString n m) (hsize : m.stop ≤ s.source.size) :
    ∃ quote, isIndentByte quote = false ∧ quote ≠ lineFeed ∧ m.start + 1 < m.stop ∧
      s.source.bytes[m.start]? = some quote ∧ s.source.bytes[m.stop - 1]? = some quote ∧
      (s.source.range m.start m.stop).getLast? = some quote := by
  obtain ⟨quote, body, hquote, hrange⟩ := h.quoted
  have hfirst : (s.source.range m.start m.stop)[0]? = some quote := by rw [hrange]; rfl
  have hlast : (s.source.range m.start m.stop).getLast? = some quote := by
    rw [hrange, List.getLast?_cons_of_ne_nil (by simp), List.getLast?_concat]
  have hlength := congrArg List.length hrange
  rw [Source.length_range hsize, List.length_cons, List.length_append,
    List.length_singleton] at hlength
  rw [List.getLast?_eq_getElem?, Source.length_range hsize] at hlast
  refine ⟨quote, ?_, ?_, by omega, (Source.getElem?_range_eq_some_iff.1 hfirst).2, ?_, ?_⟩
  · -- a quote is neither a blank nor a line feed
    rcases hquote with rfl | rfl <;> decide
  · rcases hquote with rfl | rfl <;> decide
  · have := (Source.getElem?_range_eq_some_iff.1 hlast).2
    rwa [show m.start + (m.stop - m.start - 1) = m.stop - 1 by omega] at this
  · rwa [List.getLast?_eq_getElem?, Source.length_range hsize]

/-- The lines that begin in a part of the node are those of the part, unless it ends with a line
feed. -/
theorem filter_startsOfLines (hstart : n.start ≤ m.start) (hstop : m.stop ≤ n.stop)
    (hlast : s.source.bytes[m.stop - 1]? ≠ some lineFeed) :
    ((s.linesOf n).tail.map Line.start).filter
        (fun offset => decide (m.start < offset) && decide (offset < m.stop))
      = (s.linesOf m).tail.map Line.start := by
  rw [linesOf, linesOf, ← Source.startsOfLines_eq, ← Source.startsOfLines_eq]
  have hsorted : ∀ start stop, ((s.source.lineFeeds start stop).map (· + 1)).Pairwise (· < ·) :=
    fun start stop =>
      List.pairwise_map.2 ((s.source.pairwise_lineFeeds start stop).imp Nat.succ_lt_succ)
  -- both lists are increasing, and so they agree if they have the same elements
  refine ((hsorted _ _).filter _).eq_of_mem_iff (hsorted _ _) fun offset => ?_
  rw [List.mem_filter, List.mem_map, List.mem_map, ← Bool.decide_and, decide_eq_true_iff]
  constructor
  · rintro ⟨⟨q, hq, rfl⟩, hgt, hlt⟩
    obtain ⟨-, -, hbyte⟩ := Source.mem_lineFeeds.1 hq
    exact ⟨q, Source.mem_lineFeeds.2 ⟨by omega, by omega, hbyte⟩, rfl⟩
  · rintro ⟨q, hq, rfl⟩
    obtain ⟨hge, hlt, hbyte⟩ := Source.mem_lineFeeds.1 hq
    -- a line feed at the very end would begin a line behind the part
    have hne : q ≠ m.stop - 1 := by
      rintro rfl
      exact hlast hbyte
    exact ⟨⟨q, Source.mem_lineFeeds.2 ⟨by omega, by omega, hbyte⟩, rfl⟩, by omega, by omega⟩

/-- The edits in a part of a node that does not end with a line feed move the lines of the part. -/
theorem shiftEditsIn_eq_lineEdits (htemplates : n.TemplatesNest) (hstart : n.start ≤ m.start)
    (hstop : m.stop ≤ n.stop) (hlast : s.source.bytes[m.stop - 1]? ≠ some lineFeed) :
    s.shiftEditsIn n indent m
      = s.source.lineEdits n.inTemplate (s.source.column n.start) n.stop indent
        (s.linesOf m).tail := by
  rw [shiftEditsIn, shiftEdits_nil htemplates, Source.lineEdits, Source.lineEdits, List.filter_map,
    ← filter_startsOfLines hstart hstop hlast, List.filter_filter, List.filter_filter]
  congr 1
  refine List.filter_congr fun offset _ => ?_
  rw [Function.comp_apply, Source.start_lineEdit, Bool.and_comm]

/-- **The lines of a string literal are moved like any others.** So it keeps its text just if all of
its lines after the first are settled, or begin in a template literal. -/
theorem becomes_string (hn : n.OnBoundaries s.source) (htemplates : n.TemplatesNest)
    (hm : s.HoldsString n m) (hindent : lineFeed ∉ encode indent) : ∃ first rest text text',
      s.linesOf m = first :: rest ∧ s.text m = .ok text ∧
      s.Becomes n indent m text' ∧ encode text' = first.bytes ++ rest.flatMap (s.relaid n indent) ∧
      (s.Becomes n indent m text ↔ ∀ line ∈ rest, n.inTemplate line.start = false →
        Settled (s.source.column n.start) (encode indent) line.bytes) := by
  have hbounds : m.OnBoundaries s.source := hn.of_mem hm.below.mem_preorder
  obtain ⟨quote, hblank, hne, hwide, hfirst, hlast, hend⟩ := hm.ends hbounds.stop.le_size
  -- the blanks of a line end before the one quote or before the other
  have hbefore : ∀ e ∈ s.shiftEdits n [] indent, e.start ≤ m.start → e.stop ≤ m.start :=
    fun e he hle => stop_le_of_mem_shiftEdits he hle hfirst hblank
  have hinside : ∀ e ∈ s.shiftEdits n [] indent, e.start < m.stop → e.stop ≤ m.stop := by
    intro e he hlt
    have := stop_le_of_mem_shiftEdits he (show e.start ≤ m.stop - 1 by omega) hlast hblank
    omega
  have hnoFeed : s.source.bytes[m.stop - 1]? ≠ some lineFeed := by
    rw [hlast]
    exact fun h => hne (Option.some.inj h)
  obtain ⟨text, htext⟩ := exists_slice hbounds.start hbounds.stop
  -- what becomes of the string is what the edits in it make of it, and these move its lines one by
  -- one
  obtain ⟨text', hbytes, hbecomes⟩ :=
    exists_becomes hn hbounds hm.start (show m.start < m.stop by omega) hm.stop hbefore hinside
  obtain ⟨first, rest, hlines, hmoved⟩ :=
    Source.weaveBytes_linesIn n.inTemplate (s.source.column n.start) indent
      ((lined_lines _).hasText_of_getLast? ((flatten_lines _).symm ▸ hend) hblank hne)
      (show m.start ≤ m.stop by omega) hm.stop hbounds.stop.le_size
  rw [shiftEditsIn_eq_lineEdits htemplates hm.start hm.stop hnoFeed] at hbytes
  have hbytes := hbytes.trans hmoved
  refine ⟨first, rest, text, text', hlines, htext, (hbecomes text').2 rfl, hbytes, ?_⟩
  -- the string is kept if and only if all its lines come out as they were
  rw [hbecomes, ← Source.relaid_eq_range_iff hlines hindent, ← hbytes, ← encode_of_slice htext]
  exact ⟨fun h => h ▸ rfl, fun h => (encode_injective h).symm⟩

end Script

/-- A string literal of two lines. -/
def Node.continuedString : Node :=
  .sound .stringLiteral (some .value) 18 32 []

/-- The field with the string as its value. -/
def Node.continuedField : Node :=
  .sound .fieldDefinition (some (.other "member")) 14 32
    [.sound .propertyIdentifier (some .property) 14 15 [], .continuedString]

/-- A class with the field. -/
def continuedLine : Script where
  source := .ofText "class A \x7b\n    s = 'a\\\n        b';\n\x7d\n"
  root := .sound (.other "program") none 0 36 [.shortClass 0 8 35 [] [.continuedField]]

theorem holdsString_continuedLine : continuedLine.HoldsString .continuedField .continuedString where
  below := ⟨.continuedString, List.mem_cons_of_mem _ List.mem_cons_self, Node.mem_preorder_self _⟩
  kind := rfl
  start := by decide
  stop := by decide
  quoted := ⟨0x27, [0x61, 0x5c, 0x0a, 0x20, 0x20, 0x20, 0x20, 0x20, 0x20, 0x20, 0x20, 0x62],
    .inr rfl, by decide +kernel⟩

/-- The second line of the string begins with the four spaces to which the field is moved, and so it
is settled. -/
theorem becomes_continuedString :
    Node.continuedField.OnBoundaries continuedLine.source ∧ Node.continuedField.TemplatesNest ∧
    continuedLine.HoldsString .continuedField .continuedString ∧ lineFeed ∉ encode "    " ∧
    ∃ text, (continuedLine.text .continuedString).toOption = some text ∧
      continuedLine.Becomes .continuedField "    " .continuedString text := by
  have hbounds : Node.continuedField.OnBoundaries continuedLine.source := by decide +kernel
  have htemplates : Node.continuedField.TemplatesNest := by decide +kernel
  have hindent : lineFeed ∉ encode "    " := by decide +kernel
  obtain ⟨first, rest, text, text', hlines, htext, -, -, hkept⟩ :=
    Script.becomes_string hbounds htemplates holdsString_continuedLine hindent
  have hrest : rest = (continuedLine.linesOf .continuedString).tail := by
    rw [hlines, List.tail_cons]
  refine ⟨hbounds, htemplates, holdsString_continuedLine, hindent, text, by rw [htext]; rfl,
    hkept.2 ?_⟩
  rw [hrest]
  decide +kernel

/-- If the field is moved by two columns, then so is the second line of the string, and it has
another value. -/
theorem not_becomes_continuedString :
    Node.continuedField.OnBoundaries continuedLine.source ∧ Node.continuedField.TemplatesNest ∧
    continuedLine.HoldsString .continuedField .continuedString ∧
    (continuedLine.text .continuedString).toOption = some "'a\\\n        b'" ∧
    (continuedLine.render .continuedField [] "  ").toOption = some "s = 'a\\\n      b'" ∧
    ¬ continuedLine.Becomes .continuedField "  " .continuedString "'a\\\n        b'" := by
  have hmoved : (continuedLine.render .continuedField [] "  ").toOption
      = some "s = 'a\\\n      b'" := by decide +kernel
  have hfront : (continuedLine.withEdits 14 18
      ((continuedLine.shiftEdits .continuedField [] "  ").filter (·.start ≤ 18))).toOption
        = some "s = " := by
    decide +kernel
  have hback : (continuedLine.withEdits 32 32
      ((continuedLine.shiftEdits .continuedField [] "  ").filter (32 ≤ ·.start))).toOption
        = some "" := by
    decide +kernel
  refine ⟨by decide +kernel, by decide +kernel, holdsString_continuedLine, by decide +kernel,
    hmoved, ?_⟩
  -- what is in front and behind is fixed, so that the middle would have to fit in between
  rintro ⟨before, after, hrender, hbefore, hafter⟩
  obtain rfl := Option.some.inj ((congrArg Except.toOption hbefore).symm.trans hfront)
  obtain rfl := Option.some.inj ((congrArg Except.toOption hafter).symm.trans hback)
  rw [hrender] at hmoved
  exact absurd (Option.some.inj hmoved) (by decide +kernel)

end Disinherit
