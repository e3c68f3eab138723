import Disinherit.Proofs.Compile.Reading
import Disinherit.Proofs.Layout.Line
import Disinherit.Proofs.Layout.Moves
import Disinherit.Proofs.Text.Weaving

/-!
# Moving a node line by line

The lines of a node are moved by edits, which are found by a search for line feeds and then applied
in one walk over the text. Line by line this is simple: the first line stays, and each of the others
is moved on its own (`Script.exists_render_lines`).

The lines of a range are listed with their offsets (`Source.linesIn`), and the offsets are those
that the search finds (`Source.startsOfLines_eq`). The edit of a line looks at the source up to the
end of the node. For a line with text the blanks end within the line, and so the edit does to the
source what `movedLine` does to the line (`Source.exists_lineEdit`). The walk then goes from line to
line (`Source.weaveBytes_lineEdits`).

Lines that begin inside a template literal stay. The program looks only at the outermost template
literals. In a tree whose template literals nest (`Node.TemplatesNest`) this makes no difference
(`Node.isWithin_templates`).
-/

namespace Disinherit

open Text

/-! ### Lines with their offsets -/

/-- A line of a source: where it begins, and its bytes. -/
structure Line where
  start : Nat
  bytes : List UInt8
deriving DecidableEq, Repr

namespace Line

/-- Lines that follow one another from an offset on. -/
def listFrom (offset : Nat) : List (List UInt8) → List Line
  | [] => []
  | l :: ls => ⟨offset, l⟩ :: listFrom (offset + l.length) ls

/-- What becomes of a line that is moved unless it is exempt. -/
def relaid (exempt : Nat → Bool) (column : Nat) (indent : List UInt8) (line : Line) : List UInt8 :=
  if exempt line.start then line.bytes else movedLine column indent line.bytes

theorem map_bytes_listFrom (offset : Nat) (ls : List (List UInt8)) :
    (listFrom offset ls).map bytes = ls := by
  induction ls generalizing offset with
  | nil => rfl
  | cons l ls ih => rw [listFrom, List.map_cons, ih]

theorem le_start_of_mem {offset : Nat} {ls : List (List UInt8)} {line : Line}
    (h : line ∈ listFrom offset ls) : offset ≤ line.start := by
  induction ls generalizing offset with
  | nil => cases h
  | cons l ls ih =>
    rcases List.mem_cons.1 h with rfl | h
    · exact Nat.le_refl _
    · exact Nat.le_trans (Nat.le_add_right _ _) (ih h)

/-- A line stays the same just if it is exempt or settled. -/
theorem relaid_eq_bytes_iff {exempt : Nat → Bool} {column : Nat} {indent : List UInt8}
    {line : Line} :
    relaid exempt column indent line = line.bytes ↔
      (exempt line.start = false → Settled column indent line.bytes) := by
  rw [relaid]
  cases exempt line.start with
  | true => exact ⟨fun _ => nofun, fun _ => rfl⟩
  | false => exact movedLine_eq_self_iff.trans ⟨fun h _ => h, fun h => h rfl⟩

/-- Moved lines are lines again. -/
theorem lined_relaid {ls : List (List UInt8)} (h : Lined ls) {indent : List UInt8}
    (hindent : lineFeed ∉ indent) (exempt : Nat → Bool) (column offset : Nat) :
    Lined ((listFrom offset ls).map (relaid exempt column indent)) := by
  induction h generalizing offset with
  | @last l hl =>
    refine .last ?_
    unfold relaid
    split
    · exact hl
    · exact notMem_movedLine column hindent hl
  | @next l ls hl _ ih =>
    -- a line that is moved keeps its line feed, at the end
    obtain ⟨l', hl', hmoved⟩ := exists_movedLine_append column hindent hl
    rw [listFrom, List.map_cons]
    unfold relaid
    split
    · exact .next hl (ih _)
    · rw [hmoved]
      exact .next hl' (ih _)

/-- So they are behind a first line that is not moved. -/
theorem lined_cons_relaid {l : List UInt8} {ls : List (List UInt8)} (h : Lined (l :: ls))
    {indent : List UInt8}
    (hindent : lineFeed ∉ indent) (exempt : Nat → Bool) (column offset : Nat) :
    Lined (l :: (listFrom offset ls).map (relaid exempt column indent)) := by
  cases h with
  | last hl => exact .last hl
  | next hl h => exact .next hl (lined_relaid h hindent exempt column offset)

end Line

namespace Source

variable (s : Source)

/-- The lines of a range. -/
def linesIn (start stop : Nat) : List Line :=
  Line.listFrom start (lines (s.range start stop))

/-- The edits that move some lines, except those that are exempt. -/
def lineEdits (exempt : Nat → Bool) (column stop : Nat) (indent : String) (ls : List Line) :
    List Edit :=
  ((ls.map Line.start).filter fun offset => !exempt offset).map (s.lineEdit column stop indent)

variable {s}

/-- The offsets of the line feeds of lines. -/
theorem filterMap_lineFeed {ls : List (List UInt8)} (h : Lined ls) (offset : Nat) :
    ((ls.flatten.zipIdx offset).filterMap fun (b, i) =>
      if b == lineFeed then some i else none).map (· + 1)
      = (Line.listFrom offset ls).tail.map Line.start := by
  -- within a line there is none
  have hnone : ∀ {l : List UInt8} (offset : Nat), lineFeed ∉ l →
      ((l.zipIdx offset).filterMap fun (b, i) => if b == lineFeed then some i else none) = [] := by
    intro l offset hl
    refine List.filterMap_eq_nil_iff.2 fun (b, i) hmem => if_neg fun hb => hl ?_
    obtain rfl := beq_iff_eq.1 hb
    exact List.fst_mem_of_mem_zipIdx hmem
  induction h generalizing offset with
  | @last l hl =>
    rw [List.flatten_singleton, hnone offset hl]
    rfl
  | @next l ls hl h ih =>
    obtain ⟨l', ls', rfl⟩ := List.exists_cons_of_ne_nil h.ne_nil
    have hlength : offset + (l ++ [lineFeed]).length = offset + l.length + 1 := by
      rw [List.length_append, List.length_singleton, Nat.add_assoc]
    have hfirst := List.filterMap_cons_some
      (l := (l' :: ls').flatten.zipIdx (offset + l.length + 1))
      (f := fun (b, i) => if b == lineFeed then some i else none)
      (a := (lineFeed, offset + l.length)) (b := offset + l.length) rfl
    -- the line feed of the first line is the one before the second line
    rw [List.flatten_cons, List.append_assoc, List.zipIdx_append, List.filterMap_append,
      hnone offset hl, List.nil_append, List.singleton_append, List.zipIdx_cons, hfirst,
      List.map_cons, ih, ← hlength]
    rfl

/-- The search for line feeds finds the lines after the first. -/
theorem startsOfLines_eq (start stop : Nat) :
    (s.lineFeeds start stop).map (· + 1) = (s.linesIn start stop).tail.map Line.start := by
  have h := filterMap_lineFeed (lined_lines (s.range start stop)) start
  rwa [flatten_lines] at h

section Relaid

variable {start stop : Nat} {first : Line} {rest : List Line} {indent : List UInt8}

theorem lines_range (h : s.linesIn start stop = first :: rest) :
    lines (s.range start stop) = first.bytes :: rest.map Line.bytes := by
  rw [← List.map_cons, ← h, linesIn, Line.map_bytes_listFrom]

/-- The lines of a range whose lines after the first were moved are the moved lines. -/
theorem lines_relaid (h : s.linesIn start stop = first :: rest) (hindent : lineFeed ∉ indent)
    (exempt : Nat → Bool) (column : Nat) :
    lines (first.bytes ++ rest.flatMap (Line.relaid exempt column indent))
      = first.bytes :: rest.map (Line.relaid exempt column indent) := by
  have hlined := lined_lines (s.range start stop)
  rw [linesIn] at h
  cases hlines : lines (s.range start stop) with
  | nil => exact absurd hlines hlined.ne_nil
  | cons l ls =>
    rw [hlines] at h hlined
    obtain ⟨rfl, rfl⟩ := List.cons.inj h
    -- the moved lines are lines again, so that the text splits into them
    rw [List.flatMap_def, ← List.flatten_cons]
    exact (Line.lined_cons_relaid hlined hindent exempt column _).lines_flatten

/-- The range stays the same just if each line after its first is exempt or settled. -/
theorem relaid_eq_range_iff (h : s.linesIn start stop = first :: rest) (hindent : lineFeed ∉ indent)
    {exempt : Nat → Bool} {column : Nat} :
    first.bytes ++ rest.flatMap (Line.relaid exempt column indent) = s.range start stop ↔
      ∀ line ∈ rest, exempt line.start = false → Settled column indent line.bytes := by
  rw [← lines_inj, lines_relaid h hindent, lines_range h, List.cons_inj_right, List.map_inj_left]
  exact forall₂_congr fun line _ => Line.relaid_eq_bytes_iff

end Relaid

/-! ### The edit of a line -/

section Edits

variable {exempt : Nat → Bool} {column stop stop' : Nat} {indent : String}

theorem isLineEnd_of_getElem? {offset : Nat} {b : UInt8} (h : s.bytes[offset]? = some b) :
    s.isLineEnd offset = isLineBreak b := by
  obtain ⟨hlt, rfl⟩ := List.getElem?_eq_some_iff.1 h
  rw [isLineEnd, List.drop_eq_getElem_cons hlt]
  rfl

/-- The edit of a line with text does what moving the line does. -/
theorem exists_lineEdit {start : Nat} {line : List UInt8} (hbegins : line <+: s.range start stop)
    (htext : HasText line) (column : Nat) (indent : String) : ∃ count text,
      s.lineEdit column stop indent start = ⟨start, start + count, text⟩ ∧ count ≤ line.length ∧
      encode text ++ line.drop count = movedLine column (encode indent) line := by
  obtain ⟨more, hmore⟩ := hbegins
  obtain ⟨blanks, b, rest, hsplit, hblanks, hb⟩ := htext.split
  rw [hsplit, List.append_assoc, List.cons_append] at hmore
  -- up to the end of the node there are the same blanks as in the line, and then the same byte
  have hwidth : s.indentWidth start stop = blanks.length := by
    rw [indentWidth, ← hmore]
    exact indentOf_split hblanks hb
  have hbyte : (s.range start stop)[blanks.length]? = some b := by
    rw [← hmore, List.getElem?_append_right (Nat.le_refl _), Nat.sub_self]
    rfl
  have hedit : s.lineEdit column stop indent start
      = if isLineBreak b then ⟨start, start + blanks.length, ""⟩
      else ⟨start, start + min blanks.length column, indent⟩ := by
    rw [lineEdit, hwidth, isLineEnd_of_getElem? (getElem?_of_getElem?_range hbyte),
      Nat.add_min_add_left]
  have hlength : blanks.length ≤ line.length := by
    rw [hsplit, List.length_append]
    exact Nat.le_add_right _ _
  rw [hedit, movedLine, hsplit, isBlankLine_split hblanks hb, indentOf_split hblanks hb, ← hsplit]
  -- a blank line loses its blanks, another one as many as the column asks for
  cases isLineBreak b with
  | true => exact ⟨_, _, rfl, hlength, rfl⟩
  | false => exact ⟨_, _, rfl, Nat.le_trans (Nat.min_le_left _ _) hlength, rfl⟩

theorem lineEdits_cons_of_exempt {line : Line} (ls : List Line) (h : exempt line.start = true) :
    s.lineEdits exempt column stop indent (line :: ls)
      = s.lineEdits exempt column stop indent ls := by
  rw [lineEdits, List.map_cons, List.filter_cons_of_neg (by rw [h]; decide)]
  rfl

theorem lineEdits_cons {line : Line} (ls : List Line) (h : exempt line.start = false) :
    s.lineEdits exempt column stop indent (line :: ls)
      = s.lineEdit column stop indent line.start :: s.lineEdits exempt column stop indent ls := by
  rw [lineEdits, List.map_cons, List.filter_cons_of_pos (by rw [h]; rfl)]
  rfl

theorem le_start_of_mem_lineEdits {offset : Nat} {ls : List (List UInt8)} {e : Edit}
    (he : e ∈ s.lineEdits exempt column stop indent (Line.listFrom offset ls)) :
    offset ≤ e.start := by
  obtain ⟨lineBegin, hbegin, rfl⟩ := List.mem_map.1 he
  obtain ⟨line, hline, rfl⟩ := List.mem_map.1 (List.mem_filter.1 hbegin).1
  rw [start_lineEdit]
  exact Line.le_start_of_mem hline

/-- A range that is made up of two parts is cut between them. -/
theorem range_of_append {start : Nat} {l bs : List UInt8} (h : l ++ bs = s.range start stop)
    (hle : start ≤ stop) (hsize : stop ≤ s.size) :
    start + l.length ≤ stop ∧ s.range start (start + l.length) = l ∧
      s.range (start + l.length) stop = bs := by
  have hlength := congrArg List.length h
  rw [List.length_append, length_range hsize] at hlength
  -- the two cuts have first parts of the same length
  have hcut : s.range start (start + l.length) ++ s.range (start + l.length) stop = l ++ bs := by
    rw [h, range_append_range (Nat.le_add_right _ _) (by omega)]
  refine ⟨by omega, List.append_inj hcut ?_⟩
  rw [length_range (by omega), Nat.add_sub_cancel_left]

/-- **The walk goes from line to line.** Here `stop` is the end of the lines, and the edits may look
beyond it, up to `stop'`. -/
theorem weaveBytes_lineEdits {start : Nat} {ls : List (List UInt8)}
    (hls : ls.flatten = s.range start stop) (htext : ∀ l ∈ ls, HasText l) (hle : start ≤ stop)
    (hstop : stop ≤ stop') (hsize : stop ≤ s.size) :
    s.weaveBytes stop start (s.lineEdits exempt column stop' indent (Line.listFrom start ls))
      = (Line.listFrom start ls).flatMap (Line.relaid exempt column (encode indent)) := by
  induction ls generalizing start with
  | nil => exact hls.symm
  | cons l ls ih =>
    -- the line ends at `mid`, and the others begin there
    obtain ⟨hmid, hline⟩ := range_of_append (List.flatten_cons.symm.trans hls) hle hsize
    obtain ⟨mid, heq⟩ : ∃ mid, mid = start + l.length := ⟨_, rfl⟩
    rw [← heq] at hmid hline
    have hrest := ih hline.2.symm (fun l' hl' => htext l' (List.mem_cons_of_mem l hl')) (by omega)
    have hbehind : ∀ e ∈ s.lineEdits exempt column stop' indent (Line.listFrom mid ls),
        mid ≤ e.start := fun e he => le_start_of_mem_lineEdits he
    rw [Line.listFrom, ← heq, List.flatMap_cons, Line.relaid, ← hrest]
    cases hexempt : exempt start with
    | true =>
      -- the line stays, and the next edit starts behind it
      rw [lineEdits_cons_of_exempt _ hexempt, weaveBytes_eq_append (by omega) (by omega) hbehind,
        hline.1]
      rfl
    | false =>
      -- the line is moved by one edit, which takes bytes of this line only
      have hbegins : l <+: s.range start stop' := by
        refine ⟨s.range mid stop', ?_⟩
        rw [← hline.1, range_append_range (by omega) (by omega)]
      obtain ⟨count, text, hedit, hcount, hmoved⟩ :=
        exists_lineEdit hbegins (htext l List.mem_cons_self) column indent
      have hkept : s.range (start + count) mid = l.drop count := by
        rw [← hline.1, ← range_append_range (show start ≤ start + count by omega)
          (show start + count ≤ mid by omega),
          List.drop_left' (by rw [length_range (by omega)]; omega)]
      rw [lineEdits_cons _ hexempt, hedit, weaveBytes, range_self, List.nil_append,
        weaveBytes_eq_append (show start + count ≤ mid by omega) (by omega) hbehind, hkept,
        ← List.append_assoc, hmoved]
      rfl

/-- So does the walk over all lines of a range but the first, which is copied. -/
theorem weaveBytes_linesIn {start : Nat} (exempt : Nat → Bool) (column : Nat) (indent : String)
    (htext : ∀ l ∈ lines (s.range start stop), HasText l) (hle : start ≤ stop)
    (hstop : stop ≤ stop') (hsize : stop ≤ s.size) :
    ∃ first rest, s.linesIn start stop = first :: rest ∧
      s.weaveBytes stop start (s.lineEdits exempt column stop' indent (s.linesIn start stop).tail)
        = first.bytes ++ rest.flatMap (Line.relaid exempt column (encode indent)) := by
  have hflatten := flatten_lines (s.range start stop)
  obtain ⟨l, ls, hlines⟩ := List.exists_cons_of_ne_nil (lined_lines (s.range start stop)).ne_nil
  rw [hlines] at hflatten htext
  obtain ⟨hmid, hfirst, hrest⟩ := range_of_append (List.flatten_cons.symm.trans hflatten) hle hsize
  -- the first line has no edit, and the others follow where it ends
  have hlist : s.linesIn start stop = ⟨start, l⟩ :: Line.listFrom (start + l.length) ls := by
    rw [linesIn, hlines, Line.listFrom]
  refine ⟨_, _, hlist, ?_⟩
  rw [hlist, List.tail_cons,
    weaveBytes_eq_append (Nat.le_add_right _ _) hmid fun e he => le_start_of_mem_lineEdits he,
    hfirst,
    weaveBytes_lineEdits hrest.symm (fun l' hl' => htext l' (List.mem_cons_of_mem l hl')) hmid
      hstop hsize]

end Edits

end Source

/-! ### Template literals -/

namespace Node

/-- The template literals below a node. -/
def templateNodes (n : Node) : List Node :=
  (n.children.flatMap preorder).filter (·.kind == .templateString)

/-- The offset lies strictly inside a template literal below the node. -/
def inTemplate (n : Node) (offset : Nat) : Bool :=
  n.templateNodes.any fun t => decide (t.start < offset) && decide (offset < t.stop)

/-- The template literals below a node lie inside it, and one below another inside that. -/
structure TemplatesNest (n : Node) : Prop where
  within : ∀ t ∈ n.templateNodes, n.start ≤ t.start ∧ t.stop ≤ n.stop
  nested : ∀ u ∈ n.templateNodes, ∀ t ∈ u.templateNodes, u.start ≤ t.start ∧ t.stop ≤ u.stop

instance (n : Node) : Decidable n.TemplatesNest :=
  decidable_of_iff ((∀ t ∈ n.templateNodes, n.start ≤ t.start ∧ t.stop ≤ n.stop) ∧
      ∀ u ∈ n.templateNodes, ∀ t ∈ u.templateNodes, u.start ≤ t.start ∧ t.stop ≤ u.stop)
    ⟨fun h => ⟨h.1, h.2⟩, fun h => ⟨h.within, h.nested⟩⟩

variable {n t c : Node} {offset : Nat}

theorem mem_templateNodes : t ∈ n.templateNodes ↔ t.Below n ∧ t.kind = .templateString := by
  rw [templateNodes, List.mem_filter, List.mem_flatMap, beq_iff_eq]
  rfl

theorem mem_templateNodes_of_child (hc : c ∈ n.children) (ht : t ∈ c.templateNodes) :
    t ∈ n.templateNodes := by
  obtain ⟨hbelow, hkind⟩ := mem_templateNodes.1 ht
  exact mem_templateNodes.2 ⟨⟨c, hc, hbelow.mem_preorder⟩, hkind⟩

theorem inTemplate_iff :
    n.inTemplate offset = true ↔ ∃ t ∈ n.templateNodes, t.start < offset ∧ offset < t.stop := by
  simp [inTemplate]

theorem templatesAt_eq (n : Node) :
    n.templatesAt = if n.kind = .templateString then [(n.start, n.stop)] else n.templates := by
  cases n
  rfl

theorem templates_eq (n : Node) : n.templates = n.children.flatMap templatesAt := by
  have h : ∀ ns, templatesAmong ns = ns.flatMap templatesAt := by
    intro ns
    induction ns with
    | nil => rfl
    | cons n ns ih => rw [templatesAmong, ih, List.flatMap_cons]
  exact h n.children

/-- The ranges that are looked at are those of template literals. -/
theorem exists_of_mem_templates {r : Nat × Nat} (hr : r ∈ n.templates) :
    ∃ t ∈ n.templateNodes, r = (t.start, t.stop) := by
  induction n using childInduction with
  | step n ih =>
    rw [templates_eq] at hr
    obtain ⟨c, hc, hr⟩ := List.mem_flatMap.1 hr
    -- the search goes below a child unless the child is a template literal
    rw [templatesAt_eq] at hr
    split at hr
    · next hkind =>
      exact ⟨c, mem_templateNodes.2 ⟨⟨c, hc, mem_preorder_self c⟩, hkind⟩, List.mem_singleton.1 hr⟩
    · obtain ⟨t, ht, hrange⟩ := ih c hc hr
      exact ⟨t, mem_templateNodes_of_child hc ht, hrange⟩

/-- Each template literal is one of those that are looked at, or stands in one of them. -/
theorem exists_mem_templates (ht : t ∈ n.templateNodes) :
    ∃ u ∈ n.templateNodes, (u.start, u.stop) ∈ n.templates ∧ (t = u ∨ t ∈ u.templateNodes) := by
  induction n using childInduction with
  | step n ih =>
    obtain ⟨⟨c, hc, hbelow⟩, hkind⟩ := mem_templateNodes.1 ht
    have hranges : ∀ r ∈ c.templatesAt, r ∈ n.templates := by
      intro r hr
      rw [templates_eq]
      exact List.mem_flatMap.2 ⟨c, hc, hr⟩
    rw [templatesAt_eq] at hranges
    by_cases hc' : c.kind = .templateString
    · -- the child is a template literal, and what is in it is in its range
      rw [if_pos hc'] at hranges
      refine ⟨c, mem_templateNodes.2 ⟨⟨c, hc, mem_preorder_self c⟩, hc'⟩,
        hranges _ List.mem_cons_self, ?_⟩
      exact (mem_preorder_iff.1 hbelow).imp id fun hbelow => mem_templateNodes.2 ⟨hbelow, hkind⟩
    · -- the child is no template literal, and so the one in it stands below
      rw [if_neg hc'] at hranges
      have hbelow := (mem_preorder_iff.1 hbelow).resolve_left fun heq => hc' (heq ▸ hkind)
      obtain ⟨u, hu, hrange, hin⟩ := ih c hc (mem_templateNodes.2 ⟨hbelow, hkind⟩)
      exact ⟨u, mem_templateNodes_of_child hc hu, hranges _ hrange, hin⟩

/-- Looking at the outermost template literals is enough. -/
theorem isWithin_templates (h : n.TemplatesNest) (offset : Nat) :
    isWithin offset n.templates = n.inTemplate offset := by
  have hwithin : isWithin offset n.templates = true ↔
      ∃ r ∈ n.templates, r.1 < offset ∧ offset < r.2 := by
    simp [isWithin]
  rw [Bool.eq_iff_iff, hwithin, inTemplate_iff]
  constructor
  · rintro ⟨r, hr, hoffset⟩
    obtain ⟨t, ht, rfl⟩ := exists_of_mem_templates hr
    exact ⟨t, ht, hoffset⟩
  · rintro ⟨t, ht, hstart, hstop⟩
    obtain ⟨u, hu, hrange, rfl | hin⟩ := exists_mem_templates ht
    · exact ⟨_, hrange, hstart, hstop⟩
    · -- an inner literal lies within the outer one, whose range is listed
      have := h.nested u hu t hin
      exact ⟨_, hrange, show u.start < offset by omega, show offset < u.stop by omega⟩

end Node

/-! ### The lines of a node -/

namespace Script

variable {s : Script} {n : Node} {edits : List Edit} {indent : String}

/-- The lines of a node. -/
def linesOf (s : Script) (n : Node) : List Line :=
  s.source.linesIn n.start n.stop

/-- There is more than blanks in the last line of a node. -/
def EndsWithText (s : Script) (n : Node) : Prop :=
  ∃ line ∈ (s.linesOf n).getLast?, HasText line.bytes

instance (s : Script) (n : Node) : Decidable (s.EndsWithText n) :=
  inferInstanceAs (Decidable (∃ line ∈ (s.linesOf n).getLast?, HasText line.bytes))

/-- A line of a node after it was moved to `indent`. -/
def relaid (s : Script) (n : Node) (indent : String) : Line → List UInt8 :=
  Line.relaid n.inTemplate (s.source.column n.start) (encode indent)

/-- The edits that move a node, line by line. -/
theorem shiftEdits_nil (h : n.TemplatesNest) : s.shiftEdits n [] indent
    = s.source.lineEdits n.inTemplate (s.source.column n.start) n.stop indent
      (s.linesOf n).tail := by
  -- no edits were given, and so all lines are free to be moved
  have hall : ∀ moves : List Edit, moves.filter
      (fun e => !([] : List Edit).any (·.touches e.start e.stop)) = moves :=
    fun moves => List.filter_eq_self.2 fun _ _ => rfl
  refine (hall _).trans ?_
  rw [startsOfLines, Source.startsOfLines_eq]
  simp only [Node.isWithin_templates h]
  rfl

theorem successive_shiftEdits (s : Script) (n : Node) (edits : List Edit) (indent : String) :
    Edit.Successive n.start n.stop (s.shiftEdits n edits indent) where
  within e he := by
    obtain ⟨hstart, hstop⟩ := within_of_mem_shiftEdits he
    exact ⟨hstart, start_le_stop_of_mem_shiftEdits he, hstop⟩
  ordered := (s.pairwise_shiftEdits n edits indent).imp And.right

/-- Edits that follow one another and start at different places are all made. -/
theorem exists_withEdits_of_successive {start stop : Nat} {es : List Edit}
    (hes : Edit.Successive start stop es) (hsorted : es.Pairwise fun a b => a.start < b.start)
    (hstart : s.source.IsBoundary start) (hstop : s.source.IsBoundary stop)
    (hbounds : ∀ e ∈ es, e.OnBoundaries s.source) : ∃ text,
      s.withEdits start stop es = .ok text ∧ encode text = s.source.weaveBytes stop start es := by
  -- successive edits are in order already, and all of them are applied
  have happlied : Edit.applied start stop es = es := by
    rw [Edit.applied, Edit.inOrder_eq_self (hsorted.imp fun h => Edit.precedes_iff.2 (.inl h)),
      Edit.admitted_eq_self hes]
  obtain ⟨text, htext, hbytes⟩ := exists_withEdits hstart hstop hbounds
  rw [happlied] at hbytes
  exact ⟨text, htext, hbytes⟩

/-- A node is rendered by making all the edits that move its lines. -/
theorem exists_render_nil (hn : n.OnBoundaries s.source) (indent : String) : ∃ text,
    s.render n [] indent = .ok text ∧
      encode text = s.source.weaveBytes n.stop n.start (s.shiftEdits n [] indent) :=
  exists_withEdits_of_successive (s.successive_shiftEdits n [] indent)
    ((s.pairwise_shiftEdits n [] indent).imp And.left) hn.start hn.stop fun _ he =>
      onBoundaries_of_mem_shiftEdits he

/-- In a node that ends with text all lines have some. -/
theorem EndsWithText.hasText (h : s.EndsWithText n) :
    ∀ l ∈ lines (s.source.range n.start n.stop), HasText l := by
  obtain ⟨line, hline, htext⟩ := h
  -- all lines but the last have a line feed
  refine (lined_lines _).hasText fun l hl => ?_
  have hlast := congrArg (Option.map Line.bytes) hline
  rw [← List.getLast?_map, linesOf, Source.linesIn, Line.map_bytes_listFrom] at hlast
  obtain rfl := Option.some.inj (hl.symm.trans hlast)
  exact htext

/-- A node whose lines all have text ends with some. -/
theorem endsWithText_of_hasText (h : ∀ l ∈ lines (s.source.range n.start n.stop), HasText l) :
    s.EndsWithText n := by
  have hbytes : (s.linesOf n).map Line.bytes = lines (s.source.range n.start n.stop) :=
    Line.map_bytes_listFrom _ _
  have hne : s.linesOf n ≠ [] := by
    intro hnil
    rw [hnil] at hbytes
    exact (lined_lines _).ne_nil hbytes.symm
  refine ⟨(s.linesOf n).getLast hne, List.getLast?_eq_some_getLast hne, h _ ?_⟩
  rw [← hbytes]
  exact List.mem_map_of_mem (List.getLast_mem hne)

theorem EndsWithText.start_le (h : s.EndsWithText n) : n.start ≤ n.stop := by
  by_contra hlt
  have hempty : s.source.range n.start n.stop = [] := by
    rw [Source.range, Nat.sub_eq_zero_of_le (by omega), List.take_zero]
  obtain ⟨b, hb, -⟩ := h.hasText [] (by rw [hempty]; exact List.mem_cons_self)
  cases hb

/-- **The first line of a node stays, and each of the others is moved on its own.** -/
theorem exists_render_lines (hn : n.OnBoundaries s.source) (htemplates : n.TemplatesNest)
    (hlast : s.EndsWithText n) (indent : String) :
    ∃ first rest text, s.linesOf n = first :: rest ∧ s.render n [] indent = .ok text ∧
      encode text = first.bytes ++ rest.flatMap (s.relaid n indent) := by
  obtain ⟨text, htext, hbytes⟩ := exists_render_nil hn indent
  obtain ⟨first, rest, hlines, hmoved⟩ :=
    Source.weaveBytes_linesIn n.inTemplate (s.source.column n.start) indent hlast.hasText
      hlast.start_le (Nat.le_refl n.stop) hn.stop.le_size
  refine ⟨first, rest, text, hlines, htext, ?_⟩
  rw [hbytes, shiftEdits_nil htemplates]
  exact hmoved

end Script

end Disinherit
