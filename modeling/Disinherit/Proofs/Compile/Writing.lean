import Disinherit.Compile
import Disinherit.Proofs.Compile.Reading
import Disinherit.Proofs.Super.Rendered

/-!
# What can be written from a tree

Writing a class takes texts out of the source a second time, now at offsets that are computed: edits
replace names, references and calls, a removed statement takes its line along, and lines move to
another indentation. In a tree on boundaries all these edits have their ends on boundaries
(`onBoundaries_of_mem_excerpts`), so that every class of a registry can be flattened
(`succeeds_flatten`), and the script be written out with its classes flattened (`succeeds_emit`).
-/

namespace Disinherit

open Node

/-! ### Edits -/

/-- The range that removes a statement begins at the statement or its line, and ends after blanks or
a line break. -/
theorem Source.isBoundary_removalRange {s : Source} {start stop : Nat} (hstart : s.IsBoundary start)
    (hstop : s.IsBoundary stop) :
    s.IsBoundary (s.removalRange start stop).1 ∧ s.IsBoundary (s.removalRange start stop).2 := by
  have hline := s.isBoundary_startOfLine start
  -- blanks are single bytes, so that behind them there is a boundary again
  have hnext : s.IsBoundary (stop + ((s.bytes.drop stop).takeWhile Text.isIndentByte).length) := by
    refine isBoundary_of_indent (fun i b hb => ?_) hstop (Nat.le_refl _)
    rwa [List.getElem?_drop] at hb
  unfold removalRange
  dsimp only
  split
  · split
    · exact ⟨hline, s.isBoundary_size⟩
    · exact ⟨hstart, hnext⟩
  · next b rest hdrop =>
    -- what follows the blanks
    have hbytes : ∀ i, s.bytes[stop + ((s.bytes.drop stop).takeWhile Text.isIndentByte).length + i]?
        = (b :: rest)[i]? := by
      intro i
      rw [← List.getElem?_drop, hdrop]
    split
    · next hfeed =>
      -- the line ends there, and the line feed is cut out as well
      obtain rfl := beq_iff_eq.1 (Bool.and_eq_true_iff.1 hfeed).2
      exact ⟨hline, (isBoundary_of_ascii (hbytes 0) (by decide)).2⟩
    · split
      · next hbreak =>
        have hfeed := beq_iff_eq.1 (Bool.and_eq_true_iff.1 hbreak).2
        have hbyte := (hbytes 1).trans (List.head?_eq_getElem?.symm.trans hfeed)
        exact ⟨hline, (isBoundary_of_ascii hbyte (by decide)).2⟩
      · exact ⟨hstart, hnext⟩

/-- The edit of a reference lies on boundaries if the reference and the node it stands in do. -/
theorem Edit.AtSite.onBoundaries {s : Source} {base : Prop} {p : SuperSite} {e : Edit}
    (h : e.AtSite s base p) (hnode : p.node.OnBoundaries s) (hparent : p.parent.OnBoundaries s) :
    e.OnBoundaries s := by
  cases h with
  | named text _ => exact ⟨hnode.start, hnode.stop⟩
  | callee text hcall =>
    obtain ⟨-, -, hcallee, -⟩ := SuperCall.at?_eq_some hcall
    exact ⟨(hnode.child hcallee).start, (hnode.child hcallee).stop⟩
  | suffix text hcall =>
    obtain ⟨-, hsame, -⟩ := SuperCall.at?_eq_some hcall
    rw [hsame]
    exact ⟨hnode.stop, hnode.stop⟩
  | taken _ hcall htakes =>
    obtain ⟨-, hsame, -, hstmt⟩ := SuperCall.at?_eq_some hcall
    unfold SuperCall.Takes at htakes
    split at htakes
    · next stmt hsome =>
      rw [hsome] at hstmt
      split at hstmt
      · -- the call goes with its statement
        obtain rfl := Option.some.inj hstmt
        rw [htakes]
        obtain ⟨hstart, hstop⟩ := Source.isBoundary_removalRange hparent.start hparent.stop
        exact ⟨hstart, hstop⟩
      · cases hstmt
    · rw [htakes, hsame]
      exact ⟨hnode.start, hnode.stop⟩

/-! ### Excerpts -/

/-- All that an excerpt takes from the source lies on boundaries. -/
structure Excerpt.OnBoundaries (s : Source) (x : Excerpt) : Prop where
  node : x.member.node.OnBoundaries s
  comments : ∀ c ∈ x.member.comments, c.OnBoundaries s
  edits : ∀ e ∈ x.edits, e.OnBoundaries s

section Excerpts

variable {s : Script} {r : Registry} {l : Lineage} {p : Progress} {x : Excerpt} {target : String}

theorem Script.Records.onBoundaries_site {m : Member} (h : s.Records m)
    (hnode : m.node.OnBoundaries s.source) {ref : SuperReference} (href : ref ∈ m.references) :
    ref.node.OnBoundaries s.source ∧ ref.parent.OnBoundaries s.source := by
  obtain ⟨hparent, hchild⟩ := mem_superSites (h.site_mem href)
  have hparent' := hnode.of_mem hparent
  exact ⟨hparent'.of_mem_children hchild, hparent'⟩

/-- The edits of an excerpt, whatever they are for, lie on boundaries. -/
theorem Excerpt.Consists.onBoundaries {renames calls : List Edit}
    (h : x.Consists s l p renames calls) (hrec : s.Records x.member)
    (hnode : x.member.node.OnBoundaries s.source) {e : Edit} (he : e ∈ x.edits) :
    e.OnBoundaries s.source := by
  rcases List.mem_append.1 (h.perm.mem_iff.1 he) with he | he
  · -- a new name takes the place of a node
    obtain ⟨hmethod, n, text, hn, rfl⟩ := h.exists_name he
    rw [Member.nameNode?, memberName?, hmethod] at hn
    exact ⟨(hnode.child hn).start, (hnode.child hn).stop⟩
  · rcases List.mem_append.1 he with he | he
    · -- so does what is written for a reference
      obtain ⟨ref, href, he⟩ := List.mem_filterMap.1 he
      have hsite := (hrec.onBoundaries_site hnode href).1
      unfold Progress.editFor? at he
      split at he
      · obtain ⟨name, -, rfl⟩ := Option.map_eq_some_iff.1 he
        exact ⟨hsite.start, hsite.stop⟩
      · cases he
    · -- calls of constructors have edits of several forms
      obtain ⟨ref, href, -, hat⟩ := h.exists_call hrec he
      obtain ⟨hsite, hparent⟩ := hrec.onBoundaries_site hnode href
      exact hat.onBoundaries hsite hparent

/-- A class that stands alone is written with its own members. -/
theorem member_mem_of_not_isActive (h : l.isActive = false) (hx : x ∈ (s.resolve l).excerpts) :
    x.member ∈ l.members.toList := by
  rw [Script.resolve, h] at hx
  simp only [Bool.false_eq_true, if_false, Resolution.excerpts, List.append_nil] at hx
  obtain ⟨y, hy, hx⟩ := List.mem_flatMap.1 hx
  obtain ⟨m, hm, rfl⟩ := List.mem_map.1 hy
  split at hx
  · obtain ⟨m', hm', rfl⟩ := Option.map_eq_some_iff.1 (Option.mem_toList.1 hx)
    exact Members.mem_toList.2 (.inr hm')
  · rw [List.mem_singleton.1 hx]
    exact hm

/-- Every excerpt is of a member that some class of the ancestry declares. -/
theorem exists_of_mem_excerpts (hr : s.registry = .ok r)
    (hx : x ∈ (s.resolve (r.lineage target)).excerpts) :
    ∃ d ∈ r.ancestry target, x.member ∈ d.members.toList := by
  cases hactive : (r.lineage target).isActive with
  | true =>
    obtain ⟨p, names, h⟩ := exists_outcome s hactive
    exact exists_of_renders hr h.valid (h.rendering hx).renders
  | false => exact exists_of_mem_lineage hr (member_mem_of_not_isActive hactive hx)

theorem onBoundaries_statement (hr : s.registry = .ok r) (hroot : s.root.OnBoundaries s.source)
    {d : ClassDecl} (hd : d ∈ r.classes) : d.statement.OnBoundaries s.source :=
  hroot.of_mem_namedChildren ((Script.statements_sublist hr).mem (List.mem_map_of_mem hd))

theorem onBoundaries_of_mem_ancestry (hr : s.registry = .ok r)
    (hroot : s.root.OnBoundaries s.source) {d : ClassDecl} (hd : d ∈ r.ancestry target) :
    d.node.OnBoundaries s.source := by
  have hstmt := onBoundaries_statement hr hroot (Registry.mem_classes_of_mem_ancestry hd)
  exact hstmt.of_mem (mem_preorder_of_declaredClass (Script.registers_of_ancestry hr hd).class_eq)

/-- **Nothing that a resolved class takes from the source cuts a character.** -/
theorem onBoundaries_of_mem_excerpts (hr : s.registry = .ok r)
    (hroot : s.root.OnBoundaries s.source) (hx : x ∈ (s.resolve (r.lineage target)).excerpts) :
    x.OnBoundaries s.source := by
  obtain ⟨d, hd, hm⟩ := exists_of_mem_excerpts hr hx
  have hreg := Script.registers_of_ancestry hr hd
  have hnode := hroot.of_mem (mem_preorder_of_mem_ancestry hr hd hm)
  refine ⟨hnode, fun c hc => ?_, fun e he => ?_⟩
  · -- comments stand in the body of the class
    have hclass := onBoundaries_of_mem_ancestry hr hroot hd
    exact hclass.of_mem (mem_preorder_of_mem_bodyItems (hreg.comments_subset hm hc))
  · cases hactive : (r.lineage target).isActive with
    | true =>
      obtain ⟨p, names, h⟩ := exists_outcome s hactive
      obtain ⟨renames, calls, hconsists⟩ := h.exists_consists hr hx
      exact hconsists.onBoundaries (hreg.records hm) hnode he
    | false =>
      rw [(resolve_of_not_isActive hactive).2.2.2 x hx] at he
      cases he

end Excerpts

/-! ### The text of a class -/

namespace Script

variable {s : Script} {r : Registry}

theorem succeeds_memberText {x : Excerpt} (hx : x.OnBoundaries s.source) (lead : String) :
    Attempt.Succeeds (s.memberText x lead) := by
  have hrender : Attempt.Succeeds (s.render x.member.node x.edits lead) :=
    exists_render hx.node.start hx.node.stop hx.edits lead
  refine hrender.bind fun text _ => ?_
  dsimp only
  split
  · exact ⟨_, rfl⟩
  · next comment hcomment =>
    have hmem : comment ∈ x.member.comments :=
      List.mem_append_right _ (Option.mem_toList.2 hcomment)
    exact (succeeds_text (hx.comments comment hmem)).map

theorem succeeds_writeComments {comments : List Node} (h : ∀ c ∈ comments, c.OnBoundaries s.source)
    (w : LineWriter) : Attempt.Succeeds (s.writeComments w comments) := by
  induction comments generalizing w with
  | nil => exact ⟨w, rfl⟩
  | cons c comments ih =>
    have hc := h c List.mem_cons_self
    have hrender : Attempt.Succeeds (s.render c [] w.lead) :=
      exists_render hc.start hc.stop (by simp) w.lead
    exact hrender.bind fun text _ => ih (fun c' hc' => h c' (List.mem_cons_of_mem c hc')) _

theorem succeeds_writeMembers {xs : List Excerpt} (h : ∀ x ∈ xs, x.OnBoundaries s.source)
    (o : Options) (target : String) (w : LineWriter) :
    Attempt.Succeeds (s.writeMembers o target w xs) := by
  induction xs generalizing w with
  | nil => exact ⟨w, rfl⟩
  | cons x xs ih =>
    have hx := h x List.mem_cons_self
    have hleading : ∀ c ∈ x.member.leading, c.OnBoundaries s.source := fun c hc =>
      hx.comments c (List.mem_append_left _ hc)
    refine (succeeds_writeComments hleading _).bind fun w' _ => ?_
    refine (succeeds_memberText hx _).bind fun text _ => ?_
    exact ih (fun x' hx' => h x' (List.mem_cons_of_mem x hx')) _

theorem succeeds_memberIndentation? {cls : Node} (h : cls.OnBoundaries s.source) :
    Attempt.Succeeds (s.memberIndentation? cls) := by
  unfold memberIndentation?
  split
  · exact ⟨_, rfl⟩
  · next member hmember =>
    have hitem := h.of_mem (mem_preorder_of_mem_bodyItems (List.mem_of_find?_eq_some hmember))
    have hslice : Attempt.Succeeds (s.slice (s.source.startOfLine member.start) member.start) :=
      exists_slice (s.source.isBoundary_startOfLine _) hitem.start
    exact hslice.map

theorem succeeds_indentationOf {stmts : List Node}
    (h : ∀ stmt ∈ stmts, stmt.OnBoundaries s.source) :
    Attempt.Succeeds (s.indentationOf stmts) := by
  induction stmts with
  | nil => exact ⟨_, rfl⟩
  | cons stmt stmts ih =>
    have hrest := ih fun stmt' h' => h stmt' (List.mem_cons_of_mem stmt h')
    rw [indentationOf]
    split
    · exact hrest
    · next cls hcls =>
      have hclass := (h stmt List.mem_cons_self).of_mem (mem_preorder_of_declaredClass hcls)
      refine (succeeds_memberIndentation? hclass).bind fun indent? _ => ?_
      cases indent? with
      | none => exact hrest
      | some indent => exact ⟨indent, rfl⟩

theorem succeeds_indentation (hroot : s.root.OnBoundaries s.source) :
    Attempt.Succeeds s.indentation :=
  succeeds_indentationOf fun _ hstmt => hroot.of_mem_namedChildren hstmt

theorem succeeds_writeClass (hroot : s.root.OnBoundaries s.source) {c : Resolution}
    (hc : ∀ x ∈ c.excerpts, x.OnBoundaries s.source) (o : Options) (d : ClassDecl) :
    Attempt.Succeeds (s.writeClass o d c) := by
  refine (succeeds_indentation hroot).bind fun indentation _ => ?_
  dsimp only
  split
  · exact ⟨_, rfl⟩
  · exact (succeeds_writeMembers hc o d.name _).map

/-- **Every class can be flattened.** -/
theorem succeeds_flatten (hr : s.registry = .ok r) (hroot : s.root.OnBoundaries s.source)
    (o : Options) (d : ClassDecl) : Attempt.Succeeds (s.flatten r o d) :=
  (succeeds_writeClass hroot (fun _ hx => onBoundaries_of_mem_excerpts hr hroot hx) o d).map

theorem succeeds_replaceFrom (hr : s.registry = .ok r) (hroot : s.root.OnBoundaries s.source)
    (o : Options) {ds : List ClassDecl} (hds : ∀ d ∈ ds, d ∈ r.classes) {cursor : Nat}
    (hcursor : s.source.IsBoundary cursor) : Attempt.Succeeds (s.replaceFrom r o cursor ds) := by
  induction ds generalizing cursor with
  | nil =>
    -- the rest of the source
    have hslice : Attempt.Succeeds (s.slice cursor s.source.size) :=
      exists_slice hcursor s.source.isBoundary_size
    exact hslice.map
  | cons d ds ih =>
    -- what is between the classes is kept, and each class is written or left out
    have hbounds := onBoundaries_statement hr hroot (hds d List.mem_cons_self)
    have hslice : Attempt.Succeeds (s.slice cursor d.statement.start) :=
      exists_slice hcursor hbounds.start
    have hplaced : Attempt.Succeeds (s.replacement r o d) := by
      unfold replacement
      split
      · exact succeeds_flatten hr hroot o d
      · exact ⟨_, rfl⟩
    refine hslice.bind fun kept _ => hplaced.bind fun placed _ => ?_
    exact (ih (fun d' hd' => hds d' (List.mem_cons_of_mem d hd')) hbounds.stop).map

/-- **The script can be written out** with its classes flattened. -/
theorem succeeds_emit (hr : s.registry = .ok r) (hroot : s.root.OnBoundaries s.source)
    (o : Options) : Attempt.Succeeds (s.emit r o) :=
  succeeds_replaceFrom hr hroot o (fun _ hd => hd) s.source.isBoundary_zero

end Script

end Disinherit
