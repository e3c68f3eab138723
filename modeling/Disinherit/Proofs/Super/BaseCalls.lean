import Disinherit.Proofs.Super.Account
import Disinherit.Proofs.Super.Overlap

/-!
# Arguments at the base of a chain

The first constructor of a chain has nothing to call. A `super(...)` call in it is taken away, or
its arguments are kept for their effects and `void` is put in front of them. Then a list of
arguments stands where an expression in parentheses has to stand, and not every list of arguments is
one: it may be empty, spread something, or end with a comma. `Node.IsCommaExpression` lists these
three faults, and `Node.IsArgumentList.isCommaExpression_iff` says that there is no other.

The call is judged by the named children of its arguments, comments among them. A spread is never
kept, and neither is an empty list. But a list with nothing but a comment in it counts as one with
arguments, and a comma at the end is not looked at (`legal_baseCall_iff`).

Whether the arguments of a call are kept is told by the edits of the constructor (`Excerpt.Keeps`).
No other edit has the text `void`, and the place of the edit tells the call, because calls start at
different places (`Member.superCall_eq_of_start_eq`).
-/

namespace Disinherit

open Progress

/-! ### Expressions in parentheses -/

namespace Node

/-- A comment of either form. -/
def isComment (n : Node) : Bool :=
  n.kind == .comment || n.kind == .other "html_comment"

/-- The children of a node without comments. -/
def tokens (n : Node) : List Node :=
  n.children.filter (!·.isComment)

/-- The children of a node that are neither comments nor punctuation. -/
def expressions (n : Node) : List Node :=
  n.tokens.filter (·.named)

def isComma (n : Node) : Bool :=
  n.isWord (.other ",")

/-- A comma comes right before the closing parenthesis. -/
def endsWithComma (n : Node) : Bool :=
  n.tokens.dropLast.getLast?.any isComma

/-- A list in parentheses that can stand as an expression. -/
structure IsCommaExpression (n : Node) : Prop where
  nonempty : n.expressions ≠ []
  plain : ∀ a ∈ n.expressions, a.kind ≠ .spreadElement
  closed : n.endsWithComma = false

/-- Nodes that pass a test, at least one, with commas between them. -/
inductive CommaSeparated (q : Node → Prop) : List Node → Prop where
  | single {a : Node} : q a → CommaSeparated q [a]
  | cons {a comma : Node} {rest : List Node} : q a → comma.isComma = true → CommaSeparated q rest →
    CommaSeparated q (a :: comma :: rest)

/-- A node consists of parentheses around some others, comments left aside. -/
def Encloses (n : Node) (items : List Node) : Prop :=
  ∃ left right : Node, left.isWord (.other "(") = true ∧ right.isWord (.other ")") = true ∧
    n.tokens = left :: (items ++ [right])

/-- The arguments of a call: perhaps none, and perhaps with a comma at the end. -/
def IsArgumentList (n : Node) : Prop :=
  ∃ items, n.Encloses items ∧ (items = [] ∨ CommaSeparated (·.named = true) items ∨
    ∃ front comma, items = front ++ [comma] ∧ comma.isComma = true ∧
      CommaSeparated (·.named = true) front)

/-- An expression in parentheses: one or more, with commas between them. -/
def IsSequence (n : Node) : Prop :=
  ∃ items, n.Encloses items ∧
    CommaSeparated (fun a => a.named = true ∧ a.kind ≠ .spreadElement) items

theorem named_of_isWord {n : Node} {k : Kind} (h : n.isWord k = true) : n.named = false := by
  simpa using (Bool.and_eq_true_iff.1 h).2

namespace CommaSeparated

variable {q q' : Node → Prop} {items : List Node}

/-- What is no comma passes the test. -/
theorem of_named (h : CommaSeparated q items) {a : Node} (ha : a ∈ items)
    (hnamed : a.named = true) : q a := by
  induction h with
  | single hq =>
    rw [List.mem_singleton.1 ha]
    exact hq
  | cons hq hcomma _ ih =>
    rcases List.mem_cons.1 ha with rfl | ha
    · exact hq
    · rcases List.mem_cons.1 ha with rfl | ha
      · -- a comma is a word, and so it is not named
        rw [named_of_isWord hcomma] at hnamed
        cases hnamed
      · exact ih ha

theorem imp (h : CommaSeparated q items) (himp : ∀ a ∈ items, q a → q' a) :
    CommaSeparated q' items := by
  induction h with
  | single hq => exact .single (himp _ List.mem_cons_self hq)
  | cons hq hcomma _ ih =>
    refine .cons (himp _ List.mem_cons_self hq) hcomma (ih fun a ha => ?_)
    exact himp a (List.mem_cons_of_mem _ (List.mem_cons_of_mem _ ha))

/-- The last node passes the test. -/
theorem exists_getLast? (h : CommaSeparated q items) : ∃ a, items.getLast? = some a ∧ q a := by
  induction h with
  | single hq => exact ⟨_, rfl, hq⟩
  | cons hq hcomma hrest ih =>
    obtain ⟨a, hlast, ha⟩ := ih
    refine ⟨a, ?_, ha⟩
    rw [List.getLast?_cons, List.getLast?_cons, hlast]
    rfl

end CommaSeparated

namespace Encloses

variable {n : Node} {items : List Node}

/-- Parentheses are no expressions. -/
theorem expressions_eq (h : n.Encloses items) : n.expressions = items.filter (·.named) := by
  obtain ⟨left, right, hleft, hright, htokens⟩ := h
  rw [expressions, htokens, List.filter_cons_of_neg (by simp [named_of_isWord hleft]),
    List.filter_append,
    List.filter_cons_of_neg (by simp [named_of_isWord hright]), List.filter_nil, List.append_nil]

theorem endsWithComma_eq (h : n.Encloses items) (hne : items ≠ []) :
    n.endsWithComma = items.getLast?.any isComma := by
  obtain ⟨left, right, -, -, htokens⟩ := h
  obtain ⟨front, last, rfl⟩ := (List.eq_nil_or_concat items).resolve_left hne
  rw [List.concat_eq_append] at htokens ⊢
  rw [endsWithComma, htokens, ← List.cons_append, List.dropLast_concat, ← List.cons_append,
    List.getLast?_concat, List.getLast?_concat]

end Encloses

/-- **The three faults are all** that keeps a list of arguments from being an expression in
parentheses. -/
theorem IsArgumentList.isCommaExpression_iff {n : Node} (h : n.IsArgumentList) :
    n.IsCommaExpression ↔ n.IsSequence := by
  constructor
  · intro hlegal
    obtain ⟨items, hitems, hform⟩ := h
    -- an argument list is empty, or a sequence, or a sequence with a comma after it
    rcases hform with rfl | hseparated | ⟨front, comma, rfl, hcomma, -⟩
    · exact absurd hitems.expressions_eq hlegal.nonempty
    · refine ⟨items, hitems, hseparated.imp fun a ha hnamed => ⟨hnamed, hlegal.plain a ?_⟩⟩
      rw [hitems.expressions_eq]
      exact List.mem_filter.2 ⟨ha, hnamed⟩
    · -- the comma at the end would be seen
      have hclosed := hlegal.closed
      rw [hitems.endsWithComma_eq (by simp), List.getLast?_concat, Option.any_some,
        hcomma] at hclosed
      cases hclosed
  · rintro ⟨items, hitems, hseparated⟩
    obtain ⟨last, hlast, hnamed, -⟩ := hseparated.exists_getLast?
    have hmem : last ∈ items := List.mem_of_getLast? hlast
    constructor
    case nonempty =>
      rw [hitems.expressions_eq]
      exact List.ne_nil_of_mem (List.mem_filter.2 ⟨hmem, hnamed⟩)
    case plain =>
      intro a ha
      rw [hitems.expressions_eq] at ha
      obtain ⟨ha, hnamed⟩ := List.mem_filter.1 ha
      exact (hseparated.of_named ha hnamed).2
    -- the last item is an expression and so no comma
    case closed =>
      rw [hitems.endsWithComma_eq (List.ne_nil_of_mem hmem), hlast, Option.any_some,
        isComma, isWord, hnamed, Bool.not_true, Bool.and_false]

/-- A spread is no comment. -/
theorem mem_expressions_of_spread {n a : Node} (h : a.kind = .spreadElement) :
    a ∈ n.expressions ↔ a ∈ n.namedChildren := by
  have hcomment : a.isComment = false := by simp [isComment, h]
  simp [expressions, tokens, namedChildren, hcomment]

end Node

/-! ### Calls and their edits -/

namespace Member

variable {m : Member} {call call' : SuperCall}

/-- A call begins with its keyword. -/
theorem start_callee (hm : m.node.WellSpanned) (hcall : call ∈ m.superCalls) :
    call.callee.start = call.node.start := by
  obtain ⟨site, hsite, hat⟩ := List.mem_filterMap.1 hcall
  obtain ⟨hkind, hnode, hcallee, -⟩ := SuperCall.at?_eq_some hat
  have hsites := Node.sites_superSites hm m.nameNode?
  have hsuper := Node.isSuperCall_of_kind (hsites.isSuper site hsite) hkind
  rw [hnode]
  exact ((hsites.wellSpanned site hsite).spansWell.call hsuper call.callee hcallee).1

/-- The place of a call tells the call. -/
theorem superCall_eq_of_start_eq (hm : m.node.WellSpanned) (hcall : call ∈ m.superCalls)
    (hcall' : call' ∈ m.superCalls) (hstart : call.node.start = call'.node.start) :
    call = call' := by
  obtain ⟨site, hsite, hat⟩ := List.mem_filterMap.1 hcall
  obtain ⟨site', hsite', hat'⟩ := List.mem_filterMap.1 hcall'
  rw [(SuperCall.at?_eq_some hat).2.1, (SuperCall.at?_eq_some hat').2.1] at hstart
  have hsame : site = site' := by
    -- of two sites one starts before the other
    by_contra hne
    have hincreasing := (Node.sites_superSites hm m.nameNode?).increasing
    rcases pairwise_or hincreasing hsite hsite' hne with hlt | hlt <;> omega
  rw [hsame] at hat
  exact Option.some.inj (hat.symm.trans hat')

end Member

namespace SuperCall

variable {source : Source} {call : SuperCall} {e : Edit}

/-- At the base of a chain the arguments of a call are kept, or the call is taken away. -/
theorem mem_baseCallEdits_iff : e ∈ call.baseCallEdits source ↔
    if call.keepsArguments then e ∈ call.calleeEdits "void " else call.Takes source e := by
  by_cases hkeeps : call.keepsArguments = true
  · rw [baseCallEdits, if_pos hkeeps, if_pos hkeeps]
  · rw [baseCallEdits, if_neg hkeeps, if_neg hkeeps, Takes]
    cases call.statement? <;> exact List.mem_singleton

/-- The edit that puts `void` in place of the keyword. -/
def voidEdit (call : SuperCall) : Edit :=
  ⟨call.callee.start, call.callee.stop, if call.statement?.isSome then "void " else "(void "⟩

theorem voidEdit_mem (call : SuperCall) : call.voidEdit ∈ call.calleeEdits "void " := by
  unfold voidEdit calleeEdits
  cases call.statement? <;> exact List.mem_cons_self

/-- An edit with such a text comes from a call whose arguments are kept, and stands at its
keyword. -/
theorem keepsArguments_of_text (he : e ∈ call.baseCallEdits source)
    (htext : e.text = "void " ∨ e.text = "(void ") :
    call.keepsArguments = true ∧ e.start = call.callee.start := by
  rw [mem_baseCallEdits_iff] at he
  split at he
  · next hkeeps =>
    refine ⟨hkeeps, ?_⟩
    unfold calleeEdits at he
    split at he
    · rw [List.mem_singleton.1 he]
    · rcases List.mem_pair.1 he with rfl | rfl
      · rfl
      · simp at htext
  · -- what is put in place of a call that is taken away is another text
    unfold Takes at he
    split at he <;> rw [he] at htext <;> simp at htext

end SuperCall

/-! ### The first constructor -/

/-- The constructor at the base of the chain, as it is written out. -/
def Resolution.baseConstructor? (c : Resolution) : Option Excerpt :=
  (c.constructorCopies ++ c.constructor.toList).head?

/-- The calls in an excerpt have the edits for the base of a chain, and nothing else has one of
their texts. -/
structure Excerpt.AtBase (s : Source) (x : Excerpt) : Prop where
  edits : ∀ call ∈ x.member.superCalls, ∀ e ∈ call.baseCallEdits s, e ∈ x.edits
  only : ∀ e ∈ x.edits, e.text ∈ [", this)", "void ", "(void ", "", "this"] →
    ∃ call ∈ x.member.superCalls, e ∈ call.baseCallEdits s

/-- A new name has another text than the edits of calls. -/
theorem marked_notMem (rest : String) :
    "_super_" ++ rest ∉ [", this)", "void ", "(void ", "", "this"] := by
  intro hmem
  simp only [List.mem_cons, List.not_mem_nil, or_false] at hmem
  rcases hmem with h | h | h | h | h
  -- they differ in the first characters
  all_goals
    have htext := congrArg String.toList h
    simp at htext

section Lineage

variable {s : Script} {r : Registry} {target : String} {p : Progress} {names : List String}
  {c : Resolution} {x : Excerpt}

/-- The first excerpt of a chain has the edits for its references, for its calls and for its
name. -/
theorem edits_of_head?_chainExcerpts {l : Lineage} {method? : Option String}
    {entries : List (Member × Option String)}
    (hx : (p.chainExcerpts s l method? entries).head? = some x) :
    x.edits = p.referenceEdits l x.member ++ constructionEdits s.source method? x.member
      ++ (x.rename.map x.member.renameEdits).getD [] := by
  cases entries with
  | nil => cases hx
  | cons e rest =>
    obtain ⟨m, name?⟩ := e
    obtain rfl := Option.some.inj hx
    rfl

/-- A class that stands alone is not edited. -/
theorem edits_of_baseConstructor? {l : Lineage} (hactive : l.isActive = false)
    (hx : (s.resolve l).baseConstructor? = some x) : x.edits = [] := by
  rw [Resolution.baseConstructor?, Script.resolve, hactive] at hx
  have hmem := List.mem_of_mem_head? hx
  simp only [Bool.false_eq_true, if_false, List.nil_append, Option.mem_toList] at hmem
  obtain ⟨m, -, rfl⟩ := Option.map_eq_some_iff.1 hmem
  rfl

/-- The constructor at the base is declared in the chain. -/
theorem mem_constructors_of_baseConstructor?
    (hx : (s.resolve (r.lineage target)).baseConstructor? = some x) :
    x.member ∈ (r.lineage target).constructors := by
  have hmem := List.mem_of_mem_head? hx
  by_cases hactive : (r.lineage target).isActive = true
  · obtain ⟨p, names, h⟩ := exists_outcome s hactive
    rw [h.chain_eq] at hmem
    exact (List.of_mem_zip (mem_of_mem_chainExcerpts hmem)).1
  · -- a class of its own keeps its last constructor, without a chain
    rw [Script.resolve, if_neg hactive] at hmem
    simp only [List.nil_append, Option.mem_toList] at hmem
    obtain ⟨m, hm, rfl⟩ := Option.map_eq_some_iff.1 hmem
    rw [constructor_lineage] at hm
    exact List.mem_of_getLast? hm

theorem Outcome.atBase (hr : s.registry = .ok r) (h : Outcome s (r.lineage target) p names c)
    (hx : c.baseConstructor? = some x) : x.AtBase s.source := by
  rw [Resolution.baseConstructor?, h.chain_eq] at hx
  have hrendering := h.rendering_of_mem_chain (List.mem_of_mem_head? hx)
  have hmem := (List.of_mem_zip (mem_of_mem_chainExcerpts (List.mem_of_mem_head? hx))).1
  -- the base has no parent, so that its calls of `super` are rewritten with no method to call
  have hcalls : constructionEdits s.source none x.member
      = x.member.superCalls.flatMap (SuperCall.baseCallEdits s.source) := by
    rw [constructionEdits, (constructor_declared hr hmem).1.filterMap_ofReference?]
    rfl
  have hedits := edits_of_head?_chainExcerpts hx
  rw [hcalls] at hedits
  constructor
  case edits =>
    intro call hcall e he
    rw [hedits]
    exact List.mem_append_left _ (List.mem_append_right _ (List.mem_flatMap.2 ⟨call, hcall, he⟩))
  case only =>
    intro e he htext
    rw [hedits, List.mem_append, List.mem_append] at he
    rcases he with (he | he) | he
    · -- a reference that is replaced introduces a name
      obtain ⟨ref, -, hedit⟩ := List.mem_filterMap.1 he
      unfold editFor? at hedit
      split at hedit
      · obtain ⟨name, -, rfl⟩ := Option.map_eq_some_iff.1 hedit
        have hname : Edit.Introduces ⟨ref.node.start, ref.node.stop, "this." ++ name⟩ name :=
          .inl rfl
        exact absurd htext hname.notMem
      · cases hedit
    · exact List.mem_flatMap.1 he
    · -- and so does the new name of the constructor
      cases hname : x.rename with
      | none =>
        rw [hname] at he
        cases he
      | some name =>
        rw [hname] at he
        obtain ⟨property, hget⟩ := hrendering.rename name hname
        obtain ⟨rest, rfl⟩ := h.valid.names.marked _ _ hget
        rw [Member.text_renameEdits he] at htext
        exact absurd htext (marked_notMem rest)

/-! ### Legal expressions -/

/-- The arguments of a call are kept, with `void` in front of them. -/
def Excerpt.Keeps (x : Excerpt) (call : SuperCall) : Prop :=
  ∀ e ∈ call.calleeEdits "void ", e ∈ x.edits

/-- The call is taken away: its statement is removed, or `this` is put in its place. -/
def Excerpt.TakesAway (s : Source) (x : Excerpt) (call : SuperCall) : Prop :=
  ∃ e ∈ x.edits, call.Takes s e

/-- A call is replaced by an expression of the language, and it is gone if it had no arguments. -/
structure Excerpt.RewritesLegally (s : Source) (x : Excerpt) (call : SuperCall) : Prop where
  kept : x.Keeps call → call.arguments.IsCommaExpression
  gone : call.arguments.expressions = [] → x.TakesAway s call

namespace Excerpt.AtBase

variable {source : Source} {call : SuperCall}

/-- The edits of the constructor tell whether the arguments of a call are kept. -/
theorem keeps_iff (h : x.AtBase source) (hnode : x.member.node.WellSpanned)
    (hcall : call ∈ x.member.superCalls) : x.Keeps call ↔ call.keepsArguments = true := by
  constructor
  · intro hkeeps
    have hedit : call.voidEdit ∈ x.edits := hkeeps _ call.voidEdit_mem
    have htext : call.voidEdit.text = "void " ∨ call.voidEdit.text = "(void " := ite_eq_or_eq _ _ _
    -- the edit belongs to some call of the constructor, which starts where `call` does
    obtain ⟨call', hcall', hedit'⟩ := h.only _ hedit (by rcases htext with h | h <;> simp [h])
    obtain ⟨hkeeps', hstart⟩ := SuperCall.keepsArguments_of_text hedit' htext
    have hsame : call'.node.start = call.node.start := by
      rw [← Member.start_callee hnode hcall', ← Member.start_callee hnode hcall]
      exact hstart.symm
    rw [← Member.superCall_eq_of_start_eq hnode hcall' hcall hsame]
    exact hkeeps'
  · -- the base has all edits of its calls, and these are the ones of a call that is kept
    intro hkeeps e he
    apply h.edits call hcall
    rw [SuperCall.mem_baseCallEdits_iff, if_pos hkeeps]
    exact he

theorem takesAway (h : x.AtBase source) (hcall : call ∈ x.member.superCalls)
    (hkeeps : ¬ call.keepsArguments = true) : x.TakesAway source call := by
  obtain ⟨e, he⟩ : ∃ e, call.Takes source e := by
    -- there is one edit, for the statement or, failing that, for the call
    unfold SuperCall.Takes
    cases call.statement? <;> exact ⟨_, rfl⟩
  refine ⟨e, h.edits call hcall e ?_, he⟩
  rw [SuperCall.mem_baseCallEdits_iff, if_neg hkeeps]
  exact he

/-- A call is replaced by a legal expression unless its arguments are kept and are none. -/
theorem rewritesLegally_iff (h : x.AtBase source) (hnode : x.member.node.WellSpanned)
    (hcall : call ∈ x.member.superCalls) : x.RewritesLegally source call ↔
      (call.keepsArguments = true → call.arguments.IsCommaExpression) := by
  rw [← h.keeps_iff hnode hcall]
  refine ⟨fun hlegal => hlegal.kept, fun hkept => ⟨hkept, fun hnone => ?_⟩⟩
  -- without arguments the call cannot have been kept
  apply h.takesAway hcall
  rw [← h.keeps_iff hnode hcall]
  exact fun hkeeps => (hkept hkeeps).nonempty hnone

end Excerpt.AtBase

/-- The arguments are kept if there is a named child, be it a comment, and nothing is spread. -/
theorem SuperCall.keepsArguments_iff {call : SuperCall} : call.keepsArguments = true ↔
    call.arguments.namedChildren ≠ [] ∧
      ∀ a ∈ call.arguments.expressions, a.kind ≠ .spreadElement := by
  have hspread : (∀ a ∈ call.arguments.expressions, a.kind ≠ .spreadElement) ↔
      ∀ a ∈ call.arguments.namedChildren, a.kind ≠ .spreadElement := by
    refine forall_congr' fun a => ?_
    -- comments make no difference, since they are no spreads
    by_cases hkind : a.kind = .spreadElement
    · rw [Node.mem_expressions_of_spread hkind]
    · simp [hkind]
  rw [hspread]
  simp [keepsArguments]

/-- **When a call at the base becomes a legal expression**, in every class but one that stands
alone, where nothing is edited: the list of its arguments has no named child, or something is spread
in it, or it has an argument and no comma at the end. -/
theorem legal_baseCall_iff (hr : s.registry = .ok r) (hroot : s.root.WellSpanned)
    (hx : (s.resolve (r.lineage target)).baseConstructor? = some x) {call : SuperCall}
    (hcall : call ∈ x.member.superCalls) :
    ((¬ ∃ d, r.ancestry target = [d] ∧ d.extendsText = none) →
      (x.RewritesLegally s.source call ↔
        call.arguments.namedChildren = [] ∨
        (∃ a ∈ call.arguments.expressions, a.kind = .spreadElement) ∨
        (call.arguments.expressions ≠ [] ∧ call.arguments.endsWithComma = false))) ∧
    ((∃ d, r.ancestry target = [d] ∧ d.extendsText = none) → x.edits = []) ∧
    (call.arguments.IsArgumentList →
      (call.arguments.IsCommaExpression ↔ call.arguments.IsSequence)) := by
  refine ⟨fun hactive => ?_, fun halone => ?_, Node.IsArgumentList.isCommaExpression_iff⟩
  · -- the constructor stands in a class of the ancestry, whose nodes are well spanned
    obtain ⟨p, names, h⟩ := exists_outcome s
      ((Lineage.isActive_iff (l := r.lineage target)).2 hactive)
    -- a call that is kept has arguments and no spread, and then legality is about the rest
    obtain ⟨d, hd, hmd⟩ := (mem_constructors_lineage hr (mem_constructors_of_baseConstructor? hx)).2
    have hspan := (Script.statements_span hr hroot).1 d (Registry.mem_classes_of_mem_ancestry hd)
    have hnode := ((Script.registers_of_ancestry hr hd).span hspan hmd).1
    rw [(h.atBase hr hx).rewritesLegally_iff hnode hcall, SuperCall.keepsArguments_iff]
    constructor
    · intro hkept
      by_cases hnone : call.arguments.namedChildren = []
      · exact .inl hnone
      · by_cases hspread : ∃ a ∈ call.arguments.expressions, a.kind = .spreadElement
        · exact .inr (.inl hspread)
        · have hlegal := hkept ⟨hnone, fun a ha hkind => hspread ⟨a, ha, hkind⟩⟩
          exact .inr (.inr ⟨hlegal.nonempty, hlegal.closed⟩)
    · -- in the first two cases nothing is kept, in the third what is kept is a comma expression
      rintro (hnone | ⟨a, ha, hkind⟩ | ⟨hsome, hclosed⟩) ⟨hnamed, hplain⟩
      · exact absurd hnone hnamed
      · exact absurd hkind (hplain a ha)
      · exact ⟨hsome, hplain, hclosed⟩
  · -- a class without relatives is copied as it is
    refine edits_of_baseConstructor? (Bool.eq_false_iff.2 fun hactive => ?_) hx
    exact Lineage.isActive_iff.1 hactive halone

end Lineage

/-! ### Three lists of arguments -/

/-- A chain in which every class extends something is not that of a class that stands alone. -/
theorem not_alone_of_all {chain : List ClassDecl} (h : chain.all (·.extendsText.isSome) = true) :
    ¬ ∃ d, chain = [d] ∧ d.extendsText = none := by
  rintro ⟨d, rfl, hnone⟩
  simp [hnone] at h

/-- A sign of punctuation. -/
def Node.sign (text : String) (start : Nat) : Node :=
  ⟨.other text, none, false, false, false, start, start + 1, []⟩

/-- The statement `super(...)` with what stands between the parentheses. -/
def Node.superCallWith (start stop : Nat) (between : List Node) : Node :=
  .sound .expressionStatement none start stop
    [.sound .callExpression none start stop
      [.sound .superKeyword (some .function) start (start + 5) [],
        .sound (.other "arguments") (some .arguments) (start + 5) stop
          (.sign "(" (start + 5) :: (between ++ [.sign ")" (stop - 1)]))]]

/-- A class `A` that extends something unknown. Its constructor calls `super(a)`, `super(/**/)` and
`super(a,)`. -/
def keptArguments : Script where
  source := .ofText "class A extends Z\x7bconstructor()\x7bsuper(a);super(/**/);super(a,)\x7d\x7d"
  root := .sound (.other "program") none 0 64
    [.shortClass 0 17 64 [.shortHeritage 8]
      [.shortMethod 18 18 29 63 []
        [.superCallWith 32 40 [.sound .identifier none 38 39 []],
          .superCallWith 41 52 [.sound .comment none 47 51 []],
          .superCallWith 53 62 [.sound .identifier none 59 60 [], .sign "," 60]]]]

/-- The first call becomes `void (a)`. -/
theorem legal_baseCall_keptArguments : ∃ r x, keptArguments.registry = .ok r ∧
    keptArguments.root.WellSpanned ∧ (¬ ∃ d, r.ancestry "A" = [d] ∧ d.extendsText = none) ∧
    (keptArguments.resolve (r.lineage "A")).baseConstructor? = some x ∧
    x.edits.map (·.text) = ["void ", "void ", "void "] ∧
    ∃ call ∈ x.member.superCalls, call.node.start = 32 ∧
      x.RewritesLegally keptArguments.source call := by
  have hroot : keptArguments.root.WellSpanned := by decide +kernel
  obtain ⟨r, hr, htest⟩ := Script.exists_registry (s := keptArguments)
    (p := fun r => (r.ancestry "A").all (·.extendsText.isSome) &&
      (keptArguments.resolve (r.lineage "A")).baseConstructor?.any fun x =>
        x.edits.map (·.text) == ["void ", "void ", "void "] &&
        x.member.superCalls.any fun call => call.node.start == 32 &&
          !call.arguments.expressions.isEmpty && !call.arguments.endsWithComma) (by decide +kernel)
  obtain ⟨hextends, htest⟩ := Bool.and_eq_true_iff.1 htest
  obtain ⟨x, hx, htest⟩ := (Option.any_eq_true _ _).1 htest
  obtain ⟨htexts, htest⟩ := Bool.and_eq_true_iff.1 htest
  obtain ⟨call, hcall, htest⟩ := List.any_eq_true.1 htest
  simp only [Bool.and_eq_true, beq_iff_eq, Bool.not_eq_true', List.isEmpty_eq_false_iff] at htest
  obtain ⟨⟨hstart, hsome⟩, hclosed⟩ := htest
  have hactive := not_alone_of_all hextends
  exact ⟨r, x, hr, hroot, hactive, hx, beq_iff_eq.1 htexts, call, hcall, hstart,
    ((legal_baseCall_iff hr hroot hx hcall).1 hactive).2 (.inr (.inr ⟨hsome, hclosed⟩))⟩

/-- The second call becomes `void (/**/)` and the third `void (a,)`, which are no expressions. -/
theorem not_legal_baseCall_keptArguments : ∃ r x, keptArguments.registry = .ok r ∧
    keptArguments.root.WellSpanned ∧
    (keptArguments.resolve (r.lineage "A")).baseConstructor? = some x ∧
    (∃ call ∈ x.member.superCalls, call.arguments.expressions = [] ∧ x.Keeps call ∧
      ¬ x.RewritesLegally keptArguments.source call) ∧
    ∃ call ∈ x.member.superCalls, call.arguments.endsWithComma = true ∧ x.Keeps call ∧
      ¬ x.RewritesLegally keptArguments.source call := by
  obtain ⟨r, hr, htest⟩ := Script.exists_registry (s := keptArguments)
    (p := fun r => (keptArguments.resolve (r.lineage "A")).baseConstructor?.any fun x =>
      (x.member.superCalls.any fun call =>
        call.arguments.expressions.isEmpty && (call.calleeEdits "void ").all (· ∈ x.edits)) &&
      x.member.superCalls.any fun call =>
        call.arguments.endsWithComma && (call.calleeEdits "void ").all (· ∈ x.edits))
    (by decide +kernel)
  obtain ⟨x, hx, htest⟩ := (Option.any_eq_true _ _).1 htest
  obtain ⟨hempty, hcomma⟩ := Bool.and_eq_true_iff.1 htest
  refine ⟨r, x, hr, by decide +kernel, hx, ?_, ?_⟩
  · -- between the brackets there is only a comment
    obtain ⟨call, hcall, htest⟩ := List.any_eq_true.1 hempty
    simp only [Bool.and_eq_true, List.isEmpty_iff, List.all_eq_true, decide_eq_true_eq] at htest
    exact ⟨call, hcall, htest.1, htest.2, fun hlegal => (hlegal.kept htest.2).nonempty htest.1⟩
  · -- the comma is kept along with the arguments
    obtain ⟨call, hcall, htest⟩ := List.any_eq_true.1 hcomma
    simp only [Bool.and_eq_true, List.all_eq_true, decide_eq_true_eq] at htest
    refine ⟨call, hcall, htest.1, htest.2, fun hlegal => ?_⟩
    have hclosed := (hlegal.kept htest.2).closed
    rw [htest.1] at hclosed
    cases hclosed

end Disinherit
