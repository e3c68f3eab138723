import Disinherit.Proofs.Super.BaseCalls
import Disinherit.Proofs.Super.Rendered

/-!
# Statements at the base of a chain

A `super(...)` call in the first constructor of a chain may be a statement of its own. If its
arguments are not kept, the statement is deleted. In a list of statements this is harmless, but a
statement can also be the body of an `if`, a loop or a label, which is then left with nothing
(`not_leavesWhole_conditionalCall`).

The deletion asks only whether the call is a statement, and not what the statement stands in. So it
leaves what is around it whole exactly if that is a list of statements (`leavesWhole_iff`). There is
one thing that it stands in, because a node that is not empty has one parent, and what else shows in
that parent is left where it is: the cut stops there (`Source.Removes.stop_le`).

That a statement is deleted is told by the edits of the constructor. The cut of a statement is not
the cut of another, although each takes in blanks around it, because what shows first in a cut is
where its statement starts (`Source.Removes.start_eq`).
-/

namespace Disinherit

open Node

/-- A body to which statements can be added and from which they can be taken: a block, or what comes
after a label of a `switch`. -/
def Node.listsStatements (n : Node) : Bool :=
  n.kind == .other "statement_block" || n.kind == .other "switch_case"
    || n.kind == .other "switch_default"

/-! ### Deleted statements -/

namespace Excerpt

/-- A statement is cut out, with its line or with the blanks after it. -/
def Deletes (s : Source) (x : Excerpt) (stmt : Node) : Prop :=
  ⟨(s.removalRange stmt.start stmt.stop).1, (s.removalRange stmt.start stmt.stop).2, ""⟩ ∈ x.edits

/-- If a statement is deleted, it comes from a list of statements. -/
def LeavesWhole (s : Source) (x : Excerpt) (stmt : Node) : Prop :=
  x.Deletes s stmt → ∀ p, IsParentIn x.member.node p stmt → p.listsStatements = true

/-- What becomes of the statement that consists of a call. -/
structure StatementFate (s : Source) (x : Excerpt) (call : SuperCall) (stmt : Node) : Prop where
  /-- The statement stands in one place. -/
  parent : ∃! p, IsParentIn x.member.node p stmt
  /-- It is deleted if the call has no named child among its arguments, or spreads something. -/
  deletes_iff : x.Deletes s stmt ↔
    call.arguments.namedChildren = [] ∨ ∃ a ∈ call.arguments.expressions, a.kind = .spreadElement
  /-- What it stands in is left whole just if that is a list of statements, or nothing is
  deleted. -/
  whole_iff : x.LeavesWhole s stmt ↔
    (∀ p, IsParentIn x.member.node p stmt → p.listsStatements = true) ∨
      (call.arguments.namedChildren ≠ [] ∧ ∀ a ∈ call.arguments.expressions,
        a.kind ≠ .spreadElement)
  /-- The cut takes all of the statement, and nothing else that shows in what it stands in. -/
  cut : x.Deletes s stmt → (s.removalRange stmt.start stmt.stop).1 ≤ stmt.start ∧
    stmt.stop ≤ (s.removalRange stmt.start stmt.stop).2 ∧
    ∀ p, IsParentIn x.member.node p stmt → ∀ c ∈ p.children, c ≠ stmt → s.Shows c →
      c.stop ≤ (s.removalRange stmt.start stmt.stop).1 ∨
        (s.removalRange stmt.start stmt.stop).2 ≤ c.start

end Excerpt

/-- The statement of a call is a node of the member, and it begins with the call. -/
theorem Member.statement_of_mem_superCalls {source : Source} {m : Member}
    (hm : m.node.WellSpelled source) {call : SuperCall} (hcall : call ∈ m.superCalls) {stmt : Node}
    (hstmt : call.statement? = some stmt) :
    stmt ∈ m.node.preorder ∧ stmt.kind = .expressionStatement ∧ source.Shows stmt ∧
      stmt.start = call.node.start := by
  obtain ⟨site, hsite, hat⟩ := List.mem_filterMap.1 hcall
  obtain ⟨hparent, hchild⟩ := mem_superSites hsite
  have hstands : site.Stands m.node :=
    ⟨hparent, hchild, (sites_superSites hm.wellSpanned m.nameNode?).isSuper site hsite⟩
  obtain ⟨-, hnode, -, hstatement⟩ := SuperCall.at?_eq_some hat
  by_cases hkind : site.parent.kind = .expressionStatement
  · -- a call is a statement if the parent of its node is one
    rw [hstatement, if_pos hkind] at hstmt
    obtain rfl := Option.some.inj hstmt
    obtain ⟨hshows, hstart⟩ := hstands.statement hm hat hkind
    exact ⟨hparent, hkind, hshows, hnode ▸ hstart⟩
  · rw [hstatement, if_neg hkind] at hstmt
    cases hstmt

/-- An edit that puts nothing in place of a call cuts out its statement. -/
theorem SuperCall.removes_of_text {source : Source} {call : SuperCall} {e : Edit}
    (he : e ∈ call.baseCallEdits source) (htext : e.text = "") :
    ¬ call.keepsArguments = true ∧ ∃ stmt, call.statement? = some stmt ∧
      source.Removes stmt.start stmt.stop (e.start, e.stop) := by
  rw [mem_baseCallEdits_iff] at he
  split at he
  · -- with arguments that are kept some text is put there
    rcases text_calleeEdits he with h | h | h <;> simp [h] at htext
  · next hkeeps =>
    refine ⟨hkeeps, ?_⟩
    unfold Takes at he
    split at he
    · next stmt hstmt =>
      refine ⟨stmt, hstmt, ?_⟩
      rw [he]
      exact source.removes_removalRange stmt.start stmt.stop
    · rw [he] at htext
      simp at htext

/-- The edits of the constructor tell whether the statement of a call is deleted. -/
theorem Excerpt.AtBase.deletes_iff {source : Source} {x : Excerpt} (h : x.AtBase source)
    (hnode : x.member.node.WellSpelled source) {call : SuperCall}
    (hcall : call ∈ x.member.superCalls) {stmt : Node} (hstmt : call.statement? = some stmt) :
    x.Deletes source stmt ↔ ¬ call.keepsArguments = true := by
  constructor
  · intro hdeletes
    -- the cut belongs to some call of the constructor, whose statement starts where `stmt` does
    obtain ⟨call', hcall', hedit⟩ := h.only _ hdeletes (by simp)
    obtain ⟨hkeeps, stmt', hstmt', hcut⟩ := SuperCall.removes_of_text hedit rfl
    obtain ⟨-, -, hshows, hstart⟩ := Member.statement_of_mem_superCalls hnode hcall hstmt
    obtain ⟨-, -, hshows', hstart'⟩ := Member.statement_of_mem_superCalls hnode hcall' hstmt'
    have hsame : call'.node.start = call.node.start := by
      rw [← hstart, ← hstart']
      have hcut' := source.removes_removalRange stmt.start stmt.stop
      exact hcut.start_eq hcut' hshows'.first hshows.first
    rw [← Member.superCall_eq_of_start_eq hnode.wellSpanned hcall' hcall hsame]
    exact hkeeps
  · -- a call that is not kept is cut out along with its statement
    intro hkeeps
    apply h.edits call hcall
    rw [SuperCall.mem_baseCallEdits_iff, if_neg hkeeps, SuperCall.Takes, hstmt]

/-- What shows beside a statement is not reached by its cut. -/
theorem Source.Removes.apart_of_shows {source : Source} {p stmt c : Node} {cut : Nat × Nat}
    (h : source.Removes stmt.start stmt.stop cut) (hp : p.WellSpanned) (hstmt : stmt ∈ p.children)
    (hc : c ∈ p.children) (hne : c ≠ stmt) (hshows : source.Shows c) :
    c.stop ≤ cut.1 ∨ cut.2 ≤ c.start := by
  have hpos := hshows.pos
  rcases pairwise_or hp.spansWell.ordered hc hstmt hne with hle | hle
  · -- before the statement, the cut goes back over blanks only
    left
    have := h.lt_start hshows.last (by omega)
    omega
  · -- behind it, the cut ends before anything that shows
    right
    exact h.stop_le hshows.first hle

section Lineage

variable {s : Script} {r : Registry} {target : String} {x : Excerpt} {call : SuperCall}
    {stmt : Node}

theorem Excerpt.AtBase.statementFate (h : x.AtBase s.source)
    (hnode : x.member.node.WellSpelled s.source) (hmethod : x.member.node.kind = .methodDefinition)
    (hcall : call ∈ x.member.superCalls) (hstmt : call.statement? = some stmt) :
    x.StatementFate s.source call stmt := by
  obtain ⟨hmem, hkind, hshows, -⟩ := Member.statement_of_mem_superCalls hnode hcall hstmt
  have hne : stmt ≠ x.member.node := by
    intro heq
    rw [heq, hmethod] at hkind
    cases hkind
  have hdeletes := h.deletes_iff hnode hcall hstmt
  constructor
  case parent =>
    obtain ⟨p, hp⟩ := exists_parent hmem hne
    exact ⟨p, hp, fun q hq => hnode.wellSpanned.parent_unique hshows.pos hq hp⟩
  case deletes_iff =>
    rw [hdeletes, SuperCall.keepsArguments_iff, not_and_or]
    simp
  case whole_iff =>
    rw [Excerpt.LeavesWhole, hdeletes, ← SuperCall.keepsArguments_iff]
    by_cases hkeeps : call.keepsArguments = true
    · exact iff_of_true (fun hnot => absurd hkeeps hnot) (.inr hkeeps)
    · exact ⟨fun hall => .inl (hall hkeeps), fun hor _ => hor.resolve_right hkeeps⟩
  case cut =>
    intro _
    have hcut := s.source.removes_removalRange stmt.start stmt.stop
    have hstop := hcut.le_stop
    have hsize := hshows.stop_le_size
    refine ⟨hcut.start_le, by omega, fun p hp c hc hother hc' => ?_⟩
    exact hcut.apart_of_shows (hnode.wellSpanned.of_mem_preorder hp.1) hp.2 hc hother hc'

/-- **What a deleted statement leaves behind is whole** exactly if it came from a list of
statements, in every class but one that stands alone, where nothing is deleted. -/
theorem leavesWhole_iff (hr : s.registry = .ok r) (hroot : s.root.WellSpelled s.source)
    (hx : (s.resolve (r.lineage target)).baseConstructor? = some x)
    (hcall : call ∈ x.member.superCalls) (hstmt : call.statement? = some stmt) :
    ((¬ ∃ d, r.ancestry target = [d] ∧ d.extendsText = none) → x.StatementFate s.source call stmt) ∧
      ((∃ d, r.ancestry target = [d] ∧ d.extendsText = none) →
        x.edits = [] ∧ x.LeavesWhole s.source stmt) := by
  constructor
  · -- the base constructor is a method of some class of the ancestry
    intro hactive
    obtain ⟨p, names, h⟩ := exists_outcome s
      ((Lineage.isActive_iff (l := r.lineage target)).2 hactive)
    obtain ⟨hkind, d, hd, hm⟩ :=
      mem_constructors_lineage hr (mem_constructors_of_baseConstructor? hx)
    have hrec := (Script.registers_of_ancestry hr hd).records hm
    have hnode := hroot.of_mem_preorder (mem_preorder_of_mem_ancestry hr hd hm)
    exact (h.atBase hr hx).statementFate hnode (hrec.node_kind (.inr hkind)) hcall hstmt
  · intro halone
    -- a class of its own keeps its text
    have hedits : x.edits = [] :=
      edits_of_baseConstructor?
        (Bool.eq_false_iff.2 fun hactive => Lineage.isActive_iff.1 hactive halone) hx
    refine ⟨hedits, fun hdeletes => ?_⟩
    rw [Excerpt.Deletes, hedits] at hdeletes
    cases hdeletes

end Lineage

/-! ### A call under a condition -/

/-- A class `A` that extends something unknown. Its constructor calls `super()`, and again under
`if(x)`. -/
def conditionalCall : Script where
  source := .ofText "class A extends Z\x7bconstructor()\x7bsuper();if(x)super()\x7d\x7d"
  root := .sound (.other "program") none 0 54
    [.shortClass 0 17 54 [.shortHeritage 8]
      [.shortMethod 18 18 29 53 []
        [.shortSuperCall 32,
          .sound (.other "if_statement") none 40 52
            [.sound (.other "parenthesized_expression") (some (.other "condition")) 42 45
              [.sound .identifier none 43 44 []],
              { Node.shortSuperCall 45 with field := some (.other "consequence") }]]]]

/-- Of all nodes in a tree, those with a child that is a statement at `start` pass a test. -/
def Node.allAround (n : Node) (start : Nat) (test : Node → Bool) : Bool :=
  n.preorder.all fun p => !p.children.any (fun c => c.kind == .expressionStatement
    && c.start == start) || test p

theorem Node.IsParentIn.of_allAround {root p n : Node} {test : Node → Bool}
    (h : IsParentIn root p n) (hkind : n.kind = .expressionStatement)
    (hall : root.allAround n.start test = true) : test p = true := by
  have hp := List.all_eq_true.1 hall p h.1
  have hchild :
      p.children.any (fun c => c.kind == .expressionStatement && c.start == n.start) = true :=
    List.any_eq_true.2 ⟨n, h.2, by simp [hkind]⟩
  simpa [hchild] using hp

/-- The first statement is deleted from the body of the constructor, which stays whole. -/
theorem leavesWhole_conditionalCall : ∃ r x, conditionalCall.registry = .ok r ∧
    conditionalCall.root.WellSpelled conditionalCall.source ∧
    (¬ ∃ d, r.ancestry "A" = [d] ∧ d.extendsText = none) ∧
    (conditionalCall.resolve (r.lineage "A")).baseConstructor? = some x ∧
    ∃ call ∈ x.member.superCalls, ∃ stmt, call.statement? = some stmt ∧ stmt.start = 32 ∧
      x.Deletes conditionalCall.source stmt ∧ x.LeavesWhole conditionalCall.source stmt := by
  have hroot : conditionalCall.root.WellSpelled conditionalCall.source :=
    ⟨by decide +kernel, by decide +kernel⟩
  obtain ⟨r, hr, htest⟩ := Script.exists_registry (s := conditionalCall)
    (p := fun r => (r.ancestry "A").all (·.extendsText.isSome) &&
      (conditionalCall.resolve (r.lineage "A")).baseConstructor?.any fun x =>
        x.member.superCalls.any fun call => call.arguments.namedChildren.isEmpty &&
          call.statement?.any fun stmt => stmt.kind == .expressionStatement && stmt.start == 32 &&
            x.member.node.allAround stmt.start Node.listsStatements) (by decide +kernel)
  obtain ⟨hextends, htest⟩ := Bool.and_eq_true_iff.1 htest
  obtain ⟨x, hx, htest⟩ := (Option.any_eq_true _ _).1 htest
  obtain ⟨call, hcall, htest⟩ := List.any_eq_true.1 htest
  obtain ⟨hnone, htest⟩ := Bool.and_eq_true_iff.1 htest
  obtain ⟨stmt, hstmt, htest⟩ := (Option.any_eq_true _ _).1 htest
  simp only [Bool.and_eq_true, beq_iff_eq] at htest
  obtain ⟨⟨hkind, hstart⟩, hall⟩ := htest
  have hactive := not_alone_of_all hextends
  have hfate := (leavesWhole_iff hr hroot hx hcall hstmt).1 hactive
  refine ⟨r, x, hr, hroot, hactive, hx, call, hcall, stmt, hstmt, hstart, ?_, ?_⟩
  · exact hfate.deletes_iff.2 (.inl (List.isEmpty_iff.1 hnone))
  · exact hfate.whole_iff.2 (.inl fun p hp => hp.of_allAround hkind hall)

/-- The second statement is deleted too, and the condition is left with nothing to do. -/
theorem not_leavesWhole_conditionalCall : ∃ r x, conditionalCall.registry = .ok r ∧
    conditionalCall.root.WellSpelled conditionalCall.source ∧
    (conditionalCall.resolve (r.lineage "A")).baseConstructor? = some x ∧
    ∃ call ∈ x.member.superCalls, ∃ stmt, call.statement? = some stmt ∧
      x.Deletes conditionalCall.source stmt ∧
      (∃ p, IsParentIn x.member.node p stmt ∧ p.kind = .other "if_statement") ∧
      ¬ x.LeavesWhole conditionalCall.source stmt := by
  have hroot : conditionalCall.root.WellSpelled conditionalCall.source :=
    ⟨by decide +kernel, by decide +kernel⟩
  obtain ⟨r, hr, htest⟩ := Script.exists_registry (s := conditionalCall)
    (p := fun r => (conditionalCall.resolve (r.lineage "A")).baseConstructor?.any fun x =>
      x.member.node.kind == .methodDefinition && x.member.superCalls.any fun call =>
        call.statement?.any fun stmt =>
          x.member.node.allAround stmt.start (·.kind == .other "if_statement") &&
          decide (⟨(conditionalCall.source.removalRange stmt.start stmt.stop).1,
            (conditionalCall.source.removalRange stmt.start stmt.stop).2, ""⟩ ∈ x.edits))
    (by decide +kernel)
  obtain ⟨x, hx, htest⟩ := (Option.any_eq_true _ _).1 htest
  obtain ⟨hmethod, htest⟩ := Bool.and_eq_true_iff.1 htest
  obtain ⟨call, hcall, htest⟩ := List.any_eq_true.1 htest
  obtain ⟨stmt, hstmt, htest⟩ := (Option.any_eq_true _ _).1 htest
  simp only [Bool.and_eq_true, decide_eq_true_eq] at htest
  obtain ⟨hall, hdeletes⟩ := htest
  obtain ⟨-, d, hd, hm⟩ := mem_constructors_lineage hr (mem_constructors_of_baseConstructor? hx)
  have hnode := hroot.of_mem_preorder (mem_preorder_of_mem_ancestry hr hd hm)
  obtain ⟨hmem, hkind, -⟩ := Member.statement_of_mem_superCalls hnode hcall hstmt
  -- the statement has a parent, and this can only be the condition
  obtain ⟨p, hp⟩ := exists_parent hmem fun heq => by
    rw [heq, beq_iff_eq.1 hmethod] at hkind
    cases hkind
  have hif : p.kind = .other "if_statement" := beq_iff_eq.1 (hp.of_allAround hkind hall)
  refine ⟨r, x, hr, hroot, hx, call, hcall, stmt, hstmt, hdeletes, ⟨p, hp, hif⟩, fun hwhole => ?_⟩
  -- the condition would have to be a list of statements
  have hlists := hwhole hdeletes p hp
  simp [Node.listsStatements, hif] at hlists

end Disinherit
