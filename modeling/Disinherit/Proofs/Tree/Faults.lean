import Disinherit.Proofs.Tree.Nesting
import Disinherit.Script.Basic

/-!
# The first fault of a tree

A parser marks every node with a fault somewhere in it (`Node.MarksFaults`). The search for the
fault to report relies on the marks twice. It does not enter a subtree without a mark, and if
nothing is found among the children of a marked node, it falls back on that node.

With the marks of a parser, nothing is lost by the first, and the second never happens: what the
search finds is the first fault in the order of the text (`Node.firstFault?_eq_find?`). So a tree is
refused exactly if there is a fault in it, and the error tells of the first one
(`Script.refusesFirstFault_ofTree`).
-/

namespace Disinherit

namespace Node

/-- The nodes with a mark are those with a fault in their tree. -/
def MarksFaults (n : Node) : Prop :=
  ∀ m ∈ n.preorder, m.erroneous = true ↔ ∃ k ∈ m.preorder, k.isFault = true

instance (n : Node) : Decidable n.MarksFaults :=
  inferInstanceAs (Decidable (∀ m ∈ n.preorder, m.erroneous = true ↔
    ∃ k ∈ m.preorder, k.isFault = true))

/-- Of the nodes at fault, each before its children, `bad` is the first. -/
def IsFirstFault (n bad : Node) : Prop :=
  bad.isFault = true ∧ ∃ before after, n.preorder = before ++ bad :: after ∧
    ∀ m ∈ before, m.isFault = false

variable {n : Node}

theorem MarksFaults.child {c : Node} (h : n.MarksFaults) (hc : c ∈ n.children) : c.MarksFaults :=
  fun m hm => h m (mem_preorder_trans hm (mem_preorder_of_mem_children hc))

/-- If the search is right in each of some trees, it is right in all of them, one after the
other. -/
theorem firstFaultAmong?_eq_find? {ns : List Node}
    (h : ∀ c ∈ ns, c.firstFault? = c.preorder.find? isFault) :
    firstFaultAmong? ns = (ns.flatMap preorder).find? isFault := by
  induction ns with
  | nil => rfl
  | cons n ns ih =>
    rw [firstFaultAmong?, List.flatMap_cons, List.find?_append, h n List.mem_cons_self,
      ih fun c hc => h c (List.mem_cons_of_mem n hc)]

theorem firstFault?_eq (n : Node) : n.firstFault? =
    if n.isFault then some n
    else if n.erroneous then some ((firstFaultAmong? n.children).getD n)
    else none := by
  cases n
  rfl

/-- **The search finds the first fault.** -/
theorem firstFault?_eq_find? (h : n.MarksFaults) : n.firstFault? = n.preorder.find? isFault := by
  induction n using childInduction with
  | step n ih =>
    have hmark := h n (mem_preorder_self n)
    have hchildren := firstFaultAmong?_eq_find? fun c hc => ih c hc (h.child hc)
    rw [firstFault?_eq, hchildren, preorder_eq, List.find?_cons]
    cases hfault : n.isFault with
    | true => rfl
    | false =>
      simp only [Bool.false_eq_true, if_false]
      cases herror : n.erroneous with
      | true =>
        -- the fault that the mark tells of is not the node itself, so that there is one below
        obtain ⟨k, hk, hkfault⟩ := hmark.1 herror
        have hbelow : k ∈ n.children.flatMap preorder := by
          rw [preorder_eq] at hk
          rcases List.mem_cons.1 hk with rfl | hk
          · rw [hfault] at hkfault
            cases hkfault
          · exact hk
        obtain ⟨bad, hbad⟩ := Option.isSome_iff_exists.1 (List.find?_isSome.2 ⟨k, hbelow, hkfault⟩)
        rw [hbad]
        rfl
      | false =>
        -- without the mark there is no fault below
        refine (List.find?_eq_none.2 fun k hk hkfault => ?_).symm
        have hmem : k ∈ n.preorder := by
          rw [preorder_eq]
          exact List.mem_cons_of_mem _ hk
        rw [hmark.2 ⟨k, hmem, hkfault⟩] at herror
        cases herror

theorem find?_preorder_eq_some_iff {bad : Node} :
    n.preorder.find? isFault = some bad ↔ n.IsFirstFault bad := by
  rw [List.find?_eq_some_iff_append]
  simp only [IsFirstFault, Bool.not_eq_true']

/-- A tree with faults has a first one. -/
theorem exists_isFirstFault_iff :
    (∃ bad, n.IsFirstFault bad) ↔ ∃ m ∈ n.preorder, m.isFault = true := by
  simp only [← find?_preorder_eq_some_iff, ← Option.isSome_iff_exists, List.find?_isSome]

end Node

/-! ### The report -/

/-- The error tells of a node at fault: where it starts, and that it is missing, if it is. -/
structure ScriptError.TellsOf (e : ScriptError) (s : Source) (bad : Node) : Prop where
  line_eq : e.line = (s.position bad.start).line
  column_eq : e.column = (s.position bad.start).column
  missing_iff : e.message = "missing '" ++ bad.kind.name ++ "'" ↔ bad.missing = true
  unexpected_iff : e.message = "syntax error" ↔ bad.missing = false

/-- What comes of a text and a tree. -/
structure Script.RefusesFirstFault (text : String) (root : Node) (result : Attempt Script) :
    Prop where
  /-- The tree is refused if there is a fault in it, and otherwise taken as it is. -/
  error_iff : (∃ failure, result = .error failure) ↔ ∃ n ∈ root.preorder, n.isFault = true
  ok_iff : result = .ok ⟨.ofText text, root⟩ ↔ ∀ n ∈ root.preorder, n.isFault = false
  /-- The error tells of the first fault. -/
  tells : ∀ bad, root.IsFirstFault bad → ∃ e, result = .error (.refused e) ∧
    e.TellsOf (.ofText text) bad

theorem ScriptError.tellsOf_fault (s : Source) (bad : Node) :
    (bad.fault.error (s.position bad.start)).TellsOf s bad := by
  -- the two wordings do not begin alike
  have hne : "missing '" ++ bad.kind.name ++ "'" ≠ "syntax error" := by
    intro h
    have hhead := congrArg (fun text => text.toList.head?) h
    simp at hhead
  cases hmissing : bad.missing with
  | true =>
    have hfault : bad.fault = .missing bad.kind.name := if_pos hmissing
    rw [hfault]
    exact ⟨rfl, rfl, iff_of_true rfl hmissing, iff_of_false hne (by simp [hmissing])⟩
  | false =>
    have hfault : bad.fault = .unexpected := if_neg (by simp [hmissing])
    rw [hfault]
    exact ⟨rfl, rfl, iff_of_false hne.symm (by simp [hmissing]), iff_of_true rfl hmissing⟩

/-- **Syntax errors are reported at the first fault.** -/
theorem Script.refusesFirstFault_ofTree (text : String) {root : Node} (h : root.MarksFaults) :
    RefusesFirstFault text root (ofTree text root) := by
  have hmark := h root (Node.mem_preorder_self root)
  cases herror : root.erroneous with
  | true =>
    -- the mark is there, and the search goes to the first fault
    have hfaults := hmark.1 herror
    obtain ⟨first, hfirst⟩ := Node.exists_isFirstFault_iff.2 hfaults
    have hfound := (Node.firstFault?_eq_find? h).trans (Node.find?_preorder_eq_some_iff.2 hfirst)
    have hresult : ofTree text root
        = .error (.refused (first.fault.error ((Source.ofText text).position first.start))) := by
      rw [ofTree, if_pos herror, hfound]
      rfl
    rw [hresult]
    refine ⟨iff_of_true ⟨_, rfl⟩ hfaults, iff_of_false nofun ?_, fun bad hbad => ?_⟩
    · intro hnone
      obtain ⟨n, hn, hfault⟩ := hfaults
      rw [hnone n hn] at hfault
      cases hfault
    · obtain rfl : first = bad := Option.some.inj
        ((Node.find?_preorder_eq_some_iff.2 hfirst).symm.trans
          (Node.find?_preorder_eq_some_iff.2 hbad))
      exact ⟨_, rfl, ScriptError.tellsOf_fault _ first⟩
  | false =>
    -- no mark, no fault
    have hnone : ¬ ∃ n ∈ root.preorder, n.isFault = true := by
      rw [← hmark, herror]
      exact Bool.false_ne_true
    have hresult : ofTree text root = .ok ⟨.ofText text, root⟩ := if_neg (by simp [herror])
    rw [hresult]
    refine ⟨iff_of_false nofun hnone, iff_of_true rfl ?_, fun bad hbad => ?_⟩
    · intro n hn
      rw [← Bool.not_eq_true]
      exact fun hfault => hnone ⟨n, hn, hfault⟩
    · exact absurd (Node.exists_isFirstFault_iff.1 ⟨bad, hbad⟩) hnone

/-! ### An unclosed call -/

/-- A statement, a call without its closing parenthesis, and a brace that closes nothing. -/
def unclosedText : String :=
  "a;\nf(;\n\x7d"

/-- The tree of the text, with two faults. -/
def unclosedTree : Node :=
  ⟨.other "program", none, true, false, true, 0, 8,
    [⟨.expressionStatement, none, true, false, false, 0, 2,
      [⟨.identifier, none, true, false, false, 0, 1, []⟩]⟩,
      ⟨.expressionStatement, none, true, false, true, 3, 6,
        [⟨.callExpression, none, true, false, true, 3, 5,
          [⟨.identifier, some .function, true, false, false, 3, 4, []⟩,
            ⟨.other "arguments", some .arguments, true, false, true, 4, 5,
              [⟨.other "(", none, false, false, false, 4, 5, []⟩,
                ⟨.other ")", none, false, true, true, 5, 5, []⟩]⟩]⟩]⟩,
      ⟨.errorNode, none, true, false, true, 7, 8, []⟩]⟩

/-- The first statement is passed over, and the brace comes too late. -/
theorem refusesFirstFault_unclosedTree :
    unclosedTree.MarksFaults ∧
    Script.RefusesFirstFault unclosedText unclosedTree (Script.ofTree unclosedText unclosedTree) ∧
    Script.ofTree unclosedText unclosedTree = .error (.refused ⟨"missing ')'", 2, 2⟩) := by
  have hmarks : unclosedTree.MarksFaults := by decide +kernel
  exact ⟨hmarks, Script.refusesFirstFault_ofTree unclosedText hmarks, rfl⟩

end Disinherit
