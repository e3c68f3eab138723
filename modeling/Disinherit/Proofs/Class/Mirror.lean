import Disinherit.Proofs.Class.Kept
import Disinherit.Proofs.Compile.Failure
import Disinherit.Proofs.Compile.Placement

/-!
# The registry mirrors the script

What a registry says about names and parents can be read off the top-level statements.
`Script.classNames` lists the names of their classes, and `Script.extensions` the pairs of class and
parent, for those classes whose `extends` clause is a plain name. `Script.Mirrors` says that a
registry has these names, that its graph has these edges, and that the graph answers for any name,
registered or not, which classes extend it.

The graph keeps two tables, parents by child and children by parent. The table of parents lists the
pairs only because no child is told twice (`edges_foldl_record`), and that is what the check for
repeated names is for. `mirrors_registry` also says where the check fails: at the class of the first
statement whose name came before (`Script.FirstRepeated`). Everything before that statement is
registered, so that the error is found by cutting the statements in two (`registerAll_append`).
-/

namespace Disinherit

/-! ### Tables and graphs -/

/-- A new key goes to the end. -/
theorem Table.put_of_notMem {κ α : Type} [DecidableEq κ] {t : Table κ α} {k : κ} (h : k ∉ t.keys)
    (a : α) : t.put k a = t ++ [(k, a)] := by
  induction t with
  | nil => rfl
  | cons e t ih =>
    obtain ⟨k₀, a₀⟩ := e
    rw [keys, List.map_cons, List.mem_cons, not_or] at h
    show (if k₀ = k then _ else _) = _
    -- the key goes past all entries
    rw [if_neg (Ne.symm h.1)]
    exact congrArg _ (ih h.2)

namespace Registry

/-- The class and its parent, if it extends a plain name. -/
def edge? (d : ClassDecl) : Option (String × String) :=
  d.parent.map fun p => (d.name, p)

/-- Classes with new names add their edges at the end. -/
theorem edges_foldl_record (ds : List ClassDecl) : ∀ {g : ParentGraph}, (ds.map (·.name)).Nodup →
    (∀ d ∈ ds, d.name ∉ g.parents.keys) →
    (ds.foldl (fun g d => match d.parent with
      | some p => g.record d.name p
      | none => g) g).edges = g.edges ++ ds.filterMap edge? := by
  induction ds with
  | nil =>
    intro g _ _
    exact (List.append_nil _).symm
  | cons d ds ih =>
    intro g hnodup hnew
    obtain ⟨hd, hnodup⟩ := List.nodup_cons.1 hnodup
    have hrest : ∀ d' ∈ ds, d'.name ∉ g.parents.keys :=
      fun d' hd' => hnew d' (List.mem_cons_of_mem d hd')
    rw [List.foldl_cons]
    cases hp : d.parent with
    | none =>
      rw [List.filterMap_cons_none (by rw [edge?, hp]; rfl)]
      exact ih hnodup hrest
    | some p =>
      -- the edge of `d` is new, and no later class has the name of `d`
      have hput : (g.record d.name p).parents = g.parents ++ [(d.name, p)] :=
        Table.put_of_notMem (hnew d List.mem_cons_self) p
      have hlater : ∀ d' ∈ ds, d'.name ∉ (g.record d.name p).parents.keys := by
        intro d' hd' hmem
        rw [hput, Table.keys, List.map_append, List.mem_append, List.map_singleton,
          List.mem_singleton] at hmem
        rcases hmem with hmem | hname
        · exact hrest d' hd' hmem
        · exact hd (List.mem_map.2 ⟨d', hd', hname⟩)
      have hedge : edge? d = some (d.name, p) := by rw [edge?, hp]; rfl
      rw [List.filterMap_cons_some hedge]
      refine (ih hnodup hlater).trans ?_
      rw [ParentGraph.edges, hput, List.append_assoc]
      rfl

/-- The edges of the graph are those of the classes, in the order of the text. -/
theorem edges_graph (r : Registry) : r.graph.edges = r.classes.filterMap edge? :=
  edges_foldl_record r.classes r.distinct fun _ _ => List.not_mem_nil

/-- The children of a name, told by the edges. -/
theorem childrenOf_eq_edges (r : Registry) (p : String) :
    r.graph.childrenOf p = ((r.classes.filterMap edge?).filter (·.2 = p)).map (·.1) := by
  rw [childrenOf_graph, List.filter_filterMap, List.map_filterMap, ← List.filterMap_eq_map,
    List.filterMap_filter]
  congr 1
  funext d
  -- a class with another parent, or without one, is in neither list
  cases hp : d.parent with
  | none => simp [edge?, hp]
  | some q =>
    by_cases hq : q = p
    · simp [edge?, hp, hq, Option.filter_some]
    · simp [edge?, hp, hq, Option.filter_some]

end Registry

namespace Script

/-! ### What the statements say -/

variable (s : Script)

/-- The name that a class extends, where a plain name is all that its clause has. -/
def parentName? (cls : Node) : Option String := do
  let clause ← cls.children.find? fun c => c.kind == .classHeritage
  match clause.namedChildren with
  | [expr] => if expr.kind = .identifier then s.source.slice? expr.start expr.stop else none
  | _ => none

/-- The text of the clause of a class. -/
def clauseText? (cls : Node) : Option String := do
  let clause ← cls.children.find? fun c => c.kind == .classHeritage
  let text ← s.source.slice? clause.start clause.stop
  return Text.afterWord "extends" text

/-- The name of the class that a statement declares, and the name that the class extends. -/
def extension? (stmt : Node) : Option (String × String) := do
  let cls ← stmt.declaredClass?
  let name ← s.className? stmt
  let parent ← s.parentName? cls
  return (name, parent)

/-- The pairs of class and parent at top level, in the order of the text. -/
def extensions : List (String × String) :=
  s.root.namedChildren.filterMap s.extension?

/-- Of all statements, that of the class `cls` is the first whose class has a name that came
before. -/
def FirstRepeated (name : String) (cls : Node) : Prop :=
  ∃ before stmt after, s.root.namedChildren = before ++ stmt :: after ∧
    stmt.declaredClass? = some cls ∧
    s.className? stmt = some name ∧ name ∈ before.filterMap s.className? ∧
    (before.filterMap s.className?).Nodup

/-- The registry says of names and parents what the statements say. -/
structure Mirrors (r : Registry) : Prop where
  /-- The names are those of the named classes, in the order of the text. -/
  names : r.names = s.classNames
  /-- Each name is there once. -/
  once : s.classNames.Nodup
  /-- The edges are the pairs of class and parent, in the same order. -/
  edges : r.graph.edges = s.extensions
  /-- The children of any name are the classes that extend it, in the same order. -/
  children : ∀ p, r.graph.childrenOf p = (s.extensions.filter (·.2 = p)).map (·.1)
  /-- Any name is extended just if some class extends it. -/
  extended : ∀ p, r.isExtended p = true ↔ ∃ child, (child, p) ∈ s.extensions

variable {s} {r : Registry} {d : ClassDecl}

theorem Registers.className? (h : s.Registers d) : s.className? d.statement = some d.name := by
  obtain ⟨n, hn, htext⟩ := h.name_eq
  exact className?_of_named h.class_eq hn htext

/-- What is read from the clause are the plain name in it and its text. -/
theorem extendsClause_spec {cls : Node} {clause : ExtendsClause}
    (h : s.extendsClause cls = .ok clause) :
    s.parentName? cls = clause.parent ∧ s.clauseText? cls = clause.text := by
  unfold extendsClause at h
  unfold parentName? clauseText?
  cases hclause : cls.children.find? fun c => c.kind == .classHeritage with
  | none =>
    rw [hclause] at h
    obtain rfl := Except.ok.inj h
    exact ⟨rfl, rfl⟩
  | some node =>
    rw [hclause] at h
    obtain ⟨text, htext, h⟩ := Attempt.bind_eq_ok.1 h
    show (match node.namedChildren with
      | [expr] => if expr.kind = .identifier then s.source.slice? expr.start expr.stop else none
      | _ => none) = clause.parent ∧ (s.source.slice? node.start node.stop).bind _ = clause.text
    rw [slice_eq_ok_iff.1 htext]
    -- the text is kept in all cases, and the name only if it stands alone
    cases hexprs : node.namedChildren with
    | nil =>
      rw [hexprs] at h
      rw [← Attempt.pure_eq_ok.1 h]
      exact ⟨rfl, rfl⟩
    | cons expr exprs =>
      rw [hexprs] at h
      cases exprs with
      | nil =>
        by_cases hk : expr.kind = .identifier
        · obtain ⟨name, hname, h⟩ := Attempt.bind_eq_ok.1 ((if_pos hk).symm.trans h)
          rw [← Attempt.pure_eq_ok.1 h]
          exact ⟨(if_pos hk).trans (slice_eq_ok_iff.1 hname), rfl⟩
        · rw [← Attempt.pure_eq_ok.1 ((if_neg hk).symm.trans h)]
          exact ⟨if_neg hk, rfl⟩
      | cons expr' exprs =>
        rw [← Attempt.pure_eq_ok.1 h]
        exact ⟨rfl, rfl⟩

theorem Registers.extension? (h : s.Registers d) : s.extension? d.statement = Registry.edge? d := by
  show (d.statement.declaredClass?.bind fun cls => (s.className? d.statement).bind fun name =>
    (s.parentName? cls).bind fun parent => some (name, parent)) = _
  rw [h.class_eq, h.className?, Option.bind_some, Option.bind_some,
    (extendsClause_spec h.clause_eq).1]
  show d.parent.bind _ = d.parent.map _
  cases d.parent <;> rfl

/-- What can be said of the class in a statement is said of the registered classes, in the same
order. -/
theorem filterMap_statements {β : Type} (hr : s.registry = .ok r) {f : Node → Option β}
    {g : ClassDecl → Option β} (hnone : ∀ stmt, stmt.namesClass = false → f stmt = none)
    (hsome : ∀ d ∈ r.classes, f d.statement = g d) :
    s.root.namedChildren.filterMap f = r.classes.filterMap g := by
  have hstmts : r.classes.map (·.statement) = s.root.namedChildren.filter Node.namesClass :=
    statements_registerAll _ hr
  calc s.root.namedChildren.filterMap f
      = (s.root.namedChildren.filter Node.namesClass).filterMap f := by
        -- statements that name no class have no part in it
        rw [List.filterMap_filter]
        refine List.filterMap_congr fun stmt _ => ?_
        cases h : stmt.namesClass with
        | true => rfl
        | false => exact hnone stmt h
    _ = r.classes.filterMap (f ∘ (·.statement)) := by rw [← hstmts, List.filterMap_map]
    _ = r.classes.filterMap g := List.filterMap_congr hsome

theorem className?_of_not_namesClass {stmt : Node} (h : stmt.namesClass = false) :
    s.className? stmt = none :=
  className?_of_unnamed (Option.isSome_eq_false_iff.1 h |> Option.isNone_iff_eq_none.1)

theorem extension?_of_not_namesClass {stmt : Node} (h : stmt.namesClass = false) :
    s.extension? stmt = none := by
  show (stmt.declaredClass?.bind fun cls => (s.className? stmt).bind _) = none
  rw [className?_of_not_namesClass h]
  cases stmt.declaredClass? <;> rfl

theorem mirrors_of_registry (hr : s.registry = .ok r) : s.Mirrors r := by
  -- names and pairs are read off the statements in the same order as off the classes
  have hnames : s.classNames = r.names := by
    refine (filterMap_statements hr (g := fun d => some d.name)
      (fun stmt h => className?_of_not_namesClass h)
      fun d hd => (registers_of_registry hr hd).className?).trans ?_
    exact congrFun List.filterMap_eq_map r.classes
  have hextensions : s.extensions = r.classes.filterMap Registry.edge? :=
    filterMap_statements hr (fun stmt h => extension?_of_not_namesClass h)
      fun d hd => (registers_of_registry hr hd).extension?
  have hchildren : ∀ p, r.graph.childrenOf p = (s.extensions.filter (·.2 = p)).map (·.1) := by
    intro p
    rw [hextensions]
    exact r.childrenOf_eq_edges p
  refine ⟨hnames.symm, hnames ▸ r.distinct, r.edges_graph.trans hextensions.symm, hchildren,
    fun p => ?_⟩
  -- a name is extended if it has a child, and its children are those of the pairs
  rw [Registry.isExtended, ParentGraph.isExtended, hchildren, Bool.not_eq_true',
    List.isEmpty_eq_false_iff_exists_mem]
  simp

/-! ### The first repeated name -/

/-- Statements can be registered in two parts. -/
theorem registerAll_append (before after : List Node) (r : Registry) :
    s.registerAll r (before ++ after)
      = s.registerAll r before >>= fun r' => s.registerAll r' after := by
  induction before generalizing r with
  | nil => rfl
  | cons stmt before ih =>
    cases hnode : stmt.declaredClass?.bind (·.child? .name) with
    | none =>
      rw [List.cons_append, registerAll_of_unnamed hnode, registerAll_of_unnamed hnode]
      exact ih r
    | some nameNode =>
      obtain ⟨cls, hcls, hchild⟩ := Option.bind_eq_some_iff.1 hnode
      cases hname : s.text nameNode with
      | error e =>
        -- a failure in the first part is the failure of both
        simp only [List.cons_append, registerAll, hcls, hchild, hname]
        rfl
      | ok name =>
        by_cases hmem : name ∈ r.names
        · rw [List.cons_append, registerAll_of_mem hcls hchild hname hmem,
            registerAll_of_mem hcls hchild hname hmem]
          rfl
        · rw [List.cons_append, registerAll_of_new hcls hchild hname hmem,
            registerAll_of_new hcls hchild hname hmem]
          -- the class is registered, unless its clause or its members cannot be read
          cases s.extendsClause cls with
          | error e => rfl
          | ok clause =>
            cases s.membersOf cls name with
            | error e => rfl
            | ok members => exact ih _

/-- The registry is refused at the first class whose name came before. -/
theorem registry_of_firstRepeated (hroot : s.root.OnBoundaries s.source) {name : String}
    {cls : Node} (h : s.FirstRepeated name cls) :
    s.registry = .error (.refused ((Fault.redeclared name).error (s.position cls))) := by
  obtain ⟨before, stmt, after, hstmts, hcls, hname, hmem, hnodup⟩ := h
  have hbounds : ∀ stmt ∈ before, stmt.OnBoundaries s.source := by
    intro stmt' hstmt'
    refine hroot.of_mem_namedChildren ?_
    rw [hstmts]
    exact List.mem_append_left _ hstmt'
  -- what comes before has different names and is registered
  obtain ⟨r, hr, hnames⟩ : ∃ r, s.registerAll .empty before = .ok r ∧
      r.names = before.filterMap s.className? := by
    rcases registerAll_cases hbounds .empty with hok | ⟨-, hrepeated⟩
    · exact hok
    · exact absurd hnodup hrepeated
  obtain ⟨nameNode, hchild, htext⟩ : ∃ n, cls.child? .name = some n ∧ s.text n = .ok name := by
    have hname' : (stmt.declaredClass?.bind fun cls => (cls.child? .name).bind fun n =>
        s.source.slice? n.start n.stop) = some name := hname
    rw [hcls, Option.bind_some] at hname'
    obtain ⟨n, hn, hslice⟩ := Option.bind_eq_some_iff.1 hname'
    exact ⟨n, hn, slice_eq_ok_iff.2 hslice⟩
  -- so the class finds its name taken
  rw [registry, hstmts, registerAll_append, hr]
  exact registerAll_of_mem hcls hchild htext (hnames ▸ hmem)

theorem exists_firstRepeated {name : String} (h : [name, name].Sublist s.classNames) :
    ∃ name cls, s.FirstRepeated name cls := by
  have hnodup : ¬ s.classNames.Nodup := fun hnodup => List.nodup_iff_sublist.1 hnodup name h
  obtain ⟨before, stmt, after, name', hstmts, hname, hmem, hbefore⟩ := exists_first_repeated hnodup
  obtain ⟨cls, hcls, -⟩ := Option.bind_eq_some_iff.1 hname
  exact ⟨name', cls, before, stmt, after, hstmts, hcls, hname, hmem, hbefore⟩

/-- **The registry and its graph mirror the script.** It is refused just if two named top-level
classes share a name, at the class of the first statement whose name came before. Otherwise names,
edges, and the children of any name are what the statements say. -/
theorem mirrors_registry (hroot : s.root.OnBoundaries s.source) :
    ((∃ e, s.registry = .error (.refused e)) ↔ ∃ name, [name, name].Sublist s.classNames) ∧
      (∀ f, s.registry = .error f → ∃ name cls, s.FirstRepeated name cls ∧
        f = .refused ((Fault.redeclared name).error (s.position cls))) ∧
      ((¬ ∃ name, [name, name].Sublist s.classNames) → ∃ r, s.registry = .ok r ∧ s.Mirrors r) := by
  rcases registry_cases hroot with ⟨⟨r, hr⟩, hapart⟩ | ⟨⟨e, he⟩, name, hshared⟩
  · refine ⟨⟨fun ⟨e, he⟩ => ?_, fun h => absurd h hapart⟩, fun f hf => ?_,
      fun _ => ⟨r, hr, mirrors_of_registry hr⟩⟩
    · cases hr.symm.trans he
    · cases hr.symm.trans hf
  · refine ⟨⟨fun _ => ⟨name, hshared⟩, fun _ => ⟨e, he⟩⟩, fun f hf => ?_,
      fun h => absurd ⟨name, hshared⟩ h⟩
    -- among the names that are shared one is the first to be repeated
    obtain ⟨name', cls, hfirst⟩ := exists_firstRepeated hshared
    refine ⟨name', cls, hfirst, ?_⟩
    exact Except.error.inj (hf.symm.trans (registry_of_firstRepeated hroot hfirst))

end Script

/-- The classes `A` and `C` extend a name that the script does not declare, and `B` extends `A`. -/
def unknownParent : Script where
  source :=
    .ofText ("class A extends Z\x7b\x7d" ++ "class B extends A\x7b\x7d"
      ++ "class C extends Z\x7b\x7d")
  root := .sound (.other "program") none 0 57
    [.shortClass 0 17 19 [.shortHeritage 8] [], .shortClass 19 36 38 [.shortHeritage 27] [],
      .shortClass 38 55 57 [.shortHeritage 46] []]

/-- The unknown name has both of its children. Two classes of one name are refused at the second. -/
theorem mirrors_registry_unknownParent :
    unknownParent.root.OnBoundaries unknownParent.source ∧
    unknownParent.extensions = [("A", "Z"), ("B", "A"), ("C", "Z")] ∧
    (∃ r, unknownParent.registry = .ok r ∧ unknownParent.Mirrors r ∧
      r.graph.childrenOf "Z" = ["A", "C"]) ∧
    namesakes.root.OnBoundaries namesakes.source ∧
    ∃ e, namesakes.registry = .error (.refused e) ∧
      e = ⟨"class 'A' has already been declared", 1, 9⟩ ∧
      ∃ name cls, namesakes.FirstRepeated name cls ∧
        e = (Fault.redeclared name).error (namesakes.position cls) := by
  have hroot : unknownParent.root.OnBoundaries unknownParent.source := by decide +kernel
  have hroot' : namesakes.root.OnBoundaries namesakes.source := by decide +kernel
  have hextensions : unknownParent.extensions = [("A", "Z"), ("B", "A"), ("C", "Z")] := by
    decide +kernel
  have hnames : unknownParent.classNames.Nodup := by decide +kernel
  obtain ⟨r, hr, hmirrors⟩ := (Script.mirrors_registry hroot).2.2 fun ⟨name, h⟩ =>
    List.nodup_iff_sublist.1 hnames name h
  have hchildren : r.graph.childrenOf "Z" = ["A", "C"] := by
    rw [hmirrors.children, hextensions]
    decide
  obtain ⟨e, he⟩ := (Script.mirrors_registry hroot').1.2 ⟨"A", by decide +kernel⟩
  obtain ⟨name, cls, hfirst, herror⟩ := (Script.mirrors_registry hroot').2.1 _ he
  have htest : (match namesakes.registry with
      | .error (.refused e) => e == ⟨"class 'A' has already been declared", 1, 9⟩
      | _ => false) = true := by decide +kernel
  rw [he] at htest
  exact ⟨hroot, hextensions, ⟨r, hr, hmirrors, hchildren⟩, hroot', e, he, beq_iff_eq.1 htest, name,
    cls, hfirst, Failure.refused.inj herror⟩

end Disinherit
