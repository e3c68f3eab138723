import Disinherit.Proofs.Class.Body
import Disinherit.Proofs.Class.Mirror
import Disinherit.Proofs.Lineage.Coexistence

/-!
# Comments and what is registered

A comment can stand between any two tokens, and the tree has it among the children of the node
around it. `Script.withoutComments` is the same text with the comments taken out of its tree, and
this module compares the two registries. Where children are found by their role or their kind a
comment is never met, and where words before a name are looked for it is passed over, since children
come in the order of the text (`Node.WellArranged`). So names, clauses, forms of export and the
identities of members stay as they are.

The parent of a class is different. It is a plain name only if that is the one named child of the
clause, and a comment beside the name is a named child as well. `Script.hiddenParent?` is a name
that is lost in this way. `alike_withoutComments_iff` says that it is the only loss: both registries
are refused with the same error, or their classes agree in all but the hidden parents, and the
registries are alike just if no class has one.
-/

namespace Disinherit

/-! ### Trees without comments -/

namespace Node

mutual

/-- The tree without the comments below its root. -/
def withoutComments : Node → Node
  | ⟨kind, field, named, missing, erroneous, start, stop, children⟩ =>
    ⟨kind, field, named, missing, erroneous, start, stop, withoutCommentsAmong children⟩

/-- The trees of a list that are no comments, without the comments below them. -/
def withoutCommentsAmong : List Node → List Node
  | [] => []
  | n :: ns =>
    if n.kind = .comment then withoutCommentsAmong ns
    else n.withoutComments :: withoutCommentsAmong ns

end

/-- The nodes of a list that are no comments. -/
def uncommented (ns : List Node) : List Node :=
  ns.filter (·.kind ≠ .comment)

/-- The children come in the order of the text, and comments have no role. -/
structure Arranged (n : Node) : Prop where
  ordered : n.children.Pairwise fun a b => a.start ≤ b.start
  roleless : ∀ c ∈ n.children, c.kind = .comment → c.field = none

/-- All nodes of the tree have their children arranged. -/
def WellArranged (n : Node) : Prop :=
  ∀ m ∈ n.preorder, m.Arranged

instance (n : Node) : Decidable n.Arranged :=
  decidable_of_iff
    ((n.children.Pairwise fun a b => a.start ≤ b.start) ∧
      ∀ c ∈ n.children, c.kind = .comment → c.field = none)
    ⟨fun h => ⟨h.1, h.2⟩, fun h => ⟨h.ordered, h.roleless⟩⟩

instance (n : Node) : Decidable n.WellArranged :=
  inferInstanceAs (Decidable (∀ m ∈ n.preorder, m.Arranged))

variable {n : Node}

theorem WellArranged.arranged (h : n.WellArranged) : n.Arranged :=
  h n (mem_preorder_self n)

theorem WellArranged.of_mem {m : Node} (h : n.WellArranged) (hm : m ∈ n.preorder) :
    m.WellArranged :=
  fun k hk => h k (mem_preorder_trans hk hm)

theorem WellArranged.of_mem_namedChildren {m : Node} (h : n.WellArranged)
    (hm : m ∈ n.namedChildren) : m.WellArranged :=
  h.of_mem (mem_preorder_of_mem_children (List.mem_filter.1 hm).1)

@[simp] theorem kind_withoutComments (n : Node) : n.withoutComments.kind = n.kind := by
  cases n; rw [withoutComments]

@[simp] theorem field_withoutComments (n : Node) : n.withoutComments.field = n.field := by
  cases n; rw [withoutComments]

@[simp] theorem named_withoutComments (n : Node) : n.withoutComments.named = n.named := by
  cases n; rw [withoutComments]

@[simp] theorem start_withoutComments (n : Node) : n.withoutComments.start = n.start := by
  cases n; rw [withoutComments]

@[simp] theorem stop_withoutComments (n : Node) : n.withoutComments.stop = n.stop := by
  cases n; rw [withoutComments]

theorem withoutCommentsAmong_eq (ns : List Node) :
    withoutCommentsAmong ns = (uncommented ns).map withoutComments := by
  induction ns with
  | nil => rw [withoutCommentsAmong]; rfl
  | cons n ns ih =>
    rw [withoutCommentsAmong, uncommented]
    by_cases h : n.kind = .comment
    · rw [if_pos h, List.filter_cons_of_neg (by simpa using h), ih, uncommented]
    · rw [if_neg h, List.filter_cons_of_pos (by simpa using h), ih, List.map_cons, uncommented]

@[simp] theorem children_withoutComments (n : Node) :
    n.withoutComments.children = (uncommented n.children).map withoutComments := by
  cases n
  rw [withoutComments]
  exact withoutCommentsAmong_eq _

theorem namedChildren_withoutComments (n : Node) :
    n.withoutComments.namedChildren = (uncommented n.namedChildren).map withoutComments := by
  rw [namedChildren, namedChildren, children_withoutComments, List.filter_map, uncommented,
    uncommented, List.filter_filter, List.filter_filter]
  congr 1
  refine List.filter_congr fun c _ => ?_
  rw [Function.comp_apply, named_withoutComments, Bool.and_comm]

/-- What no comment fulfils is found at the same node. -/
theorem find?_uncommented {p : Node → Bool} {ns : List Node}
    (h : ∀ c ∈ ns, c.kind = .comment → p c = false) : (uncommented ns).find? p = ns.find? p := by
  induction ns with
  | nil => rfl
  | cons c ns ih =>
    have ih := ih fun c' hc' => h c' (List.mem_cons_of_mem c hc')
    by_cases hk : c.kind = .comment
    · -- a comment is passed over on both sides
      rw [uncommented, List.filter_cons_of_neg (by simpa using hk), List.find?_cons,
        h c List.mem_cons_self hk]
      exact ih
    · rw [uncommented, List.filter_cons_of_pos (by simpa using hk), List.find?_cons,
        List.find?_cons]
      cases p c with
      | true => rfl
      | false => exact ih

theorem find?_withoutComments {p : Node → Bool} (hp : ∀ c : Node, p c.withoutComments = p c)
    (h : ∀ c ∈ n.children, c.kind = .comment → p c = false) :
    n.withoutComments.children.find? p = (n.children.find? p).map withoutComments := by
  rw [children_withoutComments, List.find?_map, ← find?_uncommented h]
  congr 2
  funext c
  exact hp c

theorem child?_withoutComments (h : n.Arranged) (f : Field) :
    n.withoutComments.child? f = (n.child? f).map withoutComments := by
  refine find?_withoutComments (fun c => by rw [field_withoutComments]) fun c hc hk => ?_
  rw [h.roleless c hc hk]
  rfl

theorem isWord_withoutComments (k : Kind) (n : Node) : n.withoutComments.isWord k = n.isWord k := by
  rw [isWord, isWord, kind_withoutComments, named_withoutComments]

/-- A word that is no comment is found among all nodes just if it is found among those that are
none. -/
theorem any_isWord_uncommented {k : Kind} (hk : k ≠ .comment) (ns : List Node) :
    ((uncommented ns).map withoutComments).any (·.isWord k) = ns.any (·.isWord k) := by
  rw [List.any_map, uncommented, List.any_filter]
  congr 1
  funext c
  rw [Function.comp_apply, isWord_withoutComments]
  -- a comment is of another kind than the word, and so it does not count in either list
  by_cases hc : c.kind = .comment
  · simp [isWord, hc, Ne.symm hk]
  · simp [hc]

theorem hasWord_none_withoutComments {k : Kind} (hk : k ≠ .comment) (n : Node) :
    n.withoutComments.hasWord k none = n.hasWord k none := by
  show n.withoutComments.children.any _ = n.children.any _
  rw [children_withoutComments]
  exact any_isWord_uncommented hk n.children

/-- The words before a node are the same, because the children before it are. -/
theorem hasWord_some_withoutComments (h : n.Arranged) {k : Kind} (hk : k ≠ .comment) (b : Node) :
    n.withoutComments.hasWord k (some b.withoutComments) = n.hasWord k (some b) := by
  show (n.withoutComments.children.takeWhile fun c =>
    decide (c.start < b.withoutComments.start)).any _
    = (n.children.takeWhile fun c => decide (c.start < b.start)).any _
  -- the children before `b` are a first part of the list, since children come in order
  have hbefore : n.withoutComments.children.takeWhile
      (fun c => decide (c.start < b.withoutComments.start))
      = (uncommented (n.children.takeWhile fun c => decide (c.start < b.start))).map
        withoutComments := by
    rw [children_withoutComments, List.takeWhile_map, uncommented, uncommented]
    congr 1
    refine Eq.trans ?_ (takeWhile_filter_of_pairwise (h.ordered.imp fun {x y} hxy hy => ?_))
    · congr 1
      funext c
      rw [Function.comp_apply, start_withoutComments, start_withoutComments]
    · exact decide_eq_true (Nat.lt_of_le_of_lt hxy (of_decide_eq_true hy))
  rw [hbefore]
  exact any_isWord_uncommented hk _

theorem declaredClass?_withoutComments (h : n.Arranged) :
    n.withoutComments.declaredClass? = n.declaredClass?.map withoutComments := by
  unfold declaredClass?
  rw [kind_withoutComments, child?_withoutComments h, child?_withoutComments h]
  split
  · rfl
  · rw [← Option.map_or, Option.filter_map]
    congr 2
    funext c
    rw [Function.comp_apply, kind_withoutComments]
  · rfl

theorem exportForm_withoutComments (n : Node) : n.withoutComments.exportForm = n.exportForm := by
  unfold exportForm
  rw [kind_withoutComments, hasWord_none_withoutComments (by decide)]

theorem bodyItems_withoutComments (h : n.Arranged) :
    n.withoutComments.bodyItems = (uncommented n.bodyItems).map withoutComments := by
  unfold bodyItems
  rw [child?_withoutComments h]
  cases n.child? .body with
  | none => rfl
  | some body => exact namedChildren_withoutComments body

/-- Each node of the tree without comments comes from a node of the tree. -/
theorem exists_of_mem_withoutComments {m : Node} (h : m ∈ n.withoutComments.preorder) :
    ∃ k ∈ n.preorder, m = k.withoutComments := by
  induction n using childInduction with
  | step n ih =>
    -- the root comes from the root, and what is below a child from below that child
    rcases mem_preorder_iff.1 h with rfl | ⟨c, hc, hm⟩
    · exact ⟨n, mem_preorder_self n, rfl⟩
    · rw [children_withoutComments] at hc
      obtain ⟨c, hc', rfl⟩ := List.mem_map.1 hc
      have hc := (List.mem_filter.1 hc').1
      obtain ⟨k, hk, rfl⟩ := ih c hc hm
      exact ⟨k, Below.mem_preorder ⟨c, hc, hk⟩, rfl⟩

theorem OnBoundaries.withoutComments {source : Source} (h : n.OnBoundaries source) :
    n.withoutComments.OnBoundaries source := by
  intro m hm
  obtain ⟨k, hk, rfl⟩ := exists_of_mem_withoutComments hm
  rw [start_withoutComments, stop_withoutComments]
  exact h k hk

end Node

/-! ### What is read from them -/

/-- The script without the comments of its tree. The text is the same. -/
def Script.withoutComments (s : Script) : Script where
  source := s.source
  root := s.root.withoutComments

namespace Script

variable {s : Script} {n : Node}

theorem text_withoutComments (n : Node) : s.withoutComments.text n.withoutComments = s.text n := by
  rw [text, text, n.start_withoutComments, n.stop_withoutComments]
  rfl

theorem slice?_withoutComments (n : Node) :
    s.withoutComments.source.slice? n.withoutComments.start n.withoutComments.stop
      = s.source.slice? n.start n.stop := by
  rw [n.start_withoutComments, n.stop_withoutComments]
  rfl

theorem nameAndVisibility_withoutComments (n : Node) :
    s.withoutComments.nameAndVisibility n.withoutComments = s.nameAndVisibility n := by
  unfold nameAndVisibility literalText
  rw [n.kind_withoutComments, text_withoutComments]

theorem methodKind_withoutComments (h : n.Arranged) (nameNode : Node) (name : String) :
    methodKind n.withoutComments nameNode.withoutComments name = methodKind n nameNode name := by
  have hwords : ∀ k, k ≠ .comment →
      n.withoutComments.hasWord k (some nameNode.withoutComments) = n.hasWord k (some nameNode) :=
    fun k hk => Node.hasWord_some_withoutComments h hk nameNode
  simp only [methodKind, hwords .staticGetToken (by decide), hwords .staticToken (by decide),
    hwords .getToken (by decide), hwords .setToken (by decide), nameNode.kind_withoutComments]

/-- A node declares the same member without its comments. -/
theorem identity?_withoutComments (h : n.Arranged) :
    s.withoutComments.identity? n.withoutComments = s.identity? n := by
  unfold identity?
  rw [n.kind_withoutComments, Node.child?_withoutComments h, Node.child?_withoutComments h]
  -- static blocks, fields and methods are told by parts that are found by their roles
  split
  · rfl
  · cases n.child? .property with
    | none => rfl
    | some property =>
      show (s.withoutComments.nameAndVisibility property.withoutComments >>= _) = _
      rw [nameAndVisibility_withoutComments, Node.hasWord_some_withoutComments h (by decide)]
  · cases n.child? .name with
    | none => rfl
    | some nameNode =>
      show (s.withoutComments.nameAndVisibility nameNode.withoutComments >>= _) = _
      rw [nameAndVisibility_withoutComments]
      congr 1
      funext ⟨name, visibility⟩
      dsimp only
      rw [methodKind_withoutComments h]
  · rfl

theorem declared?_withoutComments (h : n.Arranged) :
    s.withoutComments.declared? n.withoutComments = s.declared? n := by
  unfold declared?
  rw [identity?_withoutComments h]

/-- What comments say nothing about can be said of nodes with or without them. -/
theorem filterMap_uncommented {β : Type} {f g : Node → Option β} {ns : List Node}
    (hnone : ∀ c ∈ ns, c.kind = .comment → f c = none)
    (hsome : ∀ c ∈ ns, g c.withoutComments = f c) :
    ((Node.uncommented ns).map Node.withoutComments).filterMap g = ns.filterMap f := by
  rw [List.filterMap_map, Node.uncommented, List.filterMap_filter]
  refine List.filterMap_congr fun c hc => ?_
  by_cases hk : c.kind = .comment
  · simp [hk, hnone c hc hk]
  · simp [hk, hsome c hc]

theorem declared?_of_comment (h : n.kind = .comment) : s.declared? n = none := by
  rw [declared?, identity?_of_comment h]

/-- The body of a class declares the same members. -/
theorem filterMap_declared?_withoutComments {cls : Node} (h : cls.WellArranged) :
    cls.withoutComments.bodyItems.filterMap s.withoutComments.declared?
      = cls.bodyItems.filterMap s.declared? := by
  rw [Node.bodyItems_withoutComments h.arranged]
  refine filterMap_uncommented (fun c _ hk => declared?_of_comment hk) fun c hc => ?_
  exact declared?_withoutComments (h.of_mem (Node.mem_preorder_of_mem_bodyItems hc)).arranged

/-- The name of the class in a statement stands at the same node. -/
theorem nameNode_withoutComments {stmt : Node} (h : stmt.WellArranged) :
    stmt.withoutComments.declaredClass?.bind (·.child? .name)
      = (stmt.declaredClass?.bind (·.child? .name)).map Node.withoutComments := by
  rw [Node.declaredClass?_withoutComments h.arranged]
  cases hcls : stmt.declaredClass? with
  | none => rfl
  | some cls =>
    exact Node.child?_withoutComments (h.of_mem (Node.mem_preorder_of_declaredClass hcls)).arranged
      .name

/-- A statement names the same class. -/
theorem className?_withoutComments {stmt : Node} (h : stmt.WellArranged) :
    s.withoutComments.className? stmt.withoutComments = s.className? stmt := by
  show (stmt.withoutComments.declaredClass?.bind fun cls => (cls.child? .name).bind _)
    = stmt.declaredClass?.bind fun cls => (cls.child? .name).bind _
  rw [← Option.bind_assoc, ← Option.bind_assoc, nameNode_withoutComments h]
  cases stmt.declaredClass?.bind (·.child? .name) with
  | none => rfl
  | some name => exact slice?_withoutComments name

theorem namesClass_withoutComments {stmt : Node} (h : stmt.WellArranged) :
    stmt.withoutComments.namesClass = stmt.namesClass := by
  rw [Node.namesClass, Node.namesClass, nameNode_withoutComments h, Option.isSome_map]

/-! ### Parents -/

/-- The text of a plain name that stands alone. -/
def plainName? (s : Script) : List Node → Option String
  | [expr] => if expr.kind = .identifier then s.source.slice? expr.start expr.stop else none
  | _ => none

/-- The name that a class extends, where a comment stands beside it in the clause and nothing but
comments does. -/
def hiddenParent? (s : Script) (cls : Node) : Option String := do
  let clause ← cls.children.find? fun c => c.kind == .classHeritage
  if clause.namedChildren.any (·.kind = .comment) then
    s.plainName? (Node.uncommented clause.namedChildren)
  else none

theorem parentName?_eq (cls : Node) : s.parentName? cls
    = (cls.children.find? fun c => c.kind == .classHeritage).bind fun clause =>
      s.plainName? clause.namedChildren :=
  rfl

theorem find?_classHeritage_withoutComments (n : Node) :
    (n.withoutComments.children.find? fun c => c.kind == .classHeritage)
      = (n.children.find? fun c => c.kind == .classHeritage).map Node.withoutComments := by
  refine Node.find?_withoutComments (fun c => by rw [c.kind_withoutComments]) fun c _ hk => ?_
  rw [hk]
  rfl

theorem plainName?_withoutComments (ns : List Node) :
    s.withoutComments.plainName? (ns.map Node.withoutComments) = s.plainName? ns := by
  match ns with
  | [] => rfl
  | [n] =>
    show (if n.withoutComments.kind = .identifier then _ else _)
      = if n.kind = .identifier then _ else _
    rw [n.kind_withoutComments, slice?_withoutComments]
  | _ :: _ :: _ => rfl

/-- A comment beside a plain name keeps it from standing alone. -/
theorem plainName?_of_any_comment {ns : List Node} (h : ns.any (·.kind = .comment) = true) :
    s.plainName? ns = none := by
  match ns with
  | [] => rfl
  | [n] =>
    -- the one child is the comment itself
    have hk : n.kind = .comment := by simpa using h
    exact if_neg fun hident => by rw [hk] at hident; cases hident
  | _ :: _ :: _ => rfl

theorem uncommented_eq_self {ns : List Node} (h : ns.any (·.kind = .comment) = false) :
    Node.uncommented ns = ns := by
  refine List.filter_eq_self.2 fun n hn => ?_
  have hk := List.any_eq_false.1 h n hn
  simpa using hk

/-- A class has its parent hidden only if none is read. -/
theorem parentName?_of_hiddenParent? {cls : Node} (h : s.hiddenParent? cls ≠ none) :
    s.parentName? cls = none := by
  rw [parentName?_eq]
  unfold hiddenParent? at h
  cases hclause : cls.children.find? fun c => c.kind == .classHeritage with
  | none => rfl
  | some clause =>
    rw [hclause] at h
    show s.plainName? clause.namedChildren = none
    -- a name counts as hidden only where there is a comment in the clause
    refine plainName?_of_any_comment ?_
    by_contra hnone
    exact h (if_neg hnone)

/-- Without comments the parent is the one that was read before or was hidden. -/
theorem parentName?_withoutComments (cls : Node) :
    s.withoutComments.parentName? cls.withoutComments
      = (s.parentName? cls).or (s.hiddenParent? cls) := by
  rw [parentName?_eq, parentName?_eq, find?_classHeritage_withoutComments]
  unfold hiddenParent?
  cases cls.children.find? fun c => c.kind == .classHeritage with
  | none => rfl
  | some clause =>
    show s.withoutComments.plainName? clause.withoutComments.namedChildren
      = (s.plainName? clause.namedChildren).or (if _ then _ else _)
    rw [Node.namedChildren_withoutComments, plainName?_withoutComments]
    -- a comment in the clause keeps the name from being read, and without one nothing is left out
    cases hany : clause.namedChildren.any (·.kind = .comment) with
    | true => rw [plainName?_of_any_comment hany, Option.none_or]; rfl
    | false => rw [uncommented_eq_self hany]; exact (Option.or_none).symm

theorem clauseText?_withoutComments (cls : Node) :
    s.withoutComments.clauseText? cls.withoutComments = s.clauseText? cls := by
  unfold clauseText?
  rw [find?_classHeritage_withoutComments]
  cases cls.children.find? fun c => c.kind == .classHeritage with
  | none => rfl
  | some clause =>
    show (s.withoutComments.source.slice? clause.withoutComments.start
      clause.withoutComments.stop).bind _ = _
    rw [slice?_withoutComments]
    rfl

end Script

/-! ### Identities of members -/

/-- Which declarations stand is told by the identities. -/
theorem map_identity_standing {ms : List Member} : ∀ {ms' : List Member},
    ms.map (·.identity) = ms'.map (·.identity) →
    (standing ms).map (·.identity) = (standing ms').map (·.identity) := by
  induction ms with
  | nil =>
    intro ms' h
    obtain rfl := List.map_eq_nil_iff.1 h.symm
    rfl
  | cons m ms ih =>
    intro ms' h
    cases ms' with
    | nil => cases h
    | cons m' ms' =>
      rw [List.map_cons, List.map_cons, List.cons.injEq] at h
      obtain ⟨hm, hms⟩ := h
      -- a declaration makes room for a later one, and for that too only identities are compared
      have hyields : ms.any m.yieldsTo = ms'.any m'.yieldsTo := by
        have hany : ∀ (a : Member) (l : List Member), l.any a.yieldsTo
            = (l.map (·.identity)).any fun i => a.identity.kind != .staticBlock
              && a.identity == i := by
          intro a l
          rw [List.any_map]
          rfl
        rw [hany, hany, hms, hm]
      rw [standing, standing, hyields]
      split
      · exact ih hms
      · rw [List.map_cons, List.map_cons, hm, ih hms]

namespace Members

theorem Holds.identities_eq {ms : Members} {l : List Member} (h : ms.Holds l) :
    ms.identities = stations.flatMap fun k => (l.map (·.identity)).filter (·.station = k) := by
  rw [identities, toList_eq_flatMap, List.map_flatMap]
  refine List.flatMap_congr fun k _ => ?_
  rw [h k, List.filter_map]
  rfl

end Members

namespace Script

variable {s : Script}

/-- The identities of the members of a class are told by what its body declares. -/
theorem Registers.identities_congr {s' : Script} {d d' : ClassDecl} (h : s.Registers d)
    (h' : s'.Registers d')
    (hitems : d'.node.bodyItems.filterMap s'.declared? = d.node.bodyItems.filterMap s.declared?) :
    d'.members.identities = d.members.identities := by
  obtain ⟨ds, hds, hmembers⟩ := h.declarations
  obtain ⟨ds', hds', hmembers'⟩ := h'.declarations
  -- the declarations of both bodies have the same identities, and these decide which stand
  have hidentity : ds'.map (·.identity) = ds.map (·.identity) := by
    rw [map_identity_of_describes _ (describes_declarations hds'),
      map_identity_of_describes _ (describes_declarations hds), hitems]
  rw [hmembers, hmembers',
    (Members.holds_ofDeclarations (identity_eq_of_constructor hds)).identities_eq,
    (Members.holds_ofDeclarations (identity_eq_of_constructor hds')).identities_eq,
    map_identity_standing hidentity]

end Script

/-! ### Registries -/

/-- Two classes have the same name, parent, clause and form of export, and members of the same
identities in the same order. -/
structure ClassDecl.Alike (d d' : ClassDecl) : Prop where
  name : d'.name = d.name
  parent : d'.parent = d.parent
  extendsText : d'.extendsText = d.extendsText
  exportForm : d'.exportForm = d.exportForm
  identities : d'.members.identities = d.members.identities

/-- Two registries have like classes in the same order, and the same inheritance graph. -/
structure Registry.Alike (r r' : Registry) : Prop where
  classes : List.Forall₂ ClassDecl.Alike r.classes r'.classes
  graph : r'.graph = r.graph

/-- The graph is told by names and parents. -/
theorem Registry.graph_congr {r r' : Registry}
    (h : List.Forall₂ ClassDecl.Alike r.classes r'.classes) : r'.graph = r.graph := by
  unfold graph
  -- both graphs are built class by class, from any graph on
  generalize ParentGraph.empty = g, r.classes = ds, r'.classes = ds' at h ⊢
  induction h generalizing g with
  | nil => rfl
  | cons hd _ ih =>
    rw [List.foldl_cons, List.foldl_cons, hd.name, hd.parent]
    exact ih _

namespace Script

variable {s : Script}

/-- What is registered for the class `d` where comments are left out: all the same, but a parent
that was hidden is there. -/
structure Uncommented (s : Script) (d d' : ClassDecl) : Prop where
  name : d'.name = d.name
  extendsText : d'.extendsText = d.extendsText
  exportForm : d'.exportForm = d.exportForm
  identities : d'.members.identities = d.members.identities
  parent : d'.parent = d.parent.or (s.hiddenParent? d.node)
  hidden : s.hiddenParent? d.node ≠ none → d.parent = none

theorem Uncommented.alike_iff {d d' : ClassDecl} (h : s.Uncommented d d') :
    d.Alike d' ↔ s.hiddenParent? d.node = none := by
  constructor
  · intro halike
    by_contra hsome
    -- a hidden parent appears in the other class, while this one has none
    have hparent := h.parent.symm.trans halike.parent
    rw [h.hidden hsome, Option.none_or] at hparent
    exact hsome hparent
  · intro hnone
    refine ⟨h.name, ?_, h.extendsText, h.exportForm, h.identities⟩
    rw [h.parent, hnone, Option.or_none]

theorem forall₂_alike_iff {ds ds' : List ClassDecl} (h : List.Forall₂ s.Uncommented ds ds') :
    List.Forall₂ ClassDecl.Alike ds ds' ↔ ∀ d ∈ ds, s.hiddenParent? d.node = none := by
  induction h with
  | nil => simp
  | cons hd _ ih => rw [List.forall₂_cons, hd.alike_iff, ih, List.forall_mem_cons]

/-- A class is registered from its statement, and from the statement without comments. -/
theorem Registers.uncommented {d d' : ClassDecl} (h : s.Registers d)
    (h' : s.withoutComments.Registers d') (harranged : d.statement.WellArranged)
    (hstmt : d'.statement = d.statement.withoutComments) : s.Uncommented d d' := by
  -- the class of the statement without comments is the class without comments
  have hcls : d'.node = d.node.withoutComments := by
    have hclass := h'.class_eq
    rw [hstmt, Node.declaredClass?_withoutComments harranged.arranged, h.class_eq] at hclass
    exact (Option.some.inj hclass).symm
  have hnode := harranged.of_mem (Node.mem_preorder_of_declaredClass h.class_eq)
  obtain ⟨hparent, htext⟩ : s.parentName? d.node = d.parent ∧
      s.clauseText? d.node = d.extendsText :=
    extendsClause_spec h.clause_eq
  obtain ⟨hparent', htext'⟩ : s.withoutComments.parentName? d'.node = d'.parent ∧
      s.withoutComments.clauseText? d'.node = d'.extendsText := extendsClause_spec h'.clause_eq
  refine ⟨?_, ?_, ?_, ?_, ?_, fun hhidden => ?_⟩
  · have hname := h'.className?
    rw [hstmt, className?_withoutComments harranged, h.className?] at hname
    exact (Option.some.inj hname).symm
  · rw [← htext', ← htext, hcls, clauseText?_withoutComments]
  · rw [h'.export_eq, h.export_eq, hstmt, Node.exportForm_withoutComments]
  · refine h.identities_congr h' ?_
    rw [hcls]
    exact filterMap_declared?_withoutComments hnode
  · rw [← hparent', ← hparent, hcls, parentName?_withoutComments]
  · rw [← hparent]
    exact parentName?_of_hiddenParent? hhidden

/-- The statements that name a class are the same statements. -/
theorem filter_namesClass_withoutComments {stmts : List Node}
    (h : ∀ stmt ∈ stmts, stmt.WellArranged) :
    ((Node.uncommented stmts).map Node.withoutComments).filter Node.namesClass
      = (stmts.filter Node.namesClass).map Node.withoutComments := by
  rw [List.filter_map, Node.uncommented, List.filter_filter]
  congr 1
  refine List.filter_congr fun stmt hstmt => ?_
  rw [Function.comp_apply, namesClass_withoutComments (h stmt hstmt)]
  by_cases hk : stmt.kind = .comment
  · -- a comment declares no class, and so it was never among them
    have hnot : stmt.namesClass = false := by
      rw [Node.namesClass, Node.declaredClass?, hk]
      rfl
    rw [hnot, Bool.false_and]
  · simp [hk]

theorem className?_of_comment {stmt : Node} (h : stmt.kind = .comment) :
    s.className? stmt = none := by
  refine className?_of_unnamed ?_
  rw [Node.declaredClass?, h]
  rfl

theorem classNames_withoutComments (h : s.root.WellArranged) :
    s.withoutComments.classNames = s.classNames := by
  show s.root.withoutComments.namedChildren.filterMap _ = s.root.namedChildren.filterMap _
  rw [Node.namedChildren_withoutComments]
  refine filterMap_uncommented (fun c _ hk => className?_of_comment hk) fun c hc => ?_
  exact className?_withoutComments (h.of_mem_namedChildren hc)

/-- The first repeated name stays where it is. -/
theorem FirstRepeated.withoutComments (harranged : s.root.WellArranged) {name : String} {cls : Node}
    (h : s.FirstRepeated name cls) : s.withoutComments.FirstRepeated name cls.withoutComments := by
  obtain ⟨before, stmt, after, hstmts, hcls, hname, hmem, hnodup⟩ := h
  have hwell : ∀ stmt' ∈ before ++ stmt :: after, stmt'.WellArranged := by
    intro stmt' hstmt'
    rw [← hstmts] at hstmt'
    exact harranged.of_mem_namedChildren hstmt'
  have hstmt := hwell stmt (by simp)
  -- the statement names a class, so that it is not left out
  have hkind : stmt.kind ≠ .comment := by
    intro hk
    rw [className?_of_comment hk] at hname
    cases hname
  -- what comes before it names the same classes
  have hbefore : ((Node.uncommented before).map Node.withoutComments).filterMap
      s.withoutComments.className?
      = before.filterMap s.className? :=
    filterMap_uncommented (fun c _ hk => className?_of_comment hk)
      fun c hc => className?_withoutComments (hwell c (List.mem_append_left _ hc))
  refine ⟨(Node.uncommented before).map Node.withoutComments, stmt.withoutComments,
    (Node.uncommented after).map Node.withoutComments, ?_, ?_, ?_, ?_, ?_⟩
  · show s.root.withoutComments.namedChildren = _
    rw [Node.namedChildren_withoutComments, hstmts, Node.uncommented, List.filter_append,
      List.filter_cons_of_pos (by simpa using hkind), List.map_append, List.map_cons]
    rfl
  · rw [Node.declaredClass?_withoutComments hstmt.arranged, hcls]
    rfl
  · rw [className?_withoutComments hstmt, hname]
  · rw [hbefore]
    exact hmem
  · rw [hbefore]
    exact hnodup

theorem position_withoutComments (n : Node) :
    s.withoutComments.position n.withoutComments = s.position n := by
  rw [position, position, n.start_withoutComments]
  rfl

/-- Of registered classes, those without comments come from those with them, one by one. -/
theorem forall₂_uncommented {r r' : Registry} (harranged : s.root.WellArranged)
    (hr : s.registry = .ok r) (hr' : s.withoutComments.registry = .ok r') :
    List.Forall₂ s.Uncommented r.classes r'.classes := by
  -- in both registries the classes are those of the statements that name one
  have hstmts : r.classes.map (·.statement) = s.root.namedChildren.filter Node.namesClass :=
    statements_registerAll _ hr
  have hstmts' : r'.classes.map (·.statement) = s.root.withoutComments.namedChildren.filter
      Node.namesClass :=
    statements_registerAll _ hr'
  have hwell : ∀ stmt ∈ s.root.namedChildren, stmt.WellArranged :=
    fun _ => harranged.of_mem_namedChildren
  rw [Node.namedChildren_withoutComments, filter_namesClass_withoutComments hwell, ← hstmts,
    List.map_map] at hstmts'
  -- so they correspond one by one, by their statements
  have hpairs : List.Forall₂ (fun d d' => d.statement.withoutComments = d'.statement)
      r.classes r'.classes := by
    have hequal := List.forall₂_eq_eq_eq ▸ hstmts'.symm
    exact List.forall₂_map_right_iff.1 (List.forall₂_map_left_iff.1 hequal)
  rw [List.forall₂_iff_zip] at hpairs ⊢
  refine ⟨hpairs.1, fun {d d'} hmem => ?_⟩
  obtain ⟨hd, hd'⟩ := List.of_mem_zip hmem
  refine (registers_of_registry hr hd).uncommented (registers_of_registry hr' hd') ?_
    (hpairs.2 hmem).symm
  refine hwell _ (List.mem_of_mem_filter (p := Node.namesClass) ?_)
  rw [← hstmts]
  exact List.mem_map_of_mem hd

/-- **Comments change nothing but parents in what is registered.** Without the comments of its tree
a script is refused with the same error, or its classes are registered as before, except that a
parent beside a comment is no longer missed. So the two registries are alike just if no parent is
hidden by a comment. -/
theorem alike_withoutComments_iff (hroot : s.root.OnBoundaries s.source)
    (harranged : s.root.WellArranged) :
    (∃ e, s.registry = .error (.refused e) ∧ s.withoutComments.registry = .error (.refused e)) ∨
      ∃ r r', s.registry = .ok r ∧ s.withoutComments.registry = .ok r' ∧
        List.Forall₂ s.Uncommented r.classes r'.classes ∧
        (r.Alike r' ↔ ∀ d ∈ r.classes, s.hiddenParent? d.node = none) := by
  have hroot' : s.withoutComments.root.OnBoundaries s.withoutComments.source :=
    hroot.withoutComments
  rcases registry_cases hroot with ⟨⟨r, hr⟩, hapart⟩ | ⟨-, name, hshared⟩
  · -- the names are the same, and so there is a registry without comments as well
    rcases registry_cases hroot' with ⟨⟨r', hr'⟩, -⟩ | ⟨-, name, hshared⟩
    · have huncommented := forall₂_uncommented harranged hr hr'
      refine .inr ⟨r, r', hr, hr', huncommented, ?_⟩
      rw [← forall₂_alike_iff huncommented]
      exact ⟨fun h => h.classes, fun h => ⟨h, Registry.graph_congr h⟩⟩
    · rw [classNames_withoutComments harranged] at hshared
      exact absurd ⟨name, hshared⟩ hapart
  · -- the same class is the first whose name came before
    obtain ⟨name, cls, hfirst⟩ := exists_firstRepeated hshared
    refine .inl ⟨_, registry_of_firstRepeated hroot hfirst, ?_⟩
    rw [registry_of_firstRepeated hroot' (hfirst.withoutComments harranged),
      position_withoutComments]

end Script

/-- A comment of four bytes. -/
def Node.shortComment (start : Nat) : Node :=
  .sound .comment none start (start + 4) []

/-- A class that is the default export, with comments around all of its parts but its parent. -/
def scatteredComments : Script where
  source := .ofText ("/**/export default/**/class/**/B extends A/**/\x7b/**/static/**/m()\x7b\x7d"
    ++ "/**/get m()\x7b\x7d\x7d")
  root := .sound (.other "program") none 0 80
    [.shortComment 0,
      .sound .exportStatement none 4 80
        [⟨.defaultToken, none, false, false, false, 11, 18, []⟩, .shortComment 18,
          .sound .classDeclaration (some .declaration) 22 80
            [.shortComment 27, .sound .identifier (some .name) 31 32 [], .shortHeritage 33,
              .shortComment 42, .sound (.other "class_body") (some .body) 46 80
                [.shortComment 47, .shortMethod 51 61 62 66 [.staticWord 51, .shortComment 57] [],
                  .shortComment 66, .shortMethod 70 74 75 79 [.getWord 70] []]]]]

/-- The comments in it change nothing. -/
theorem alike_withoutComments_scatteredComments :
    scatteredComments.root.OnBoundaries scatteredComments.source ∧
    scatteredComments.root.WellArranged ∧
    ∃ r r', scatteredComments.registry = .ok r ∧
      scatteredComments.withoutComments.registry = .ok r' ∧
      r.Alike r' ∧ r.graph.edges = [("B", "A")] ∧
      r.classes.map (fun d => (d.exportForm, d.members.identities))
        = [(.asDefault, [⟨true, .method, .pub, "m"⟩, ⟨false, .getter, .pub, "m"⟩])] := by
  have hroot : scatteredComments.root.OnBoundaries scatteredComments.source := by decide +kernel
  have harranged : scatteredComments.root.WellArranged := by decide +kernel
  obtain ⟨r₀, hr₀, htest⟩ := Attempt.exists_ok (x := scatteredComments.registry)
    (p := fun r => r.classes.all (fun d => scatteredComments.hiddenParent? d.node == none)
      && r.graph.edges == [("B", "A")]
      && r.classes.map (fun d => (d.exportForm, d.members.identities))
        == [(.asDefault, [⟨true, .method, .pub, "m"⟩, ⟨false, .getter, .pub, "m"⟩])])
          (by decide +kernel)
  -- there is no hidden parent, so the registries are alike
  simp only [Bool.and_eq_true, List.all_eq_true, beq_iff_eq] at htest
  rcases Script.alike_withoutComments_iff hroot harranged with ⟨e, he, -⟩ |
    ⟨r, r', hr, hr', -, halike⟩
  · cases hr₀.symm.trans he
  · obtain rfl := Except.ok.inj (hr₀.symm.trans hr)
    exact ⟨hroot, harranged, r₀, r', hr, hr', halike.2 htest.1.1, htest.1.2, htest.2⟩

/-- The class `B` extends `A`, and a comment stands between the word and the name. -/
def commentedParent : Script where
  source := .ofText ("class A\x7b\x7d" ++ "class B extends/**/A\x7b\x7d")
  root := .sound (.other "program") none 0 31
    [.shortClass 0 7 9 [] [],
      .shortClass 9 29 31
        [.sound .classHeritage none 17 29 [.shortComment 24, .sound .identifier none 28 29 []]] []]

/-- The comment hides the parent. -/
theorem not_alike_commentedParent :
    commentedParent.root.OnBoundaries commentedParent.source ∧ commentedParent.root.WellArranged ∧
    ∃ r r', commentedParent.registry = .ok r ∧ commentedParent.withoutComments.registry = .ok r' ∧
      r.graph.edges = [] ∧ r'.graph.edges = [("B", "A")] ∧ ¬ r.Alike r' := by
  obtain ⟨r, hr, hedges⟩ := Attempt.exists_ok (x := commentedParent.registry)
    (p := fun r => r.graph.edges == []) (by decide +kernel)
  obtain ⟨r', hr', hedges'⟩ := Attempt.exists_ok (x := commentedParent.withoutComments.registry)
    (p := fun r => r.graph.edges == [("B", "A")]) (by decide +kernel)
  rw [beq_iff_eq] at hedges hedges'
  refine ⟨by decide +kernel, by decide +kernel, r, r', hr, hr', hedges, hedges', fun halike => ?_⟩
  -- like registries would have the same graph
  rw [halike.graph, hedges] at hedges'
  cases hedges'

end Disinherit
