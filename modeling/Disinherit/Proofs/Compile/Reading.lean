import Disinherit.Proofs.Registry
import Disinherit.Proofs.Text.Boundaries
import Disinherit.Proofs.Tree.Nesting

/-!
# What can be read from a tree

Reading a script means taking the text of nodes, and the text of a node is there if the node begins
and ends between characters. So everything that is read below `Script.registry` has a result as soon
as all nodes of the tree lie on boundaries (`Node.OnBoundaries`), and the registry itself can fail
for one reason only: a class that has the name of a class before it. `registerAll_cases` says this
of any part of the top-level statements. Either all of their names were new and are in the registry
now, or some name came up twice and the script was refused.

The comments of a member are read later, when the class is written. They come from the body of the
class (`Reads.comments_sublist`).
-/

namespace Disinherit

/-! ### Attempts that have a result -/

/-- The attempt has a result. -/
def Attempt.Succeeds {α : Type} (x : Attempt α) : Prop :=
  ∃ a, x = .ok a

theorem Attempt.succeeds_pure {α : Type} (a : α) : Attempt.Succeeds (pure a) :=
  ⟨a, rfl⟩

theorem Attempt.Succeeds.bind {α β : Type} {x : Attempt α} {f : α → Attempt β}
    (hx : Attempt.Succeeds x) (hf : ∀ a, x = .ok a → Attempt.Succeeds (f a)) :
    Attempt.Succeeds (x >>= f) := by
  obtain ⟨a, rfl⟩ := hx
  exact hf a rfl

/-- What comes after the first part is no more than a change of its result. -/
theorem Attempt.Succeeds.map {α β : Type} {x : Attempt α} {f : α → β} (hx : Attempt.Succeeds x) :
    Attempt.Succeeds (x >>= fun a => pure (f a)) :=
  hx.bind fun a _ => Attempt.succeeds_pure (f a)

/-! ### Trees on boundaries -/

/-- Every node of the tree begins and ends between characters. -/
def Node.OnBoundaries (s : Source) (n : Node) : Prop :=
  ∀ m ∈ n.preorder, s.IsBoundary m.start ∧ s.IsBoundary m.stop

instance (s : Source) (n : Node) : Decidable (n.OnBoundaries s) :=
  inferInstanceAs (Decidable (∀ m ∈ n.preorder, s.IsBoundary m.start ∧ s.IsBoundary m.stop))

namespace Node.OnBoundaries

variable {s : Source} {m n : Node}

theorem start (h : n.OnBoundaries s) : s.IsBoundary n.start :=
  (h n (mem_preorder_self n)).1

theorem stop (h : n.OnBoundaries s) : s.IsBoundary n.stop :=
  (h n (mem_preorder_self n)).2

theorem of_mem (h : n.OnBoundaries s) (hm : m ∈ n.preorder) : m.OnBoundaries s :=
  fun k hk => h k (mem_preorder_trans hk hm)

theorem of_mem_children (h : n.OnBoundaries s) (hm : m ∈ n.children) : m.OnBoundaries s :=
  h.of_mem (mem_preorder_of_mem_children hm)

theorem of_mem_namedChildren (h : n.OnBoundaries s) (hm : m ∈ n.namedChildren) : m.OnBoundaries s :=
  h.of_mem_children (List.mem_filter.1 hm).1

theorem child (h : n.OnBoundaries s) {f : Field} (hm : n.child? f = some m) : m.OnBoundaries s :=
  h.of_mem_children (child?_mem hm).1

end Node.OnBoundaries

/-! ### Members -/

/-- The comments that belong to a member. -/
def Member.comments (m : Member) : List Node :=
  m.leading ++ m.trailing.toList

namespace Script

variable {s : Script} {n : Node}

/-- A script that is not refused is the text with its tree. -/
theorem eq_of_ofTree {text : String} {tree : Node} (h : ofTree text tree = .ok s) :
    s = ⟨.ofText text, tree⟩ := by
  unfold ofTree at h
  dsimp only at h
  split at h
  · cases h
  · exact (Except.ok.inj h).symm

theorem onBoundaries_of_ofTree {text : String} {tree : Node} (h : ofTree text tree = .ok s)
    (htree : tree.OnBoundaries (.ofText text)) : s.root.OnBoundaries s.source := by
  rw [eq_of_ofTree h]
  exact htree

theorem succeeds_text (h : n.OnBoundaries s.source) : Attempt.Succeeds (s.text n) :=
  exists_slice h.start h.stop

theorem succeeds_literalText (h : n.OnBoundaries s.source) : Attempt.Succeeds (s.literalText n) :=
  (succeeds_text h).map

theorem succeeds_nameAndVisibility (h : n.OnBoundaries s.source) :
    Attempt.Succeeds (s.nameAndVisibility n) := by
  unfold nameAndVisibility
  split
  · exact (succeeds_text h).map
  · exact (succeeds_literalText h).map
  · exact (succeeds_text h).map

theorem succeeds_identity? (h : n.OnBoundaries s.source) : Attempt.Succeeds (s.identity? n) := by
  unfold identity?
  split
  · exact ⟨_, rfl⟩
  · split
    · exact ⟨_, rfl⟩
    · next property hproperty => exact (succeeds_nameAndVisibility (h.child hproperty)).map
  · split
    · exact ⟨_, rfl⟩
    · next name hname => exact (succeeds_nameAndVisibility (h.child hname)).map
  · exact ⟨_, rfl⟩

theorem succeeds_superTarget (h : n.OnBoundaries s.source) :
    Attempt.Succeeds (s.superTarget n) := by
  unfold superTarget
  split
  · exact ⟨_, rfl⟩
  · split
    · exact ⟨_, rfl⟩
    · next property hproperty =>
      split
      · exact ⟨_, rfl⟩
      · exact (succeeds_text (h.child hproperty)).map
  · split
    · next index hindex =>
      split
      · exact (succeeds_literalText (h.child hindex)).map
      · exact ⟨_, rfl⟩
    · exact ⟨_, rfl⟩

theorem succeeds_readReferences {sites : List Node.SuperSite}
    (h : ∀ p ∈ sites, p.node.OnBoundaries s.source) :
    Attempt.Succeeds (s.readReferences sites) := by
  induction sites with
  | nil => exact ⟨_, rfl⟩
  | cons p sites ih =>
    refine (succeeds_superTarget (h p List.mem_cons_self)).bind fun target _ => ?_
    exact (ih fun p' hp' => h p' (List.mem_cons_of_mem p hp')).map

theorem succeeds_referencesIn (h : n.OnBoundaries s.source) (skip : Option Node) :
    Attempt.Succeeds (s.referencesIn n skip) := by
  refine succeeds_readReferences fun p hp => ?_
  obtain ⟨hparent, hnode⟩ := Node.mem_superSites hp
  exact (h.of_mem hparent).of_mem_children hnode

theorem succeeds_member? (h : n.OnBoundaries s.source) (owner : String) (leading : List Node) :
    Attempt.Succeeds (s.member? owner leading n) := by
  refine (succeeds_identity? h).bind fun identity? _ => ?_
  cases identity? with
  | none => exact ⟨_, rfl⟩
  | some identity => exact (succeeds_referencesIn h n.memberName?).map

theorem exists_reads (owner : String) {items : List Node}
    (h : ∀ n ∈ items, n.OnBoundaries s.source) (last : Option Member) (waiting : List Node) :
    ∃ ds, s.Reads owner last waiting items ds := by
  induction items generalizing last waiting with
  | nil => exact ⟨_, .done⟩
  | cons n items ih =>
    have hrest := ih fun n' hn' => h n' (List.mem_cons_of_mem n hn')
    by_cases hk : n.kind = .comment
    · -- a comment is never in the way
      cases hm : s.trailed? last waiting n with
      | some m => exact (hrest _ _).imp fun _ => .trails hk hm
      | none => exact (hrest _ _).imp fun _ => .waits hk hm
    · -- anything else is read, since it lies on boundaries
      obtain ⟨m?, hm⟩ := succeeds_member? (h n List.mem_cons_self) owner waiting
      cases m? with
      | none => exact (hrest _ _).imp fun _ => .passes hk hm
      | some m =>
        obtain ⟨ds, hds⟩ := hrest (some m) []
        exact ⟨_, .declares hk hm hds⟩

theorem succeeds_membersOf (h : n.OnBoundaries s.source) (owner : String) :
    Attempt.Succeeds (s.membersOf n owner) := by
  have hitems : ∀ item ∈ n.bodyItems, item.OnBoundaries s.source := fun _ hitem =>
    h.of_mem (Node.mem_preorder_of_mem_bodyItems hitem)
  obtain ⟨ds, hds⟩ := exists_reads owner hitems none []
  exact Attempt.Succeeds.map ⟨ds, declarations_eq_ok_iff.2 hds⟩

/-- A member begins with the comments that were waiting for it. -/
theorem member?_comments {owner : String} {leading : List Node} {m : Member}
    (h : s.member? owner leading n = .ok (some m)) : m.leading = leading ∧ m.trailing = none := by
  rw [member?, Attempt.bind_eq_ok] at h
  obtain ⟨i?, -, h⟩ := h
  cases i? with
  | none => cases h
  | some i =>
    obtain ⟨refs, -, h⟩ := Attempt.bind_eq_ok.1 h
    obtain rfl := Option.some.inj (Attempt.pure_eq_ok.1 h)
    exact ⟨rfl, rfl⟩

/-- The comments of the members that are read come from those of the last member, those that waited
and those that follow, in this order. -/
theorem Reads.comments_sublist {owner : String} {last : Option Member} {waiting items : List Node}
    {ds : List Member} (h : s.Reads owner last waiting items ds) :
    (ds.flatMap Member.comments).Sublist
      (last.toList.flatMap Member.comments ++ waiting ++ items.filter (·.kind = .comment)) := by
  induction h with
  | done =>
    rw [List.append_assoc]
    exact List.sublist_append_left _ _
  | trails hk hm _ ih =>
    rw [List.filter_cons_of_pos (by simpa using hk)]
    -- the member had no trailing comment, and none was waiting
    obtain ⟨rfl, hcond⟩ := Option.filter_eq_some_iff.1 hm
    simp only [Bool.and_eq_true, Option.isNone_iff_eq_none, List.isEmpty_iff] at hcond
    obtain ⟨⟨htrailing, rfl⟩, -⟩ := hcond
    simpa [Member.comments, htrailing] using ih
  | waits hk _ _ ih =>
    rw [List.filter_cons_of_pos (by simpa using hk)]
    -- the comment joins those that are waiting
    simpa using ih
  | passes hk _ _ ih =>
    rw [List.filter_cons_of_neg (by simpa using hk)]
    -- those that are waiting go on waiting
    exact ih
  | declares hk hm _ ih =>
    rw [List.filter_cons_of_neg (by simpa using hk)]
    -- what was waiting stands above the new member
    obtain ⟨hleading, htrailing⟩ := member?_comments hm
    rw [Option.toList_some, List.flatMap_singleton, Member.comments, hleading, htrailing] at ih
    rw [List.flatMap_append, List.append_assoc]
    exact (List.Sublist.refl _).append (by simpa using ih)

/-- The comments of the members of a class stand in its body. -/
theorem Registers.comments_subset {d : ClassDecl} (h : s.Registers d) {m : Member}
    (hm : m ∈ d.members.toList) : m.comments ⊆ d.node.bodyItems := by
  obtain ⟨ms, hms, -⟩ := h.declarations
  intro c hc
  -- a member that is registered was declared, with its comments
  have hall : c ∈ ms.flatMap Member.comments :=
    List.mem_flatMap.2 ⟨m, h.mem_declarations hms hm, hc⟩
  have hcomment := (declarations_eq_ok_iff.1 hms).comments_sublist.subset hall
  exact (List.mem_filter.1 hcomment).1

/-! ### Classes -/

theorem succeeds_extendsClause (h : n.OnBoundaries s.source) :
    Attempt.Succeeds (s.extendsClause n) := by
  unfold extendsClause
  split
  · exact ⟨_, rfl⟩
  · next clause hclause =>
    have hclause := h.of_mem_children (List.mem_of_find?_eq_some hclause)
    refine (succeeds_text hclause).bind fun text _ => ?_
    dsimp only
    split
    · next expr hexpr =>
      -- the name is below the clause, and so it lies on boundaries as well
      have hchild : expr ∈ clause.namedChildren := by
        rw [hexpr]
        exact List.mem_singleton_self expr
      split
      · exact (succeeds_text (hclause.of_mem_namedChildren hchild)).map
      · exact ⟨_, rfl⟩
    · exact ⟨_, rfl⟩

/-- The name of the class that a top-level statement declares, if it declares a class with a
name. -/
def className? (s : Script) (stmt : Node) : Option String := do
  let cls ← stmt.declaredClass?
  let name ← cls.child? .name
  s.source.slice? name.start name.stop

/-- The names of the top-level classes, in the order of the text. -/
def classNames (s : Script) : List String :=
  s.root.namedChildren.filterMap s.className?

section Named

variable {stmt cls nameNode : Node} {stmts : List Node} {name : String} {r : Registry}

theorem className?_of_unnamed (h : stmt.declaredClass?.bind (·.child? .name) = none) :
    s.className? stmt = none := by
  show (stmt.declaredClass?.bind fun cls => (cls.child? .name).bind _) = none
  rw [← Option.bind_assoc, h]
  rfl

theorem className?_of_named (hcls : stmt.declaredClass? = some cls)
    (hnode : cls.child? .name = some nameNode) (hname : s.text nameNode = .ok name) :
    s.className? stmt = some name := by
  show (stmt.declaredClass?.bind fun cls => (cls.child? .name).bind _) = some name
  rw [hcls, Option.bind_some, hnode]
  exact slice_eq_ok_iff.1 hname

theorem registerAll_of_unnamed (h : stmt.declaredClass?.bind (·.child? .name) = none) :
    s.registerAll r (stmt :: stmts) = s.registerAll r stmts := by
  rw [registerAll]
  split
  · rfl
  · next hcls =>
    rw [hcls, Option.bind_some] at h
    rw [h]

theorem registerAll_of_mem (hcls : stmt.declaredClass? = some cls)
    (hnode : cls.child? .name = some nameNode) (hname : s.text nameNode = .ok name)
    (h : name ∈ r.names) :
    s.registerAll r (stmt :: stmts)
      = .error (.refused ((Fault.redeclared name).error (s.position cls))) := by
  rw [registerAll, hcls]
  dsimp only
  rw [hnode]
  dsimp only
  rw [hname]
  exact dif_pos h

/-- A class with a new name is read and registered, and then come the others. -/
theorem registerAll_of_new (hcls : stmt.declaredClass? = some cls)
    (hnode : cls.child? .name = some nameNode) (hname : s.text nameNode = .ok name)
    (h : name ∉ r.names) (stmts : List Node) :
    s.registerAll r (stmt :: stmts) = s.extendsClause cls >>= fun clause =>
      s.membersOf cls name >>= fun members =>
        s.registerAll (r.declare ⟨name, clause.parent, clause.text, stmt.exportForm, stmt,
          cls, members, s.position cls⟩ h) stmts := by
  rw [registerAll, hcls]
  dsimp only
  rw [hnode]
  dsimp only
  rw [hname]
  exact dif_neg h

/-- Nothing else can stop a class from being registered. -/
theorem registerAll_of_notMem (hcls : stmt.declaredClass? = some cls)
    (hnode : cls.child? .name = some nameNode) (hname : s.text nameNode = .ok name)
    (h : name ∉ r.names) (hbounds : cls.OnBoundaries s.source) (stmts : List Node) :
    ∃ r', r'.names = r.names ++ [name] ∧
      s.registerAll r (stmt :: stmts) = s.registerAll r' stmts := by
  obtain ⟨clause, hclause⟩ := succeeds_extendsClause hbounds
  obtain ⟨members, hmembers⟩ := succeeds_membersOf hbounds name
  -- the class can be read, and the statements that are left see it registered
  let d : ClassDecl :=
    ⟨name, clause.parent, clause.text, stmt.exportForm, stmt, cls, members, s.position cls⟩
  refine ⟨r.declare d h, List.map_append, ?_⟩
  rw [registerAll_of_new hcls hnode hname h, hclause, hmembers]
  rfl

end Named

/-- **A registry is refused for a repeated name only.** Registering statements adds all their names,
or some name comes up twice. -/
theorem registerAll_cases {stmts : List Node} (hstmts : ∀ stmt ∈ stmts, stmt.OnBoundaries s.source)
    (r : Registry) :
    (∃ r', s.registerAll r stmts = .ok r' ∧ r'.names = r.names ++ stmts.filterMap s.className?) ∨
      (∃ e, s.registerAll r stmts = .error (.refused e)) ∧
        ¬ (r.names ++ stmts.filterMap s.className?).Nodup := by
  induction stmts generalizing r with
  | nil => exact .inl ⟨r, rfl, (List.append_nil _).symm⟩
  | cons stmt stmts ih =>
    have hrest := ih fun stmt' h => hstmts stmt' (List.mem_cons_of_mem stmt h)
    have hstmt := hstmts stmt List.mem_cons_self
    cases hnode : stmt.declaredClass?.bind (·.child? .name) with
    | none =>
      -- a statement without a named class changes nothing
      rw [registerAll_of_unnamed hnode, List.filterMap_cons_none (className?_of_unnamed hnode)]
      exact hrest r
    | some nameNode =>
      obtain ⟨cls, hcls, hchild⟩ := Option.bind_eq_some_iff.1 hnode
      have hcls' := hstmt.of_mem (Node.mem_preorder_of_declaredClass hcls)
      obtain ⟨name, hname⟩ := succeeds_text (hcls'.child hchild)
      rw [List.filterMap_cons_some (className?_of_named hcls hchild hname)]
      by_cases hmem : name ∈ r.names
      · -- the name is taken, and the names are not all different
        refine .inr ⟨⟨_, registerAll_of_mem hcls hchild hname hmem⟩, fun hnodup => ?_⟩
        exact (List.nodup_append.1 hnodup).2.2 name hmem name List.mem_cons_self rfl
      · -- the name is new, and it is added
        obtain ⟨r', hnames, hstep⟩ := registerAll_of_notMem hcls hchild hname hmem hcls' stmts
        have hnext := hrest r'
        rw [hnames, List.append_assoc] at hnext
        rw [hstep]
        exact hnext

end Script

end Disinherit
