import Disinherit.Class.Registry
import Disinherit.Proofs.Members

/-!
# What a registry records

`Script.registry` reads a script once, and whatever comes after relies on what was read. This file
says what that is, in two predicates:

* `Script.Records s m`: identity and references of the member `m` are those of its node.
* `Script.Registers s d`: the class declaration `d` is what the script says about the class at
  `d.node`, and its members are the declarations in the body of that class.

How a body is read item by item is a relation, `Script.Reads`, and what is true of declarations is
proved by induction on it.

`registers_of_registry` gives the second for every class of a registry, and `statements_sublist`
says that the classes stand in the order of the text. What the kind of a member tells about its
node, such as that a method has a name, is collected in the section on identities.
-/

namespace Disinherit

/-- A computation that goes on after a first part has a result only if the first part has one. -/
theorem Attempt.bind_eq_ok {α β : Type} {x : Attempt α} {f : α → Attempt β} {b : β} :
    x >>= f = .ok b ↔ ∃ a, x = .ok a ∧ f a = .ok b := by
  cases x with
  | error e =>
    refine ⟨fun h => ?_, fun ⟨a, ha, _⟩ => ?_⟩
    · cases h
    · cases ha
  | ok a => exact ⟨fun h => ⟨a, rfl, h⟩, fun ⟨_, ha, hf⟩ => by cases ha; exact hf⟩

theorem Attempt.pure_eq_ok {α : Type} {a b : α} : (pure a : Attempt α) = .ok b ↔ a = b :=
  ⟨fun h => Except.ok.inj h, fun h => congrArg Except.ok h⟩

/-- A test that a result passes shows that there is one. -/
theorem Attempt.exists_ok {α : Type} {x : Attempt α} {p : α → Bool} (h : x.toOption.any p = true) :
    ∃ a, x = .ok a ∧ p a = true := by
  cases x with
  | error e => cases h
  | ok a => exact ⟨a, rfl, h⟩

namespace Script

variable {s : Script}

/-! ### The declarations in a body -/

/-- Identity and references of a member are those of its node. -/
structure Records (s : Script) (m : Member) : Prop where
  identity : s.identity? m.node = .ok (some m.identity)
  references : s.referencesIn m.node m.node.memberName? = .ok m.references

theorem member?_spec {owner : String} {leading : List Node} {n : Node} {m : Member}
    (h : s.member? owner leading n = .ok (some m)) :
    m.owner = owner ∧ m.node = n ∧ s.Records m := by
  rw [member?, Attempt.bind_eq_ok] at h
  obtain ⟨i?, hi, h⟩ := h
  cases i? with
  | none => cases h
  | some i =>
    obtain ⟨refs, hrefs, h⟩ := Attempt.bind_eq_ok.1 h
    obtain rfl := Option.some.inj (Attempt.pure_eq_ok.1 h)
    exact ⟨rfl, rfl, hi, hrefs⟩

theorem trailed?_eq_some {last : Option Member} {waiting : List Node} {c : Node} {m : Member}
    (h : s.trailed? last waiting c = some m) : last = some m :=
  (Option.filter_eq_some_iff.1 h).1

/-- The reader at work on the rest of a body, when `last` is the member before it and the comments
in `waiting` do not belong to it. There are four things that it can do with an item. -/
inductive Reads (s : Script) (owner : String) :
    Option Member → List Node → List Node → List Member → Prop where
  | done {last : Option Member} {waiting : List Node} : Reads s owner last waiting [] last.toList
  /-- A comment that trails the last member is given to it. -/
  | trails {last : Option Member} {waiting ns : List Node} {n : Node} {m : Member}
      {ds : List Member} (hk : n.kind = .comment) (hm : s.trailed? last waiting n = some m)
      (rest : Reads s owner (some { m with trailing := some n }) waiting ns ds) :
      Reads s owner last waiting (n :: ns) ds
  /-- Any other comment waits for the next member. -/
  | waits {last : Option Member} {waiting ns : List Node} {n : Node} {ds : List Member}
      (hk : n.kind = .comment) (hm : s.trailed? last waiting n = none)
      (rest : Reads s owner last (waiting ++ [n]) ns ds) : Reads s owner last waiting (n :: ns) ds
  /-- An item that declares nothing is passed over. -/
  | passes {last : Option Member} {waiting ns : List Node} {n : Node} {ds : List Member}
      (hk : n.kind ≠ .comment) (hm : s.member? owner waiting n = .ok none)
      (rest : Reads s owner last waiting ns ds) : Reads s owner last waiting (n :: ns) ds
  /-- A member takes the comments that waited, and the member before it is complete. -/
  | declares {last : Option Member} {waiting ns : List Node} {n : Node} {m : Member}
      {ds : List Member} (hk : n.kind ≠ .comment)
      (hm : s.member? owner waiting n = .ok (some m)) (rest : Reads s owner (some m) [] ns ds) :
      Reads s owner last waiting (n :: ns) (last.toList ++ ds)

theorem reads_of_declarationsFrom {owner : String} {items : List Node} :
    ∀ {last : Option Member} {waiting : List Node} {ds : List Member},
      s.declarationsFrom owner last waiting items = .ok ds →
        s.Reads owner last waiting items ds := by
  induction items with
  | nil =>
    intro last waiting ds h
    obtain rfl := Except.ok.inj h
    exact .done
  | cons n items ih =>
    intro last waiting ds h
    rw [declarationsFrom] at h
    split at h
    · -- a comment goes to the member before it or waits for the next one
      next hk =>
      split at h
      · next m hm => exact .trails hk hm (ih h)
      · next hm => exact .waits hk hm (ih h)
    · next hk =>
      -- anything else is a member or is passed over
      obtain ⟨m?, hm, h⟩ := Attempt.bind_eq_ok.1 h
      cases m? with
      | none => exact .passes hk hm (ih h)
      | some m =>
        obtain ⟨rest, hrest, h⟩ := Attempt.bind_eq_ok.1 h
        obtain rfl := Attempt.pure_eq_ok.1 h
        exact .declares hk hm (ih hrest)

theorem Reads.declarationsFrom_eq {owner : String} {last : Option Member}
    {waiting items : List Node} {ds : List Member} (h : s.Reads owner last waiting items ds) :
    s.declarationsFrom owner last waiting items = .ok ds := by
  induction h with
  | done => rfl
  | trails hk hm _ ih =>
    rw [declarationsFrom, if_pos hk, hm]
    exact ih
  | waits hk hm _ ih =>
    rw [declarationsFrom, if_pos hk, hm]
    exact ih
  | passes hk hm _ ih => exact (if_neg hk).trans (Attempt.bind_eq_ok.2 ⟨_, hm, ih⟩)
  | declares hk hm _ ih =>
    refine (if_neg hk).trans (Attempt.bind_eq_ok.2 ⟨_, hm, ?_⟩)
    exact Attempt.bind_eq_ok.2 ⟨_, ih, rfl⟩

/-- The declarations in a body are what the reader finds when it starts with nothing. -/
theorem declarations_eq_ok_iff {owner : String} {items : List Node} {ds : List Member} :
    s.declarations owner items = .ok ds ↔ s.Reads owner none [] items ds :=
  ⟨reads_of_declarationsFrom, Reads.declarationsFrom_eq⟩

/-- After the member that came last, everything declared in a body is owned by the class and
recorded, and the nodes follow the order of the text. -/
theorem Reads.records {owner : String} {last : Option Member} {waiting items : List Node}
    {ms : List Member} (h : s.Reads owner last waiting items ms)
    (hlast : ∀ m ∈ last, m.owner = owner ∧ s.Records m) :
    (∀ m ∈ ms, m.owner = owner ∧ s.Records m) ∧
      ∃ ns, ns.Sublist items ∧ ms.map (·.node) = last.toList.map (·.node) ++ ns := by
  induction h with
  | done => exact ⟨fun m hm => hlast m (Option.mem_toList.1 hm), [], .slnil, by simp⟩
  | @trails _ _ _ n m _ hk hm _ ih =>
    -- a comment changes nothing but the trailing comment of the member before it
    obtain rfl := trailed?_eq_some hm
    obtain ⟨howned, ns, hns, hnodes⟩ := ih fun m' hm' => by
      obtain rfl := Option.some.inj hm'
      exact ⟨(hlast m rfl).1, (hlast m rfl).2.identity, (hlast m rfl).2.references⟩
    exact ⟨howned, ns, hns.cons n, hnodes⟩
  | waits _ _ _ ih =>
    obtain ⟨howned, ns, hns, hnodes⟩ := ih hlast
    exact ⟨howned, ns, hns.cons _, hnodes⟩
  | passes _ _ _ ih =>
    obtain ⟨howned, ns, hns, hnodes⟩ := ih hlast
    exact ⟨howned, ns, hns.cons _, hnodes⟩
  | @declares _ _ _ n m _ _ hm _ ih =>
    -- the member before `m` is complete, and `m` waits for its trailing comment
    obtain ⟨hm, hnode, hrec⟩ := member?_spec hm
    obtain ⟨howned, ns, hns, hnodes⟩ := ih fun m' hm' => by
      obtain rfl := Option.some.inj hm'
      exact ⟨hm, hrec⟩
    refine ⟨fun m' hm' => ?_, n :: ns, hns.cons_cons n, ?_⟩
    · rcases List.mem_append.1 hm' with hm' | hm'
      · exact hlast m' (Option.mem_toList.1 hm')
      · exact howned m' hm'
    · rw [List.map_append, hnodes, Option.toList_some, List.map_singleton, hnode]
      rfl

theorem owner_of_mem_declarations {owner : String} {items : List Node} {ms : List Member}
    {m : Member} (h : s.declarations owner items = .ok ms) (hm : m ∈ ms) : m.owner = owner :=
  (((declarations_eq_ok_iff.1 h).records (by simp)).1 m hm).1

theorem records_of_mem_declarations {owner : String} {items : List Node} {ms : List Member}
    {m : Member} (h : s.declarations owner items = .ok ms) (hm : m ∈ ms) : s.Records m :=
  (((declarations_eq_ok_iff.1 h).records (by simp)).1 m hm).2

/-- Declarations come in the order of the text. -/
theorem nodes_declarations_sublist {owner : String} {items : List Node} {ms : List Member}
    (h : s.declarations owner items = .ok ms) : (ms.map (·.node)).Sublist items := by
  obtain ⟨-, ns, hns, hnodes⟩ := (declarations_eq_ok_iff.1 h).records (by simp)
  rw [hnodes]
  exact hns

/-! ### Identities

The kind of a member tells what its node looks like. -/

/-- What makes a method a constructor. -/
theorem methodKind_eq_constructor {n nameNode : Node} {name : String}
    (h : (methodKind n nameNode name).2 = .constructor) :
    (methodKind n nameNode name).1 = false ∧ name = "constructor" ∧
      (nameNode.kind = .propertyIdentifier ∨ nameNode.kind = .stringLiteral) := by
  -- of the four branches of `methodKind` only one gives a constructor
  unfold methodKind at h ⊢
  dsimp only at h ⊢
  split at h
  · cases h
  · split at h
    · cases h
    · split at h
      · next hget hset hcond =>
        rw [if_neg hget, if_neg hset, if_pos hcond]
        exact ⟨rfl, hcond.1, hcond.2.2⟩
      · cases h

/-- What keeps a method with the name of a constructor from being one. -/
theorem methodKind_eq_method {n nameNode : Node}
    (hstatic : (methodKind n nameNode "constructor").1 = false)
    (h : (methodKind n nameNode "constructor").2 = .method) :
    nameNode.kind ≠ .propertyIdentifier ∧ nameNode.kind ≠ .stringLiteral := by
  unfold methodKind at h hstatic
  dsimp only at h hstatic
  split at h
  · cases h
  · next hget =>
    split at h
    · cases h
    · next hset =>
      split at h
      · cases h
      · next hcond =>
        rw [if_neg hget, if_neg hset, if_neg hcond] at hstatic
        -- name and side are those of a constructor, so that only the node is left to blame
        rw [← not_or]
        exact fun hnode => hcond ⟨rfl, Bool.eq_false_iff.1 hstatic, hnode⟩

theorem methodKind_ne_staticBlock (n nameNode : Node) (name : String) :
    (methodKind n nameNode name).2 ≠ .staticBlock := by
  unfold methodKind
  dsimp only
  split
  · exact fun h => by cases h
  · split
    · exact fun h => by cases h
    · split
      · exact fun h => by cases h
      · exact fun h => by cases h

/-- Names that are identifiers or strings are public. -/
theorem visibility_eq_pub {n : Node} {name : String} {v : Visibility}
    (hn : n.kind = .propertyIdentifier ∨ n.kind = .stringLiteral)
    (h : s.nameAndVisibility n = .ok (name, v)) : v = .pub := by
  unfold nameAndVisibility at h
  rcases hn with hn | hn
  · rw [hn] at h
    obtain ⟨text, -, h⟩ := Attempt.bind_eq_ok.1 h
    exact (Prod.mk.inj (Attempt.pure_eq_ok.1 h)).2.symm
  · rw [hn] at h
    obtain ⟨text, -, h⟩ := Attempt.bind_eq_ok.1 h
    exact (Prod.mk.inj (Attempt.pure_eq_ok.1 h)).2.symm

namespace Records

variable {m : Member}

/-- The three shapes of a declaration. -/
theorem identity_cases (h : s.Records m) :
    m.identity = .staticBlock ∨
    (m.node.kind = .fieldDefinition ∧ m.kind = .field ∧ m.nameNode?.isSome) ∨
    (m.node.kind = .methodDefinition ∧ ∃ n visibility, m.nameNode? = some n ∧
      s.nameAndVisibility n = .ok (m.name, visibility) ∧
      m.identity = ⟨(methodKind m.node n m.name).1, (methodKind m.node n m.name).2, visibility,
        m.name⟩) := by
  have hi := h.identity
  rw [identity?] at hi
  split at hi
  · -- one case for each kind of node that declares a member
    exact .inl (Option.some.inj (Except.ok.inj hi)).symm
  · next hkind =>
    split at hi
    · cases Except.ok.inj hi
    · next property hproperty =>
      obtain ⟨⟨name, visibility⟩, -, hi⟩ := Attempt.bind_eq_ok.1 hi
      have hident := (Option.some.inj (Attempt.pure_eq_ok.1 hi)).symm
      refine .inr (.inl ⟨hkind, by rw [Member.kind, hident], ?_⟩)
      rw [Member.nameNode?, Node.memberName?, hkind]
      exact Option.isSome_of_eq_some hproperty
  · next hkind =>
    split at hi
    · cases Except.ok.inj hi
    · next n hn =>
      obtain ⟨⟨name, visibility⟩, hname, hi⟩ := Attempt.bind_eq_ok.1 hi
      have hident := (Option.some.inj (Attempt.pure_eq_ok.1 hi)).symm
      have hm : m.name = name := by rw [Member.name, hident]
      refine .inr (.inr ⟨hkind, n, visibility, ?_, ?_, ?_⟩)
      · rw [Member.nameNode?, Node.memberName?, hkind]
        exact hn
      · rw [hm]
        exact hname
      · rw [hm]
        exact hident
  · cases Except.ok.inj hi

/-- Methods, accessors and constructors have a name. -/
theorem exists_nameNode (h : s.Records m) (hk : m.kind.onPrototype = true ∨ m.kind = .constructor) :
    ∃ n, m.nameNode? = some n := by
  rcases h.identity_cases with hi | ⟨-, hf, -⟩ | ⟨-, n, -, hn, -⟩
  · rw [Member.kind, hi] at hk
    exact absurd hk (by decide)
  · rw [hf] at hk
    exact absurd hk (by decide)
  · exact ⟨n, hn⟩

theorem node_kind (h : s.Records m) (hk : m.kind.onPrototype = true ∨ m.kind = .constructor) :
    m.node.kind = .methodDefinition := by
  rcases h.identity_cases with hi | ⟨-, hf, -⟩ | ⟨hnode, -⟩
  · rw [Member.kind, hi] at hk
    exact absurd hk (by decide)
  · rw [hf] at hk
    exact absurd hk (by decide)
  · exact hnode

/-- A constructor has the property of that name, on the side of the instances. -/
theorem property_constructor (h : s.Records m) (hk : m.kind = .constructor) :
    m.identity.property = ⟨false, .pub, "constructor"⟩ := by
  rcases h.identity_cases with hi | ⟨-, hf, -⟩ | ⟨-, n, v, -, hname, hi⟩
  · rw [Member.kind, hi] at hk
    cases hk
  · rw [hf] at hk
    cases hk
  · rw [Member.kind, hi] at hk
    obtain ⟨hstatic, hspelled, hnode⟩ := methodKind_eq_constructor hk
    rw [hi, Identity.property, hstatic, hspelled, visibility_eq_pub hnode hname]

/-- A constructor is no static member. -/
theorem isStatic_constructor (h : s.Records m) (hk : m.kind = .constructor) :
    m.identity.isStatic = false :=
  congrArg PropertyKey.isStatic (h.property_constructor hk)

theorem isStatic_staticBlock (h : s.Records m) (hk : m.kind = .staticBlock) :
    m.identity.isStatic = true := by
  rcases h.identity_cases with hi | ⟨-, hf, -⟩ | ⟨-, n, v, -, -, hi⟩
  · rw [hi]
    rfl
  · rw [hf] at hk
    cases hk
  · rw [Member.kind, hi] at hk
    exact absurd hk (methodKind_ne_staticBlock _ _ _)

/-- A method with the property of a constructor is not spelled like one. -/
theorem nameNode_method (h : s.Records m) (hk : m.kind = .method)
    (hproperty : m.identity.property = ⟨false, .pub, "constructor"⟩) {n : Node}
    (hn : m.nameNode? = some n) : n.kind ≠ .propertyIdentifier ∧ n.kind ≠ .stringLiteral := by
  rcases h.identity_cases with hi | ⟨-, hf, -⟩ | ⟨-, n', v, hn', -, hi⟩
  · rw [Member.kind, hi] at hk
    cases hk
  · rw [hf] at hk
    cases hk
  · obtain rfl := Option.some.inj (hn.symm.trans hn')
    have hname : m.name = "constructor" := congrArg PropertyKey.name hproperty
    have hstatic : m.identity.isStatic = false := congrArg PropertyKey.isStatic hproperty
    rw [Member.kind, hi, hname] at hk
    rw [hi, hname] at hstatic
    exact methodKind_eq_method hstatic hk

end Records

/-! ### The classes of a script -/

/-- The class declaration is what the script says about a class. -/
structure Registers (s : Script) (d : ClassDecl) : Prop where
  class_eq : d.statement.declaredClass? = some d.node
  name_eq : ∃ n, d.node.child? .name = some n ∧ s.text n = .ok d.name
  clause_eq : s.extendsClause d.node = .ok ⟨d.parent, d.extendsText⟩
  export_eq : d.exportForm = d.statement.exportForm
  position_eq : d.position = s.position d.node
  members_eq : s.membersOf d.node d.name = .ok d.members

/-- Registering some statements adds classes after those that were there, in the order of the
text. -/
theorem registerAll_spec (stmts : List Node) : ∀ {r r' : Registry},
    s.registerAll r stmts = .ok r' →
    ∃ new, r'.classes = r.classes ++ new ∧ (new.map (·.statement)).Sublist stmts ∧
      ∀ d ∈ new, s.Registers d := by
  induction stmts with
  | nil =>
    intro r r' h
    obtain rfl := Except.ok.inj h
    exact ⟨[], by simp, .slnil, by simp⟩
  | cons stmt stmts ih =>
    intro r r' h
    rw [registerAll] at h
    split at h
    · -- a statement adds nothing without a class, and a class adds nothing without a name
      obtain ⟨new, hr', hsub, hnew⟩ := ih h
      exact ⟨new, hr', hsub.cons stmt, hnew⟩
    · next cls hcls =>
      split at h
      · obtain ⟨new, hr', hsub, hnew⟩ := ih h
        exact ⟨new, hr', hsub.cons stmt, hnew⟩
      · next nameNode hname =>
        obtain ⟨name, htext, h⟩ := Attempt.bind_eq_ok.1 h
        split at h
        · -- a second class of the name is an error
          cases h
        · next hfresh =>
          obtain ⟨clause, hclause, h⟩ := Attempt.bind_eq_ok.1 h
          obtain ⟨members, hmembers, h⟩ := Attempt.bind_eq_ok.1 h
          obtain ⟨new, hr', hsub, hnew⟩ := ih h
          let first : ClassDecl := ⟨name, clause.parent, clause.text, stmt.exportForm, stmt,
            cls, members, s.position cls⟩
          refine ⟨first :: new, by rw [hr', Registry.declare, List.append_assoc]; rfl,
            hsub.cons_cons stmt, fun d hd => ?_⟩
          rcases List.mem_cons.1 hd with rfl | hd
          · exact ⟨hcls, ⟨nameNode, hname, htext⟩, hclause, rfl, rfl, hmembers⟩
          · exact hnew d hd

theorem registers_of_registry {r : Registry} (h : s.registry = .ok r) {d : ClassDecl}
    (hd : d ∈ r.classes) : s.Registers d := by
  obtain ⟨new, hr, -, hnew⟩ := registerAll_spec _ h
  rw [hr] at hd
  exact hnew d (by simpa [Registry.empty] using hd)

/-- The classes of a registry come in the order of the text. -/
theorem statements_sublist {r : Registry} (h : s.registry = .ok r) :
    (r.classes.map (·.statement)).Sublist s.root.namedChildren := by
  obtain ⟨new, hr, hsub, -⟩ := registerAll_spec _ h
  rw [hr]
  simpa [Registry.empty] using hsub

namespace Registers

variable {d : ClassDecl}

/-- The members of a class are its declarations, of which the last of an identity counts. -/
theorem declarations (h : s.Registers d) :
    ∃ ms, s.declarations d.name d.node.bodyItems = .ok ms ∧ d.members = .ofDeclarations ms := by
  obtain ⟨ms, hms, he⟩ := Attempt.bind_eq_ok.1 h.members_eq
  exact ⟨ms, hms, (Attempt.pure_eq_ok.1 he).symm⟩

theorem filed (h : s.Registers d) : d.members.Filed := by
  obtain ⟨ms, -, hms⟩ := h.declarations
  rw [hms]
  exact Members.filed_ofDeclarations ms

theorem distinct (h : s.Registers d) (c : Category) : Distinct (d.members.inCategory c) := by
  obtain ⟨ms, -, hms⟩ := h.declarations
  rw [hms, Members.inCategory_ofDeclarations]
  exact (distinct_standing ms).filter _

/-- The members of a class are among the declarations in its body. -/
theorem mem_declarations (h : s.Registers d) {ms : List Member}
    (hms : s.declarations d.name d.node.bodyItems = .ok ms) {m : Member}
    (hm : m ∈ d.members.toList) : m ∈ ms := by
  obtain ⟨ms', hms', he⟩ := h.declarations
  obtain rfl := Except.ok.inj (hms.symm.trans hms')
  rw [he, Members.mem_toList] at hm
  rcases hm with ⟨c, hc⟩ | hc
  · -- whether in a category or as the constructor, it was among the declarations
    rw [Members.inCategory_ofDeclarations] at hc
    exact (standing_sublist ms).mem (List.mem_filter.1 hc).1
  · rw [Members.constructor_ofDeclarations] at hc
    exact (List.mem_filter.1 (List.mem_of_getLast? hc)).1

theorem owner_eq (h : s.Registers d) {m : Member} (hm : m ∈ d.members.toList) :
    m.owner = d.name := by
  obtain ⟨ms, hms, -⟩ := h.declarations
  exact owner_of_mem_declarations hms (h.mem_declarations hms hm)

theorem records (h : s.Registers d) {m : Member} (hm : m ∈ d.members.toList) : s.Records m := by
  obtain ⟨ms, hms, -⟩ := h.declarations
  exact records_of_mem_declarations hms (h.mem_declarations hms hm)

end Registers

end Script

/-- A test that the registry of a script passes shows that there is one. -/
theorem Script.exists_registry {s : Script} {p : Registry → Bool}
    (h : s.registry.toOption.any p = true) : ∃ r, s.registry = .ok r ∧ p r = true :=
  Attempt.exists_ok h

end Disinherit
