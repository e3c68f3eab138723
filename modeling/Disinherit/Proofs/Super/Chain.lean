import Disinherit.Proofs.Super.Collision
import Disinherit.Proofs.Super.Places
import Disinherit.Proofs.Super.Removal

/-!
# Chains of constructors

The constructors of a lineage, from the base on, are stitched together (`Stitched`). The last is the
constructor of the flattened class, and every other one becomes a method under a name that nothing
else has. Classes without a constructor leave no gap: what matters is the list of constructors
alone.

`Linked` follows that list and hands on the name of each method to the next constructor, whose
`super(...)` calls become calls of it. The first constructor has nothing to call, so its calls are
taken away or keep only their arguments (`SuperCall.Dropped`).

What a call is, is read off the tree (`Member.superCalls`) and not off the references that
resolution works with. The two agree for every recorded member
(`Script.Records.filterMap_ofReference?`).
-/

namespace Disinherit

open Progress

/-! ### Calls in a member -/

/-- Reads a constructor call off the place where it was found. -/
def SuperCall.at? (p : Node.SuperSite) : Option SuperCall :=
  if p.node.kind = .callExpression then
    match p.node.child? .function, p.node.child? .arguments with
    | some callee, some arguments =>
      some ⟨p.node, callee, arguments, if p.parent.kind = .expressionStatement then some p.parent
        else none⟩
    | _, _ => none
  else none

/-- Where a reference was found. -/
def SuperReference.site (ref : SuperReference) : Node.SuperSite :=
  ⟨ref.node, ref.parent⟩

/-- The calls `super(...)` that are found in a member, in the order of the text. -/
def Member.superCalls (m : Member) : List SuperCall :=
  (m.node.superSites m.nameNode?).filterMap SuperCall.at?

theorem SuperCall.ofReference?_eq_at? {ref : SuperReference}
    (h : ref.target = .construction ↔ ref.node.kind = .callExpression) :
    ofReference? ref = at? ref.site := by
  unfold ofReference? at? SuperReference.site
  by_cases hk : ref.node.kind = .callExpression
  · exact (if_pos (h.2 hk)).trans (if_pos hk).symm
  · exact (if_neg fun htarget => hk (h.1 htarget)).trans (if_neg hk).symm

namespace Script.Records

variable {s : Script} {m : Member}

/-- Exactly the calls ask for a constructor. -/
theorem target_eq_construction (h : s.Records m) {ref : SuperReference}
    (href : ref ∈ m.references) : ref.target = .construction ↔ ref.node.kind = .callExpression :=
  superTarget_eq_construction ((readReferences_spec h.references).2 ref href)

/-- References are read one for each place where one is found. -/
theorem map_site (h : s.Records m) : m.references.map (·.site) = m.node.superSites m.nameNode? := by
  have hsites := congrArg (List.map fun e => (⟨e.1, e.2⟩ : Node.SuperSite))
    (readReferences_spec h.references).1
  rw [List.map_map, List.map_map] at hsites
  exact hsites.trans (List.map_id _)

theorem site_mem (h : s.Records m) {ref : SuperReference} (href : ref ∈ m.references) :
    ref.site ∈ m.node.superSites m.nameNode? := by
  rw [← h.map_site]
  exact List.mem_map_of_mem href

/-- The calls that resolution works with are those that are found in the member. -/
theorem filterMap_ofReference? (h : s.Records m) :
    m.references.filterMap SuperCall.ofReference? = m.superCalls := by
  calc m.references.filterMap SuperCall.ofReference?
      = m.references.filterMap (SuperCall.at? ∘ SuperReference.site) :=
        List.filterMap_congr fun ref href =>
          SuperCall.ofReference?_eq_at? (h.target_eq_construction href)
    _ = (m.references.map (·.site)).filterMap SuperCall.at? := List.filterMap_map.symm
    _ = m.superCalls := by rw [h.map_site, Member.superCalls]

end Script.Records

/-! ### What becomes of a call -/

/-- The call goes to a method instead. It stays a call where it is a statement, and elsewhere it is
given the value `this`. -/
def SuperCall.redirected (name : String) (call : SuperCall) : List Edit :=
  match call.statement? with
  | some _ => [⟨call.callee.start, call.callee.stop, "this." ++ name⟩]
  | none => [⟨call.callee.start, call.callee.stop, "(this." ++ name⟩,
      ⟨call.node.stop, call.node.stop, ", this)"⟩]

/-- The edit replaces all the text that a node has. -/
def Edit.Covers (s : Source) (e : Edit) (n : Node) : Prop :=
  e.start ≤ n.start ∧ min n.stop s.size ≤ e.stop

/-- The call is no call of a constructor any more, and of no other method either: its keyword, the
whole of it or its statement is replaced, and nothing is put there that has a name. -/
def SuperCall.Dropped (s : Source) (call : SuperCall) (edits : List Edit) : Prop :=
  (∃ e ∈ edits, e.Covers s call.callee ∨ e.Covers s call.node ∨
    ∃ stmt, call.statement? = some stmt ∧ e.Covers s stmt) ∧
  ∀ e ∈ edits, ∀ name, ¬ e.Introduces name

/-- The calls in an excerpt are edited as `f` says. Every other edit renames the excerpt, or
replaces a reference that is no call. -/
def Excerpt.CallsBecome (x : Excerpt) (f : SuperCall → List Edit) : Prop :=
  ∃ before after, x.edits = before ++ x.member.superCalls.flatMap f ++ after ∧
    ∀ e ∈ before ++ after,
      (∃ name, x.rename = some name ∧ e ∈ x.member.renameEdits name) ∨
      ∃ site ∈ x.member.node.superSites x.member.nameNode?, site.node.kind ≠ .callExpression ∧
        e.start = site.node.start ∧ e.stop = site.node.stop

/-- The calls in an excerpt lead to the method made of the constructor before, if there is one. -/
def Excerpt.CallsLeadTo (s : Source) (x : Excerpt) : Option String → Prop
  | some name => x.CallsBecome (SuperCall.redirected name)
  | none => ∃ f, x.CallsBecome f ∧ ∀ call ∈ x.member.superCalls, call.Dropped s (f call)

/-- Each constructor calls the one before it, and the first the method `previous?`. -/
def Linked (s : Source) : Option String → List Excerpt → Prop
  | _, [] => True
  | previous?, x :: rest => x.CallsLeadTo s previous? ∧ Linked s x.rename rest

theorem SuperCall.edits_some (source : Source) (name : String) :
    SuperCall.edits source (some name) = SuperCall.redirected name := by
  funext call
  have htext : "(" ++ ("this." ++ name) = "(this." ++ name := (String.append_assoc ..).symm
  show call.calleeEdits ("this." ++ name) = call.redirected name
  unfold calleeEdits redirected
  cases call.statement? with
  | some _ => rfl
  | none => simp only [htext]

/-- A call at the base of the chain has an edit over its keyword, over all of it or over its
statement. -/
theorem SuperCall.covers_baseCallEdits (source : Source) (call : SuperCall) :
    ∃ e ∈ call.baseCallEdits source, e.Covers source call.callee ∨ e.Covers source call.node ∨
      ∃ stmt, call.statement? = some stmt ∧ e.Covers source stmt := by
  unfold baseCallEdits
  split
  · -- the arguments are kept, and only the keyword goes
    unfold calleeEdits
    split
    · exact ⟨_, List.mem_cons_self, .inl ⟨Nat.le_refl _, Nat.min_le_left _ _⟩⟩
    · exact ⟨_, List.mem_cons_self, .inl ⟨Nat.le_refl _, Nat.min_le_left _ _⟩⟩
  · split
    · -- the statement goes, with the blanks around it
      next stmt hstmt =>
      have hcut := Source.removes_removalRange source stmt.start stmt.stop
      exact ⟨_, List.mem_cons_self, .inr (.inr ⟨stmt, hstmt, hcut.start_le, hcut.le_stop⟩)⟩
    · exact ⟨_, List.mem_cons_self, .inr (.inl ⟨Nat.le_refl _, Nat.min_le_left _ _⟩)⟩

/-! ### Along the chain -/

section Chain

variable {s : Script} {l : Lineage} {p : Progress}

/-- The edits for the references that are no calls, those for the calls, and the new name. -/
theorem callsBecome_of_edits {m : Member} (hrec : s.Records m) (method? name? : Option String) :
    (⟨m, p.referenceEdits l m ++ constructionEdits s.source method? m
      ++ (name?.map m.renameEdits).getD [], name?⟩ : Excerpt).CallsBecome
      (SuperCall.edits s.source method?) := by
  refine ⟨p.referenceEdits l m, (name?.map m.renameEdits).getD [], ?_, fun e he => ?_⟩
  · show _ = _ ++ m.superCalls.flatMap _ ++ _
    rw [constructionEdits, hrec.filterMap_ofReference?]
  · rcases List.mem_append.1 he with he | he
    · -- an edit for a reference is where the reference is
      right
      obtain ⟨ref, href, hedit⟩ := List.mem_filterMap.1 he
      unfold editFor? at hedit
      split at hedit
      · next entry hverdict =>
        obtain ⟨name, -, rfl⟩ := Option.map_eq_some_iff.1 hedit
        refine ⟨ref.site, hrec.site_mem href, fun hk => ?_, rfl, rfl⟩
        -- what leads to a copy asks for a member
        obtain ⟨member, htarget, -⟩ := Lineage.referent?_of_verdict hverdict
        rw [(hrec.target_eq_construction href).2 hk] at htarget
        cases htarget
      · cases hedit
    · left
      cases name? with
      | none => cases he
      | some name => exact ⟨name, rfl, he⟩

/-- One link of the chain. -/
theorem callsLeadTo_of_edits {m : Member} (hrec : s.Records m) (method? name? : Option String) :
    (⟨m, p.referenceEdits l m ++ constructionEdits s.source method? m
      ++ (name?.map m.renameEdits).getD [], name?⟩ : Excerpt).CallsLeadTo s.source method? := by
  have hcalls := callsBecome_of_edits (l := l) (p := p) hrec method? name?
  cases method? with
  | some name =>
    rw [SuperCall.edits_some] at hcalls
    exact hcalls
  | none =>
    refine ⟨_, hcalls, fun call hcall =>
      ⟨call.covers_baseCallEdits s.source, fun e he name hname => ?_⟩⟩
    -- nothing is put in place of a call that would introduce a name
    have hmem : e ∈ constructionEdits s.source none m := by
      rw [constructionEdits, hrec.filterMap_ofReference?]
      exact List.mem_flatMap.2 ⟨call, hcall, he⟩
    cases hname.of_mem_constructionEdits hmem

/-- Each excerpt of a chain is linked to the one before it. -/
theorem linked_chainExcerpts (method? : Option String) (entries : List (Member × Option String))
    (hrec : ∀ e ∈ entries, s.Records e.1) :
    Linked s.source method? (p.chainExcerpts s l method? entries) := by
  -- the name given to one constructor is what the calls of the next one lead to
  induction entries generalizing method? with
  | nil => trivial
  | cons e rest ih =>
    obtain ⟨m, name?⟩ := e
    have hfirst : s.Records m := hrec (m, name?) List.mem_cons_self
    exact ⟨callsLeadTo_of_edits hfirst method? name?,
      ih name? fun e he => hrec e (List.mem_cons_of_mem _ he)⟩

end Chain

/-! ### Stitched classes -/

/-- The constructors of a chain, given from the base on, make up the constructor of a resolved class
and the methods that it calls. -/
structure Stitched (s : Script) (l : Lineage) (constructors : List Member) (c : Resolution) :
    Prop where
  /-- The last constructor stays one, so that there is none if the chain has none. -/
  last : c.constructor.map (·.member) = constructors.getLast?
  /-- The others become methods, in order. -/
  others : c.constructorCopies.map (·.member) = constructors.dropLast
  /-- No other constructor is written out. -/
  written : c.excerpts.filter (·.member.kind = .constructor) = c.constructor.toList
    ++ c.constructorCopies
  /-- Each of the methods has a name that no member of the instances has. -/
  named : ∀ y ∈ c.constructorCopies, ∃ name, y.rename = some name ∧
    ∀ m ∈ l.members.toList, m.identity.isStatic = false → m.name ≠ name
  distinct : c.constructorCopies.Pairwise fun y z => y.rename ≠ z.rename
  linked : Linked s.source none (c.constructorCopies ++ c.constructor.toList)

/-- There is nothing to resolve only in a class that is alone in its chain and extends nothing. -/
theorem Lineage.isActive_iff {l : Lineage} :
    l.isActive = true ↔ ¬ ∃ d, l.ancestry = [d] ∧ d.extendsText = none := by
  unfold isActive hasRoot
  cases l.ancestry with
  | nil => simp
  | cons d rest =>
    cases rest with
    | nil => simp [Option.isSome_iff_ne_none]
    | cons d' rest => simp

section Lineage

variable {s : Script} {r : Registry} {target : String} {p : Progress} {names : List String}
  {c : Resolution}

namespace Outcome

/-- The constructor of the class is cut from the one in effect. -/
theorem map_member_constructor (h : Outcome s (r.lineage target) p names c) :
    c.constructor.map (·.member) = (r.lineage target).members.constructor := by
  rw [h.constructor, ← List.getLast?_map, h.map_member_chain, constructor_lineage]

theorem kind_of_mem_constructor (hr : s.registry = .ok r)
    (h : Outcome s (r.lineage target) p names c) {x : Excerpt} (hx : x ∈ c.constructor.toList) :
    x.member.kind = .constructor := by
  have hmem : x ∈ p.chainExcerpts s (r.lineage target) none _ :=
    List.mem_of_getLast? (h.constructor ▸ Option.mem_toList.1 hx)
  exact (constructor_declared hr (List.of_mem_zip (mem_of_mem_chainExcerpts hmem)).1).2.1

/-- Among the members the place of the constructor is taken exactly once, if there is one. -/
theorem filter_constructor_members (hr : s.registry = .ok r)
    (h : Outcome s (r.lineage target) p names c) :
    (c.members.flatMap fun e =>
      if e.member.kind = .constructor then c.constructor.toList else [e]).filter
        (·.member.kind = .constructor)
      = c.constructor.toList := by
  rw [h.members, List.flatMap_map, List.filter_flatMap]
  calc (r.lineage target).members.toList.flatMap (fun m =>
        (if m.kind = .constructor then c.constructor.toList
          else [p.memberExcerpt (r.lineage target) m]).filter (·.member.kind = .constructor))
      = (r.lineage target).members.toList.flatMap (fun m =>
          if m.kind = .constructor then c.constructor.toList else []) := by
        refine List.flatMap_congr fun m _ => ?_
        split
        · exact List.filter_eq_self.2 fun x hx => decide_eq_true (h.kind_of_mem_constructor hr hx)
        · next hk => simp [memberExcerpt, hk]
    _ = ((r.lineage target).members.toList.filter (·.kind = .constructor)).flatMap
          (fun _ => c.constructor.toList) := by
        rw [flatMap_filter]
        simp
    _ = c.constructor.toList := by
        -- a class has at most one member that is a constructor, and then `c` has one too
        rw [(filed_lineage hr target).filter_constructor, ← h.map_member_constructor]
        cases c.constructor <;> simp

/-- The constructors that are written out are the excerpts of the chain. -/
theorem filter_constructor_excerpts (hr : s.registry = .ok r)
    (h : Outcome s (r.lineage target) p names c) :
    c.excerpts.filter (·.member.kind = .constructor)
      = c.constructor.toList ++ c.constructorCopies := by
  -- copies are methods and accessors
  have hcopies : c.copies.filter (·.member.kind = .constructor) = [] := by
    refine List.filter_eq_nil_iff.2 fun x hx hk => ?_
    have hkind := (reached_declared hr h.valid (h.copies ▸ hx)).2
    rw [of_decide_eq_true hk] at hkind
    cases hkind
  -- what became of the constructors was declared as such
  have hmethods : c.constructorCopies.filter (·.member.kind = .constructor)
      = c.constructorCopies := by
    refine List.filter_eq_self.2 fun x hx => ?_
    exact decide_eq_true (constructor_declared hr (h.constructorCopy hx).1).2.1
  rw [Resolution.excerpts, List.filter_append, List.filter_append, h.filter_constructor_members hr,
    hcopies, hmethods, List.append_nil]

/-- The names of constructors that became methods differ from those of the members of the
instances. -/
theorem name_ne_of_mem (hr : s.registry = .ok r) (h : Outcome s (r.lineage target) p names c)
    {y : Excerpt} (hy : y ∈ c.constructorCopies) :
    ∃ name, y.rename = some name ∧
      ∀ m ∈ (r.lineage target).members.toList, m.identity.isStatic = false → m.name ≠ name := by
  obtain ⟨-, name, hname, hget, -⟩ := h.constructorCopy hy
  refine ⟨name, hname, fun m hm hstatic => ?_⟩
  refine h.valid.reserves.free _ name hget m hm (fun hk => ?_) hstatic
  -- a static block is no member of the instances
  obtain ⟨d, hd, hmem⟩ := exists_of_mem_lineage hr hm
  rw [((Script.registers_of_ancestry hr hd).records hmem).isStatic_staticBlock hk] at hstatic
  cases hstatic

theorem pairwise_rename_constructorCopies (hr : s.registry = .ok r)
    (h : Outcome s (r.lineage target) p names c) :
    c.constructorCopies.Pairwise fun y z => y.rename ≠ z.rename := by
  refine (h.pairwise_constructorCopies hr).imp_of_mem fun {y z} hy hz hne hname => hne ?_
  -- constructors are all on one side, so that a shared name would have to be shared by the classes
  have hside : y.member.identity.isStatic = z.member.identity.isStatic :=
    (constructor_declared hr (h.constructorCopy hy).1).2.2.trans
      (constructor_declared hr (h.constructorCopy hz).1).2.2.symm
  exact ((h.sharesName_iff hr (List.mem_append_right _ hy) (List.mem_append_right _ hz)).1
    ⟨hside, hname⟩).1

/-- The constructor of the class and the methods made of the others are the excerpts of the
chain. -/
theorem chain_eq {l : Lineage} (h : Outcome s l p names c) :
    c.constructorCopies ++ c.constructor.toList
      = p.chainExcerpts s l none (l.constructors.zip (names.map some ++ [none])) := by
  rw [h.constructorCopies, h.constructor]
  generalize p.chainExcerpts s l none _ = chain
  -- the last of the chain is the constructor, and the others are the copies
  rcases List.eq_nil_or_concat chain with rfl | ⟨front, x, rfl⟩
  · rfl
  · rw [List.concat_eq_append, List.dropLast_concat, List.getLast?_concat]
    rfl

theorem linked (hr : s.registry = .ok r) (h : Outcome s (r.lineage target) p names c) :
    Linked s.source none (c.constructorCopies ++ c.constructor.toList) := by
  rw [h.chain_eq]
  exact linked_chainExcerpts none _ fun e he => (constructor_declared hr (List.of_mem_zip he).1).1

end Outcome

/-- **Constructors are stitched together link by link**, in every class but one that stands
alone. -/
theorem stitched_resolve (hr : s.registry = .ok r) (target : String)
    (hactive : ¬ ∃ d, r.ancestry target = [d] ∧ d.extendsText = none) :
    Stitched s (r.lineage target) ((r.ancestry target).filterMap (·.members.constructor))
      (s.resolve (r.lineage target)) := by
  obtain ⟨p, names, h⟩ := exists_outcome s
    ((Lineage.isActive_iff (l := r.lineage target)).2 hactive)
  rw [← constructors_lineage hr]
  constructor
  case last => rw [h.map_member_constructor, constructor_lineage]
  case others => rw [h.constructorCopies, List.map_dropLast, h.map_member_chain]
  case written => exact h.filter_constructor_excerpts hr
  case named => exact fun y hy => h.name_ne_of_mem hr hy
  case distinct => exact h.pairwise_rename_constructorCopies hr
  case linked => exact h.linked hr

end Lineage

/-! ### A chain with a gap -/

/-- The statement `x=super()`. -/
def Node.shortSuperValue (start : Nat) : Node :=
  .sound .expressionStatement none start (start + 9)
    [.sound .assignment none start (start + 9)
      [.sound .identifier (some .left) start (start + 1) [],
        .sound .callExpression (some (.other "right")) (start + 2) (start + 9)
          [.sound .superKeyword (some .function) (start + 2) (start + 7) [],
            .sound (.other "arguments") (some .arguments) (start + 7) (start + 9) []]]]

/-- Four classes, of which `A` extends something unknown and `B` has no constructor. Those of `A`
and `C` consist of `super()`, and that of `D` uses the value of the call. -/
def gappedConstructors : Script where
  source :=
    .ofText ("class A extends Z\x7bconstructor()\x7bsuper()\x7d\x7dclass B extends A\x7b\x7d"
    ++ "class C extends B\x7bconstructor()\x7bsuper()\x7d\x7d"
    ++ "class D extends C\x7bconstructor()\x7bx=super()\x7d\x7d")
  root := .sound (.other "program") none 0 144
    [.shortClass 0 17 41 [.shortHeritage 8] [.shortMethod 18 18 29 40 [] [.shortSuperCall 32]],
      .shortClass 41 58 60 [.shortHeritage 49] [],
      .shortClass 60 77 101 [.shortHeritage 68] [.shortMethod 78 78 89 100 [] [.shortSuperCall 92]],
      .shortClass 101 118 144 [.shortHeritage 109]
        [.shortMethod 119 119 130 143 [] [.shortSuperValue 133]]]

/-- The constructor of `D` calls that of `C`, which calls that of `A`, where the call is removed. -/
theorem stitched_gappedConstructors : ∃ r, gappedConstructors.registry = .ok r ∧
    ((gappedConstructors.resolve (r.lineage "D")).constructorCopies
        ++ (gappedConstructors.resolve (r.lineage "D")).constructor.toList).map
        (fun x => (x.member.owner, x.edits.map (·.text)))
      = [("A", ["", "_super_A_constructor"]),
        ("C", ["this._super_A_constructor", "_super_C_constructor"]),
        ("D", ["(this._super_C_constructor", ", this)"])] ∧
    Stitched gappedConstructors (r.lineage "D") ((r.ancestry "D").filterMap (·.members.constructor))
      (gappedConstructors.resolve (r.lineage "D")) := by
  obtain ⟨r, hr, htest⟩ := Script.exists_registry (s := gappedConstructors)
    (p := fun r => decide (1 < (r.ancestry "D").length) &&
      ((gappedConstructors.resolve (r.lineage "D")).constructorCopies
        ++ (gappedConstructors.resolve (r.lineage "D")).constructor.toList).map
        (fun x => (x.member.owner, x.edits.map (·.text)))
      == [("A", ["", "_super_A_constructor"]),
        ("C", ["this._super_A_constructor", "_super_C_constructor"]),
        ("D", ["(this._super_C_constructor", ", this)"])]) (by decide +kernel)
  obtain ⟨hlength, htexts⟩ := Bool.and_eq_true_iff.1 htest
  refine ⟨r, hr, beq_iff_eq.1 htexts, stitched_resolve hr "D" ?_⟩
  rintro ⟨d, hd, -⟩
  rw [hd] at hlength
  exact Nat.lt_irrefl 1 (of_decide_eq_true hlength)

end Disinherit
