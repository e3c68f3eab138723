import Disinherit.Proofs.Lineage.Overlay
import Disinherit.Proofs.Lists
import Disinherit.Proofs.Tree.Samples

/-!
# The members in effect

Along a chain of classes, declarations override each other by two rules at once. A method or an
accessor takes its whole property from the ancestors, whatever they had there, while any other
member only replaces the one with its identity, and static blocks add up. `EffectiveMembers` states
the outcome without reference to the order of the merge: which declaration of an identity is in
effect is told by the last class of the chain that has a say in it.

The proof runs along the chain. `surviving` lists what is left of a category: of each class, the
members that no later class supersedes. `inCategory_foldl_overlay` is the invariant of the run, one
application of `inCategory_overlay` for each class, and `mem_surviving` turns it into a statement
about a single member, from which the rules for fields and for properties follow.

Cycles, missing parents and repeated names do not come up: the chain is any list of classes with
different names, which is what `Registry.ancestry` gives. The order in which a class clears the
properties it takes is a parameter of `Registry.lineageIn`.
-/

namespace Disinherit

/-! ### What is left of each class -/

/-- The members of a category that are in effect after a chain of classes: of each class those that
no later class supersedes. -/
def surviving (c : Category) : List ClassDecl → List Member
  | [] => []
  | d :: ds => (d.members.inCategory c).filter (fun m => !ds.any (·.supersedes m)) ++ surviving c ds

theorem surviving_concat (c : Category) (ds : List ClassDecl) (d : ClassDecl) :
    surviving c (ds ++ [d])
      = (surviving c ds).filter (fun m => !d.supersedes m) ++ d.members.inCategory c := by
  induction ds with
  | nil => simp [surviving]
  | cons e ds ih =>
    -- what a class keeps in the longer chain must be left by `d` as well
    rw [List.cons_append, surviving, surviving, ih, List.filter_append, List.filter_filter,
      List.append_assoc]
    congr 1
    refine List.filter_congr fun m _ => ?_
    rw [List.any_append, Bool.not_or, Bool.and_comm]
    simp

/-- A member is in effect if its class has it and no later class supersedes it. -/
theorem mem_surviving {c : Category} {ds : List ClassDecl} {m : Member} :
    m ∈ surviving c ds ↔ ∃ front d back, ds = front ++ d :: back ∧ m ∈ d.members.inCategory c ∧
      ∀ e ∈ back, e.supersedes m = false := by
  induction ds with
  | nil => simp [surviving]
  | cons d ds ih =>
    rw [surviving, List.mem_append, List.mem_filter, ih]
    constructor
    · -- the class of the member is the first one or a later one, and what is behind it is the same
      rintro (⟨hm, hlater⟩ | ⟨front, e, back, rfl, hm, hlater⟩)
      · exact ⟨[], d, ds, rfl, hm, by simpa using hlater⟩
      · exact ⟨d :: front, e, back, rfl, hm, hlater⟩
    · rintro ⟨front, e, back, hds, hm, hlater⟩
      cases front with
      | nil =>
        obtain ⟨rfl, rfl⟩ := List.cons.inj hds
        exact .inl ⟨hm, by simpa using hlater⟩
      | cons _ front =>
        obtain ⟨rfl, rfl⟩ := List.cons.inj hds
        exact .inr ⟨front, e, back, rfl, hm, hlater⟩

/-- Static blocks are never superseded, so that all of them are in effect. -/
theorem surviving_staticBlock {ds : List ClassDecl} (hds : ∀ d ∈ ds, d.members.Filed) :
    surviving .staticBlock ds = ds.flatMap (·.members.inCategory .staticBlock) := by
  induction ds with
  | nil => rfl
  | cons d ds ih =>
    rw [surviving, List.flatMap_cons, ih fun e he => hds e (List.mem_cons_of_mem _ he)]
    -- no class supersedes a static block
    congr 1
    refine List.filter_eq_self.2 fun m hm => ?_
    have hcat := (Members.fits_iff.1 ((hds d List.mem_cons_self).fits _ m hm)).2
    have hkind : m.kind = .staticBlock := Identity.kind_of_category_staticBlock hcat
    simp [ClassDecl.supersedes, hkind, MemberKind.onPrototype]

theorem surviving_sublist (c : Category) (ds : List ClassDecl) :
    (surviving c ds).Sublist (ds.flatMap (·.members.inCategory c)) := by
  induction ds with
  | nil => exact .slnil
  | cons d ds ih =>
    rw [surviving, List.flatMap_cons]
    exact List.filter_sublist.append ih

section Chain

variable {s : Script}

/-- Members in effect are members of their owner. -/
theorem exists_of_mem_surviving {c : Category} {ds : List ClassDecl} {m : Member}
    (hm : m ∈ surviving c ds) : ∃ d ∈ ds, m ∈ d.members.inCategory c := by
  obtain ⟨front, d, back, rfl, hmd, -⟩ := mem_surviving.1 hm
  exact ⟨d, by simp, hmd⟩

theorem distinct_surviving (c : Category) {ds : List ClassDecl} (hds : ∀ d ∈ ds, s.Registers d) :
    Distinct (surviving c ds) := by
  induction ds with
  | nil => exact .nil
  | cons d ds ih =>
    have hd := hds d List.mem_cons_self
    have hrest := fun e he => hds e (List.mem_cons_of_mem d he)
    refine List.pairwise_append.2 ⟨(hd.distinct c).filter _, ih hrest, fun a ha b hb => ?_⟩
    -- were `a` to yield to `b`, the class of `b` would supersede `a`
    obtain ⟨hac, hlater⟩ := List.mem_filter.1 ha
    obtain ⟨e, he, hbe⟩ := exists_of_mem_surviving hb
    rw [Bool.eq_false_iff]
    intro hy
    obtain ⟨hblock, hident⟩ := Member.yieldsTo_iff.1 hy
    have hdecl : e.declares a.identity = true :=
      ClassDecl.declares_iff.2 ⟨b, Members.mem_toList.2 (.inl ⟨c, hbe⟩), hident.symm⟩
    have hnone : ∀ x ∈ ds, x.supersedes a = false := by simpa using hlater
    exact Bool.false_ne_true ((hnone e he).symm.trans
      (ClassDecl.supersedes_of_declares hblock hdecl))

/-! ### The run along the chain -/

/-- **The invariant of the run.** Laying classes with different names over each other leaves what
survives of them, and no constructor among the members. -/
theorem inCategory_foldl_overlay {ds : List ClassDecl} (hds : ∀ d ∈ ds, s.Registers d)
    (hnames : (ds.map (·.name)).Nodup) :
    (∀ c, (ds.foldl Inherited.overlay {}).members.inCategory c = surviving c ds) ∧
      (ds.foldl Inherited.overlay {}).members.constructor = none := by
  induction ds using List.reverseRecOn with
  | nil => exact ⟨fun c => Members.inCategory_empty c, rfl⟩
  | append_singleton ds d ih =>
    rw [List.map_append, List.nodup_append] at hnames
    have hfront : ∀ e ∈ ds, s.Registers e := fun e he => hds e (List.mem_append_left _ he)
    have hd : s.Registers d := hds d (by simp)
    obtain ⟨hcats, hctor⟩ := ih hfront hnames.1
    rw [List.foldl_append, List.foldl_cons, List.foldl_nil]
    -- the step asks for members that are filed, distinct and not those of `d`
    have hfiled : (ds.foldl Inherited.overlay {}).members.Filed := by
      -- inherited members were registered with their classes
      refine ⟨fun c m hm => ?_, fun m hm => ?_⟩
      · rw [hcats c] at hm
        obtain ⟨e, he, hme⟩ := exists_of_mem_surviving hm
        exact (hfront e he).filed.fits c m hme
      · rw [hctor] at hm
        cases hm
    refine ⟨fun c => ?_, by rw [Inherited.constructor_overlay, hctor]⟩
    rw [surviving_concat, ← hcats c]
    refine Inherited.inCategory_overlay hd hfiled ?_ fun m hm => ?_
    · rw [hcats c]
      exact distinct_surviving c hfront
    · -- an ancestor's member is not owned by the class, whose name is new in the chain
      rw [hcats c] at hm
      obtain ⟨e, he, hme⟩ := exists_of_mem_surviving hm
      rw [(hfront e he).owner_eq (Members.mem_toList.2 (.inl ⟨c, hme⟩))]
      exact hnames.2.2 e.name (List.mem_map_of_mem he) d.name (by simp)

theorem constructors_foldl_overlay {ds : List ClassDecl} (hds : ∀ d ∈ ds, s.Registers d) :
    (ds.foldl Inherited.overlay {}).constructors = ds.filterMap (·.members.constructor) := by
  induction ds using List.reverseRecOn with
  | nil => rfl
  | append_singleton ds d ih =>
    rw [List.foldl_append, List.foldl_cons, List.foldl_nil,
      Inherited.constructors_overlay (hds d (by simp)),
      ih fun e he => hds e (List.mem_append_left _ he), List.filterMap_append]
    cases h : d.members.constructor <;> simp [h]

end Chain

/-! ### The members of a lineage -/

/-- The members in effect for a chain of classes, most distant ancestor first. -/
structure EffectiveMembers (s : Script) (chain : List ClassDecl) (ms : Members) : Prop where
  /-- No identity is there twice, save that of static blocks. -/
  unique : ∀ i : Identity, i.kind ≠ .staticBlock → (ms.toList.filter (·.identity = i)).length ≤ 1
  /-- A field is there if some class declares it. -/
  field_present : ∀ i : Identity, i.kind = .field →
    ((∃ m ∈ ms.toList, m.identity = i) ↔ ∃ d ∈ chain, d.declares i = true)
  /-- The field in effect is the declaration of the last class that declares it. -/
  field_declared : ∀ i : Identity, i.kind = .field → ∀ m,
    (m ∈ ms.toList ∧ m.identity = i ↔
      ∃ d, chain.findRev? (·.declares i) = some d ∧ m ∈ d.members.toList ∧ m.identity = i)
  /-- A method or accessor is there if the last class that occupies its property declares it. -/
  property_present : ∀ i : Identity, i.kind.onPrototype = true →
    ((∃ m ∈ ms.toList, m.identity = i) ↔
      ∃ d, chain.findRev? (·.occupies i.property) = some d ∧ d.declares i = true)
  /-- The method or accessor in effect is the declaration of that class. -/
  property_declared : ∀ i : Identity, i.kind.onPrototype = true → ∀ m,
    (m ∈ ms.toList ∧ m.identity = i ↔
      ∃ d, chain.findRev? (·.occupies i.property) = some d ∧ m ∈ d.members.toList ∧ m.identity = i)
  /-- All static blocks are there. -/
  staticBlocks : ms.toList.filter (·.kind = .staticBlock)
    = chain.flatMap fun d => d.members.toList.filter (·.kind = .staticBlock)
  /-- The constructor is that of the last class that has one. -/
  constructor : ms.constructor
    = (chain.findRev? (·.members.constructor.isSome)).bind (·.members.constructor)
  /-- In each category the members come in the order of the chain, and those of one class in the
  order in which its body declares them. -/
  ordered : ∃ bodies, List.Forall₂ (fun d body =>
      s.declarations d.name d.node.bodyItems = .ok body ∧ ∀ m ∈ body, m.owner = d.name)
        chain bodies ∧
    ∀ c, (ms.inCategory c).Sublist bodies.flatten

/-- Along a chain it makes no difference in which order each class clears the properties that it
takes. -/
theorem foldl_overlayIn {order : ClassDecl → List PropertyKey} {ds : List ClassDecl}
    (horder : ∀ d ∈ ds, ∀ k, k ∈ order d ↔ k ∈ Inherited.propertiesTaken d.members.toList)
    (h : Inherited) :
    ds.foldl (fun h d => h.overlayIn (order d) d) h = ds.foldl Inherited.overlay h := by
  induction ds generalizing h with
  | nil => rfl
  | cons d ds ih =>
    rw [List.foldl_cons, List.foldl_cons,
      Inherited.overlayIn_eq_overlay h (horder d List.mem_cons_self)]
    -- after the first class both are in the same state
    exact ih (fun e he => horder e (List.mem_cons_of_mem d he)) _

namespace Registry

/-- The lineage of a class, when each class `d` clears the properties that it takes in the order of
the list `order d`. -/
def lineageIn (order : ClassDecl → List PropertyKey) (r : Registry) (name : String) : Lineage :=
  let ancestry := r.ancestry name
  let inherited := ancestry.foldl (fun (h : Inherited) d => h.overlayIn (order d) d) {}
  { inherited with
    members := { inherited.members with constructor := inherited.constructors.getLast? }
    target := name
    ancestry }

theorem lineageIn_eq_lineage {order : ClassDecl → List PropertyKey} {r : Registry} {name : String}
    (horder : ∀ d ∈ r.ancestry name, ∀ k,
      k ∈ order d ↔ k ∈ Inherited.propertiesTaken d.members.toList) :
    r.lineageIn order name = r.lineage name := by
  simp only [lineageIn, lineage, foldl_overlayIn horder]

end Registry

/-! ### The rules hold -/

section Lineage

variable {s : Script} {r : Registry}

theorem inCategory_lineage (hr : s.registry = .ok r) (name : String) (c : Category) :
    (r.lineage name).members.inCategory c = surviving c (r.ancestry name) := by
  rw [← (inCategory_foldl_overlay (fun d hd => Script.registers_of_ancestry hr hd)
    (r.nodup_ancestry name)).1 c]
  -- the constructor that a lineage adds at the end is not in a category
  cases c <;> rfl

theorem constructors_lineage (hr : s.registry = .ok r) (name : String) :
    (r.lineage name).constructors = (r.ancestry name).filterMap (·.members.constructor) :=
  constructors_foldl_overlay fun _ hd => Script.registers_of_ancestry hr hd

theorem constructor_lineage (r : Registry) (name : String) :
    (r.lineage name).members.constructor = (r.lineage name).constructors.getLast? := rfl

/-- The constructors of a lineage belong to its classes. -/
theorem mem_constructors_lineage (hr : s.registry = .ok r) {name : String} {m : Member}
    (hm : m ∈ (r.lineage name).constructors) :
    m.kind = .constructor ∧ ∃ d ∈ r.ancestry name, m ∈ d.members.toList := by
  rw [constructors_lineage hr] at hm
  obtain ⟨d, hd, hctor⟩ := List.mem_filterMap.1 hm
  exact ⟨(Script.registers_of_ancestry hr hd).filed.constructor m hctor, d, hd,
    Members.mem_toList.2 (.inr hctor)⟩

theorem filed_lineage (hr : s.registry = .ok r) (name : String) :
    (r.lineage name).members.Filed := by
  refine ⟨fun c m hm => ?_, fun m hm => ?_⟩
  · rw [inCategory_lineage hr] at hm
    obtain ⟨d, hd, hmd⟩ := exists_of_mem_surviving hm
    exact (Script.registers_of_ancestry hr hd).filed.fits c m hmd
  · rw [constructor_lineage] at hm
    exact (mem_constructors_lineage hr (List.mem_of_getLast? hm)).1

/-- The members in effect are declared by the classes of the chain. -/
theorem exists_of_mem_lineage (hr : s.registry = .ok r) {name : String} {m : Member}
    (hm : m ∈ (r.lineage name).members.toList) : ∃ d ∈ r.ancestry name, m ∈ d.members.toList := by
  rcases Members.mem_toList.1 hm with ⟨c, hc⟩ | hctor
  · rw [inCategory_lineage hr] at hc
    obtain ⟨d, hd, hmd⟩ := exists_of_mem_surviving hc
    exact ⟨d, hd, Members.mem_toList.2 (.inl ⟨c, hmd⟩)⟩
  · rw [constructor_lineage] at hctor
    exact (mem_constructors_lineage hr (List.mem_of_getLast? hctor)).2

/-- Whether a member is in effect is decided by the last class that has a say in it. -/
theorem mem_lineage_iff (hr : s.registry = .ok r) {name : String} {m : Member}
    (hctor : m.kind ≠ .constructor) (hblock : m.kind ≠ .staticBlock) :
    m ∈ (r.lineage name).members.toList ↔
      ∃ d, (r.ancestry name).findRev? (·.supersedes m) = some d ∧ m ∈ d.members.toList := by
  -- each class has the member in one category if at all
  have hown : ∀ d ∈ r.ancestry name,
      (m ∈ d.members.toList ↔ m ∈ d.members.inCategory m.identity.category) := by
    intro d hd
    rw [(Script.registers_of_ancestry hr hd).filed.mem_toList, if_neg hctor]
  rw [(filed_lineage hr name).mem_toList, if_neg hctor, inCategory_lineage hr, mem_surviving]
  constructor
  · rintro ⟨front, d, back, hchain, hmd, hlater⟩
    have hm := (hown d (by rw [hchain]; simp)).2 hmd
    -- the class of `m` supersedes `m` itself, and no later class does
    have hself : d.supersedes m = true :=
      ClassDecl.supersedes_of_declares hblock (ClassDecl.declares_iff.2 ⟨m, hm, rfl⟩)
    exact ⟨d, findRev?_eq_some_iff_append.2 ⟨hself, front, back, hchain, hlater⟩, hm⟩
  · rintro ⟨d, hlast, hm⟩
    obtain ⟨-, front, back, hchain, hlater⟩ := findRev?_eq_some_iff_append.1 hlast
    exact ⟨front, d, back, hchain, (hown d (by rw [hchain]; simp)).1 hm, hlater⟩

/-- The field in effect is the declaration of the last class that declares it. -/
theorem field_lineage_iff (hr : s.registry = .ok r) {name : String} {i : Identity}
    (hi : i.kind = .field) {m : Member} :
    m ∈ (r.lineage name).members.toList ∧ m.identity = i ↔
      ∃ d, (r.ancestry name).findRev? (·.declares i) = some d ∧ m ∈ d.members.toList ∧
        m.identity = i := by
  by_cases hm : m.identity = i
  · -- fields are superseded by declarations of their identity only
    have hk : m.kind = .field := by rw [Member.kind, hm, hi]
    have hsay : (fun d : ClassDecl => d.supersedes m) = (·.declares i) := by
      funext d
      rw [ClassDecl.supersedes, hk, hm]
      rfl
    rw [mem_lineage_iff hr (by rw [hk]; decide) (by rw [hk]; decide), hsay]
    simp [hm]
  · simp [hm]

/-- The method or accessor in effect is the declaration of the last class that occupies its
property. -/
theorem property_lineage_iff (hr : s.registry = .ok r) {name : String} {i : Identity}
    (hi : i.kind.onPrototype = true) {m : Member} :
    m ∈ (r.lineage name).members.toList ∧ m.identity = i ↔
      ∃ d, (r.ancestry name).findRev? (·.occupies i.property) = some d ∧ m ∈ d.members.toList ∧
        m.identity = i := by
  by_cases hm : m.identity = i
  · -- methods and accessors are superseded by whatever occupies their property
    have hp : m.kind.onPrototype = true := by rw [Member.kind, hm, hi]
    have hsay : (fun d : ClassDecl => d.supersedes m) = (·.occupies i.property) := by
      funext d
      rw [ClassDecl.supersedes, if_pos hp, hm]
    obtain ⟨hctor, hblock⟩ := Inherited.ne_of_hasHistory (Inherited.hasHistory_of_onPrototype hp)
    rw [mem_lineage_iff hr hctor hblock, hsay]
    simp [hm]
  · simp [hm]

/-- Among distinct members an identity other than that of static blocks occurs once at most. -/
theorem length_filter_identity_le {ms : List Member} (h : Distinct ms) {i : Identity}
    (hi : i.kind ≠ .staticBlock) : (ms.filter (·.identity = i)).length ≤ 1 := by
  induction ms with
  | nil => simp
  | cons m ms ih =>
    obtain ⟨hm, hms⟩ := List.pairwise_cons.1 h
    by_cases hmi : m.identity = i
    · -- a second one of this identity would have superseded the first
      have hrest : ms.filter (·.identity = i) = [] := by
        refine List.filter_eq_nil_iff.2 fun b hb hbi => ?_
        have hy := hm b hb
        rw [Bool.eq_false_iff, Ne, Member.yieldsTo_iff] at hy
        refine hy ⟨?_, hmi.trans (of_decide_eq_true hbi).symm⟩
        rw [Member.kind, hmi]
        exact hi
      rw [List.filter_cons_of_pos (by simpa using hmi), hrest]
      exact Nat.le_refl 1
    · rw [List.filter_cons_of_neg (by simpa using hmi)]
      exact ih hms

theorem unique_lineage (hr : s.registry = .ok r) (name : String) {i : Identity}
    (hi : i.kind ≠ .staticBlock) :
    ((r.lineage name).members.toList.filter (·.identity = i)).length ≤ 1 := by
  have hfiled := filed_lineage hr name
  by_cases hk : i.kind = .constructor
  · -- whatever has this identity is a constructor, and there is one place for those
    have hsub : ((r.lineage name).members.toList.filter (·.identity = i)).length
        ≤ ((r.lineage name).members.toList.filter (·.kind = .constructor)).length := by
      rw [← List.countP_eq_length_filter, ← List.countP_eq_length_filter]
      refine List.countP_mono_left fun m _ hm => ?_
      rw [decide_eq_true_eq] at hm ⊢
      rw [Member.kind, hm, hk]
    rw [hfiled.filter_constructor] at hsub
    refine Nat.le_trans hsub ?_
    cases (r.lineage name).members.constructor <;> simp
  · rw [hfiled.filter_identity hk, inCategory_lineage hr]
    exact length_filter_identity_le
      (distinct_surviving _ fun d hd => Script.registers_of_ancestry hr hd) hi

/-- The static blocks of filed members make up a category. -/
theorem Members.Filed.filter_staticBlock {ms : Members} (h : ms.Filed) :
    ms.toList.filter (·.kind = .staticBlock) = ms.inCategory .staticBlock := by
  rw [← h.filter_fits]
  refine List.filter_congr fun m _ => ?_
  rw [Bool.eq_iff_iff, decide_eq_true_iff, Members.fits_iff]
  constructor
  · intro hk
    refine ⟨by rw [hk]; decide, ?_⟩
    rw [Member.kind] at hk
    rw [Identity.category, hk]
  · exact fun hf => Identity.kind_of_category_staticBlock hf.2

theorem staticBlocks_lineage (hr : s.registry = .ok r) (name : String) :
    (r.lineage name).members.toList.filter (·.kind = .staticBlock)
      = (r.ancestry name).flatMap fun d => d.members.toList.filter (·.kind = .staticBlock) := by
  rw [(filed_lineage hr name).filter_staticBlock, inCategory_lineage hr, surviving_staticBlock
    fun d hd => (Script.registers_of_ancestry hr hd).filed]
  refine List.flatMap_congr fun d hd => ?_
  rw [(Script.registers_of_ancestry hr hd).filed.filter_staticBlock]

/-- The members of a chain, class after class, are a selection from the declarations in the
bodies. -/
theorem exists_bodies {ds : List ClassDecl} (hds : ∀ d ∈ ds, s.Registers d) :
    ∃ bodies, List.Forall₂ (fun d body =>
        s.declarations d.name d.node.bodyItems = .ok body ∧ ∀ m ∈ body, m.owner = d.name)
          ds bodies ∧
      ∀ c, (ds.flatMap (·.members.inCategory c)).Sublist bodies.flatten := by
  induction ds with
  | nil => exact ⟨[], .nil, fun _ => .slnil⟩
  | cons d ds ih =>
    obtain ⟨bodies, hall, hsub⟩ := ih fun e he => hds e (List.mem_cons_of_mem d he)
    obtain ⟨body, hbody, hmembers⟩ := (hds d List.mem_cons_self).declarations
    -- the members in effect are among those that stand, in the order of the body
    refine ⟨body :: bodies,
      .cons ⟨hbody, fun m hm => Script.owner_of_mem_declarations hbody hm⟩ hall, fun c => ?_⟩
    rw [List.flatMap_cons, List.flatten_cons, hmembers, Members.inCategory_ofDeclarations]
    exact (List.filter_sublist.trans (standing_sublist body)).append (hsub c)

/-- Each category is a selection from the declarations in the bodies, chain and text in order. -/
theorem ordered_lineage (hr : s.registry = .ok r) (name : String) :
    ∃ bodies, List.Forall₂ (fun d body =>
        s.declarations d.name d.node.bodyItems = .ok body ∧ ∀ m ∈ body, m.owner = d.name)
        (r.ancestry name) bodies ∧
      ∀ c, ((r.lineage name).members.inCategory c).Sublist bodies.flatten := by
  obtain ⟨bodies, hall, hsub⟩ := exists_bodies fun d hd => Script.registers_of_ancestry hr hd
  refine ⟨bodies, hall, fun c => ?_⟩
  rw [inCategory_lineage hr]
  exact (surviving_sublist c _).trans (hsub c)

/-- **The members of a lineage are the override-resolved ones**, for every chain that parents make,
and in whatever order each class clears the properties that it takes. -/
theorem effectiveMembers_lineage (hr : s.registry = .ok r) (name : String)
    (order : ClassDecl → List PropertyKey)
    (horder : ∀ d ∈ r.ancestry name, ∀ k,
      k ∈ order d ↔ k ∈ Inherited.propertiesTaken d.members.toList) :
    EffectiveMembers s (r.ancestry name) (r.lineageIn order name).members ∧
      r.lineageIn order name = r.lineage name := by
  have hlineage := Registry.lineageIn_eq_lineage horder
  refine ⟨?_, hlineage⟩
  rw [hlineage]
  constructor
  case unique => exact fun i hi => unique_lineage hr name hi
  case field_declared => exact fun i hi m => field_lineage_iff hr hi
  case property_declared => exact fun i hi m => property_lineage_iff hr hi
  case staticBlocks => exact staticBlocks_lineage hr name
  case ordered => exact ordered_lineage hr name
  -- the last constructor of the chain is that of the last class that has one
  case constructor =>
    rw [constructor_lineage, constructors_lineage hr, getLast?_filterMap_eq_findRev?]
  case field_present =>
    intro i hi
    constructor
    · rintro ⟨m, hm⟩
      obtain ⟨d, hlast, -⟩ := (field_lineage_iff hr hi).1 hm
      obtain ⟨hdecl, front, back, hchain, -⟩ := findRev?_eq_some_iff_append.1 hlast
      exact ⟨d, by rw [hchain]; simp, hdecl⟩
    · rintro ⟨e, he, hdecl⟩
      -- some class declares the field, so there is a last one that does
      obtain ⟨d, hlast⟩ := exists_findRev? (p := (·.declares i)) he hdecl
      obtain ⟨m, hm, hmi⟩ := ClassDecl.declares_iff.1 (findRev?_eq_some_iff_append.1 hlast).1
      exact ⟨m, (field_lineage_iff hr hi).2 ⟨d, hlast, hm, hmi⟩⟩
  case property_present =>
    intro i hi
    constructor
    · rintro ⟨m, hm⟩
      obtain ⟨d, hlast, hmd⟩ := (property_lineage_iff hr hi).1 hm
      exact ⟨d, hlast, ClassDecl.declares_iff.2 ⟨m, hmd⟩⟩
    · rintro ⟨d, hlast, hdecl⟩
      obtain ⟨m, hm⟩ := ClassDecl.declares_iff.1 hdecl
      exact ⟨m, (property_lineage_iff hr hi).2 ⟨d, hlast, hm⟩⟩

end Lineage

/-! ### A chain of three classes -/

/-- Three classes: `A` with the methods `m` and `n`, `B` that puts a getter in place of `m`, and `C`
with both methods again, of which `m` refers to `super.m` and `super.q`. -/
def accessorBetween : Script where
  source :=
    .ofText ("class A\x7bm()\x7b\x7dn()\x7b\x7d\x7d" ++ "class B extends A\x7bget m()\x7b\x7d\x7d"
    ++ "class C extends B\x7bn()\x7b\x7dm()\x7bsuper.m;super.q\x7d\x7d")
  root := .sound (.other "program") none 0 91
    [.shortClass 0 7 19 [] [.shortMethod 8 8 9 13 [] [], .shortMethod 13 13 14 18 [] []],
      .shortClass 19 36 47 [.shortHeritage 27]
        [.shortMethod 37 41 42 46 [⟨.getToken, none, false, false, false, 37, 40, []⟩] []],
      .shortClass 47 64 91 [.shortHeritage 55]
        [.shortMethod 65 65 66 70 [] [],
          .shortMethod 70 70 71 90 [] [.shortSuper 74, .shortSuper 82]]]

/-- The members of `C` are its own two methods, also if each class clears its properties in the
opposite order. -/
theorem effectiveMembers_accessorBetween : ∃ r, accessorBetween.registry = .ok r ∧
    (r.lineage "C").members.toList.map (fun m => (m.owner, m.name)) = [("C", "n"), ("C", "m")] ∧
    EffectiveMembers accessorBetween (r.ancestry "C")
      (r.lineageIn (fun d => (Inherited.propertiesTaken d.members.toList).reverse)
        "C").members := by
  obtain ⟨r, hr, hmembers⟩ := Script.exists_registry (s := accessorBetween)
    (p := fun r => (r.lineage "C").members.toList.map (fun m => (m.owner, m.name))
      == [("C", "n"), ("C", "m")]) (by decide +kernel)
  refine ⟨r, hr, beq_iff_eq.1 hmembers, ?_⟩
  exact (effectiveMembers_lineage hr "C" _ fun d _ k => List.mem_reverse).1

end Disinherit
