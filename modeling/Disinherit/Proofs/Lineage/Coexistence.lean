import Disinherit.Proofs.Lineage.Override

/-!
# Fields beside methods

When a class runs, a name stands for one thing, be it a field, a method or an accessor. A lineage
does not go by names. It keeps fields apart from what is on the prototype, and static members apart
from others, so that a member has to make room only for what comes to its own `Place`.
`mem_lineage_iff_of_isAt` says it in one sentence: whatever is in effect at a place is what the last
class that fills the place has there. No place is ever emptied, and none has a say in another.

Two laws of the language are at odds with that.

* A static property is what the last class made of it. In a flattened class the field of a distant
  ancestor stays beside the method of a nearer one, and since fields are initialized after methods
  are defined, the ancestor wins. `determinedBy_iff` tells who wins in every case, and that the last
  class does so exactly if it has a field or nobody has.
* A private name is declared once, save for a getter with its setter. Each class may keep to this,
  and the lineage still breaks it: exactly if two classes of the chain have the name at different
  places (`privateNamesLegal_lineage_iff`).
-/

namespace Disinherit

/-! ### Places -/

/-- Where a lineage keeps a field, a method or an accessor: with the fields or on the prototype, and
for which property. -/
inductive Place where
  | field (property : PropertyKey)
  | prototype (property : PropertyKey)
deriving DecidableEq

/-- The place of fields, methods and accessors with an identity. -/
def Identity.place (i : Identity) : Place :=
  if i.kind = .field then .field i.property else .prototype i.property

/-- The member is a field, a method or an accessor, and this is its place. -/
def Member.isAt (m : Member) (q : Place) : Bool :=
  Inherited.hasHistory m.kind && m.identity.place == q

/-- The class has something at the place. -/
def ClassDecl.fills (d : ClassDecl) (q : Place) : Bool :=
  d.members.toList.any (·.isAt q)

theorem Member.isAt_iff {m : Member} {q : Place} :
    m.isAt q = true ↔ Inherited.hasHistory m.kind = true ∧ m.identity.place = q := by
  simp [isAt]

theorem ClassDecl.fills_iff {d : ClassDecl} {q : Place} :
    d.fills q = true ↔ ∃ m ∈ d.members.toList, m.isAt q = true := by
  simp [fills]

theorem Inherited.hasHistory_iff {kind : MemberKind} :
    hasHistory kind = true ↔ kind.onPrototype = true ∨ kind = .field := by
  simp [hasHistory]

theorem MemberKind.ne_field_of_onPrototype {kind : MemberKind} (h : kind.onPrototype = true) :
    kind ≠ .field := by
  rintro rfl
  cases h

theorem Member.isAt_field_iff {m : Member} {k : PropertyKey} :
    m.isAt (.field k) = true ↔ m.kind = .field ∧ m.identity.property = k := by
  rw [isAt_iff, Identity.place]
  by_cases hk : m.identity.kind = .field
  · rw [if_pos hk, Place.field.injEq, Member.kind, hk]
    exact and_congr_left fun _ => iff_of_true rfl rfl
  · rw [if_neg hk]
    exact ⟨fun h => (by cases h.2), fun h => absurd h.1 hk⟩

theorem Member.isAt_prototype_iff {m : Member} {k : PropertyKey} :
    m.isAt (.prototype k) = true ↔ m.kind.onPrototype = true ∧ m.identity.property = k := by
  rw [isAt_iff, Identity.place]
  by_cases hk : m.identity.kind = .field
  · rw [if_pos hk]
    exact ⟨fun h => (by cases h.2), fun h => absurd hk (MemberKind.ne_field_of_onPrototype h.1)⟩
  · rw [if_neg hk, Place.prototype.injEq, Inherited.hasHistory_iff]
    exact and_congr_left fun _ => ⟨fun h => h.resolve_right hk, .inl⟩

/-- The place of a field is for one identity only. -/
theorem Member.isAt_field_property {m m' : Member} (hm : m.kind = .field) :
    m'.isAt (.field m.identity.property) = true ↔ m'.identity = m.identity := by
  rw [isAt_field_iff]
  constructor
  · rintro ⟨hkind, hproperty⟩
    exact Identity.eq_of_property (hkind.trans hm.symm) hproperty
  · intro hident
    rw [Member.kind, hident]
    exact ⟨hm, rfl⟩

/-- **A class supersedes what is at the places that it fills**, and nothing else. -/
theorem ClassDecl.supersedes_eq_fills (d : ClassDecl) {m : Member} {q : Place}
    (hm : m.isAt q = true) : d.supersedes m = d.fills q := by
  rw [Bool.eq_iff_iff, fills_iff, supersedes]
  cases q with
  | field k =>
    -- fields give way to fields of the same property
    obtain ⟨hfield, rfl⟩ := Member.isAt_field_iff.1 hm
    have hproto : ¬ m.kind.onPrototype = true :=
      fun h => MemberKind.ne_field_of_onPrototype h hfield
    have hblock : (m.kind != .staticBlock) = true := by rw [hfield]; rfl
    simp only [if_neg hproto, hblock, Bool.true_and, declares_iff,
      Member.isAt_field_property hfield]
  | prototype k =>
    -- methods and accessors give way to whatever occupies it
    obtain ⟨hproto, rfl⟩ := Member.isAt_prototype_iff.1 hm
    simp only [if_pos hproto, occupies_iff, Member.isAt_prototype_iff]

/-! ### What is in effect at a place -/

section Lineage

variable {s : Script} {r : Registry} {name : String} {m : Member} {q : Place} {d : ClassDecl}

/-- **The last class that fills a place decides** what is in effect there. -/
theorem mem_lineage_iff_of_isAt (hr : s.registry = .ok r) (hm : m.isAt q = true) :
    m ∈ (r.lineage name).members.toList ↔
      ∃ d, (r.ancestry name).findRev? (·.fills q) = some d ∧ m ∈ d.members.toList := by
  obtain ⟨hctor, hblock⟩ := Inherited.ne_of_hasHistory (Member.isAt_iff.1 hm).1
  have hsay : (fun d : ClassDecl => d.supersedes m) = (·.fills q) := by
    funext d
    exact d.supersedes_eq_fills hm
  rw [mem_lineage_iff hr hctor hblock, hsay]

/-- Something is in effect at every place that a class of the chain fills. -/
theorem exists_mem_lineage (hr : s.registry = .ok r)
    (hlast : (r.ancestry name).findRev? (·.fills q) = some d) :
    ∃ m ∈ (r.lineage name).members.toList, m.isAt q = true := by
  obtain ⟨hfills, -⟩ := findRev?_eq_some_iff_append.1 hlast
  obtain ⟨m, hm, hat⟩ := ClassDecl.fills_iff.1 hfills
  exact ⟨m, (mem_lineage_iff_of_isAt hr hat).2 ⟨d, hlast, hm⟩, hat⟩

/-- What is in effect at a place belongs to the last class that fills it. -/
theorem owner_of_isAt (hr : s.registry = .ok r) (hm : m ∈ (r.lineage name).members.toList)
    (hat : m.isAt q = true) :
    ∃ d, (r.ancestry name).findRev? (·.fills q) = some d ∧ m ∈ d.members.toList ∧
      m.owner = d.name := by
  obtain ⟨d, hlast, hd⟩ := (mem_lineage_iff_of_isAt hr hat).1 hm
  exact ⟨d, hlast, hd, (Script.registers_of_ancestry hr (mem_of_findRev? hlast)).owner_eq hd⟩

/-- Nothing is in effect at a place that no class of the chain fills. -/
theorem find?_isAt_eq_none (hr : s.registry = .ok r)
    (hlast : (r.ancestry name).findRev? (·.fills q) = none) :
    (r.lineage name).members.toList.find? (·.isAt q) = none := by
  refine List.find?_eq_none.2 fun m hm hat => ?_
  obtain ⟨d, hd, -⟩ := (mem_lineage_iff_of_isAt hr hat).1 hm
  cases hlast.symm.trans hd

theorem find?_isAt_eq_some (hr : s.registry = .ok r)
    (hlast : (r.ancestry name).findRev? (·.fills q) = some d) :
    ∃ m, (r.lineage name).members.toList.find? (·.isAt q) = some m ∧ m.owner = d.name := by
  obtain ⟨m, hm, hat⟩ := exists_mem_lineage hr hlast
  -- there may be two members at the place, a getter and a setter, and either has this owner
  have hsome : ((r.lineage name).members.toList.find? (·.isAt q)).isSome = true :=
    List.find?_isSome.2 ⟨m, hm, hat⟩
  obtain ⟨m', hfind⟩ := Option.isSome_iff_exists.1 hsome
  have hat' : m'.isAt q = true := List.find?_some (p := fun m : Member => m.isAt q) hfind
  obtain ⟨d', hlast', -, howner⟩ := owner_of_isAt hr (List.mem_of_find?_eq_some hfind) hat'
  obtain rfl := Option.some.inj (hlast.symm.trans hlast')
  exact ⟨m', hfind, howner⟩

end Lineage

/-! ### Static properties -/

/-- The class has a field, a method or an accessor of the property. -/
def ClassDecl.defines (d : ClassDecl) (k : PropertyKey) : Bool :=
  d.members.toList.any fun m => Inherited.hasHistory m.kind && m.identity.property == k

theorem ClassDecl.defines_iff {d : ClassDecl} {k : PropertyKey} :
    d.defines k = true ↔ d.fills (.field k) = true ∨ d.fills (.prototype k) = true := by
  simp only [defines, fills, List.any_eq_true, Bool.and_eq_true, beq_iff_eq,
    Inherited.hasHistory_iff, Member.isAt_field_iff, Member.isAt_prototype_iff]
  constructor
  · rintro ⟨m, hm, hproto | hfield, hk⟩
    · exact .inr ⟨m, hm, hproto, hk⟩
    · exact .inl ⟨m, hm, hfield, hk⟩
  · rintro (⟨m, hm, hfield, hk⟩ | ⟨m, hm, hproto, hk⟩)
    · exact ⟨m, hm, .inr hfield, hk⟩
    · exact ⟨m, hm, .inl hproto, hk⟩

/-- What a static property is in the end. Fields are initialized after methods and accessors are
defined, so that a field takes the property from them. -/
def Members.staticProperty? (ms : Members) (x : String) : Option Member :=
  (ms.toList.find? (·.isAt (.field ⟨true, .pub, x⟩))).or
    (ms.toList.find? (·.isAt (.prototype ⟨true, .pub, x⟩)))

/-- The static property is what a class made of it. -/
def Members.DeterminedBy (ms : Members) (x : String) (d : ClassDecl) : Prop :=
  ∃ m, ms.staticProperty? x = some m ∧ m.owner = d.name

section Statics

variable {s : Script} {r : Registry} {target x : String} {d e : ClassDecl}

/-- If there is a static field, the last class that has one wins. -/
theorem determinedBy_of_field (hr : s.registry = .ok r)
    (hfield : (r.ancestry target).findRev? (·.fills (.field ⟨true, .pub, x⟩)) = some e) :
    (r.lineage target).members.DeterminedBy x e := by
  obtain ⟨m, hfind, howner⟩ := find?_isAt_eq_some hr hfield
  refine ⟨m, ?_, howner⟩
  rw [Members.staticProperty?, hfind]
  rfl

/-- If there is none, the last class that has a method or an accessor wins. -/
theorem determinedBy_of_prototype (hr : s.registry = .ok r)
    (hfield : (r.ancestry target).findRev? (·.fills (.field ⟨true, .pub, x⟩)) = none)
    (hlast : (r.ancestry target).findRev? (·.fills (.prototype ⟨true, .pub, x⟩)) = some d) :
    (r.lineage target).members.DeterminedBy x d := by
  obtain ⟨m, hfind, howner⟩ := find?_isAt_eq_some hr hlast
  refine ⟨m, ?_, howner⟩
  rw [Members.staticProperty?, find?_isAt_eq_none hr hfield, Option.none_or, hfind]

/-- Only one class determines a static property. -/
theorem Members.DeterminedBy.eq_of_mem {ms : Members} (hd : ms.DeterminedBy x d)
    (he : ms.DeterminedBy x e) (hmem : d ∈ r.ancestry target) (hmem' : e ∈ r.ancestry target) :
    d = e := by
  obtain ⟨m, hm, hdm⟩ := hd
  obtain ⟨m', hm', hem⟩ := he
  obtain rfl := Option.some.inj (hm.symm.trans hm')
  exact List.inj_on_of_nodup_map (r.nodup_ancestry target) hmem hmem' (hdm.symm.trans hem)

/-- **Who determines a static property.** If the chain has a static field of the name, it is the
last class with such a field, and otherwise the last class `d` that has anything of the name. So `d`
has its way just if it has a field itself, or no class has one. -/
theorem determinedBy_iff (hr : s.registry = .ok r)
    (hlast : (r.ancestry target).findRev? (·.defines ⟨true, .pub, x⟩) = some d) :
    (r.lineage target).members.DeterminedBy x
        (((r.ancestry target).findRev? (·.fills (.field ⟨true, .pub, x⟩))).getD d) ∧
      ((r.lineage target).members.DeterminedBy x d ↔
        ((∃ e ∈ r.ancestry target, e.fills (.field ⟨true, .pub, x⟩) = true) →
          d.fills (.field ⟨true, .pub, x⟩) = true)) := by
  obtain ⟨hdefines, -⟩ := findRev?_eq_some_iff_append.1 hlast
  cases hfield : (r.ancestry target).findRev? (·.fills (.field ⟨true, .pub, x⟩)) with
  | none =>
    have hno : ∀ e ∈ r.ancestry target, ¬ e.fills (.field ⟨true, .pub, x⟩) = true := by
      intro e he hfills
      obtain ⟨e', he'⟩ :=
        exists_findRev? (p := fun e : ClassDecl => e.fills (.field ⟨true, .pub, x⟩)) he hfills
      cases hfield.symm.trans he'
    -- without fields, to define the property is to have it on the prototype
    have hproto : d.fills (.prototype ⟨true, .pub, x⟩) = true :=
      (ClassDecl.defines_iff.1 hdefines).resolve_left (hno d (mem_of_findRev? hlast))
    have hwins := determinedBy_of_prototype hr hfield
      (findRev?_of_imp hlast hproto fun b _ hb => ClassDecl.defines_iff.2 (.inr hb))
    exact ⟨hwins, fun _ ⟨e, he, hfills⟩ => absurd hfills (hno e he), fun _ => hwins⟩
  | some e =>
    have hwins := determinedBy_of_field hr hfield
    obtain ⟨hfills, -⟩ := findRev?_eq_some_iff_append.1 hfield
    refine ⟨hwins, fun hd _ => ?_, fun himp => ?_⟩
    · -- `d` wins, and the last class with a field does
      rw [hd.eq_of_mem hwins (mem_of_findRev? hlast) (mem_of_findRev? hfield)]
      exact hfills
    · -- `d` has a field itself, and since nothing after it defines the property, it is the last one
      have hself := himp ⟨e, mem_of_findRev? hfield, hfills⟩
      exact determinedBy_of_field hr
        (findRev?_of_imp hlast hself fun b _ hb => ClassDecl.defines_iff.2 (.inl hb))

end Statics

/-- Three classes that make `x` a static field, a static method and again a static field. -/
def alternatingStatics : Script where
  source := .ofText ("class A\x7bstatic x=1;\x7d" ++ "class B extends A\x7bstatic x()\x7b\x7d\x7d"
    ++ "class C extends B\x7bstatic x=2;\x7d")
  root := .sound (.other "program") none 0 81
    [.shortClass 0 7 20 [] [.shortField .propertyIdentifier 8 15 16 18 [.staticWord 8]],
      .shortClass 20 37 51 [.shortHeritage 28] [.shortMethod 38 45 46 50 [.staticWord 38] []],
      .shortClass 51 68 81 [.shortHeritage 59]
        [.shortField .propertyIdentifier 69 76 77 79 [.staticWord 69]]]

/-- The field of `C` is the last that was made of `x`, and it stays. -/
theorem determinedBy_alternatingStatics : ∃ r d, alternatingStatics.registry = .ok r ∧
    (r.ancestry "C").findRev? (·.defines ⟨true, .pub, "x"⟩) = some d ∧ d.name = "C" ∧
    (r.lineage "C").members.DeterminedBy "x" d := by
  obtain ⟨r, hr, htest⟩ := Script.exists_registry (s := alternatingStatics)
    (p := fun r => ((r.ancestry "C").findRev? (·.defines ⟨true, .pub, "x"⟩)).any
      fun d => d.name == "C" && d.fills (.field ⟨true, .pub, "x"⟩)) (by decide +kernel)
  obtain ⟨d, hlast, hd⟩ := (Option.any_eq_true _ _).1 htest
  obtain ⟨hname, hfills⟩ := Bool.and_eq_true_iff.1 hd
  exact ⟨r, d, hr, hlast, beq_iff_eq.1 hname, (determinedBy_iff hr hlast).2.2 fun _ => hfills⟩

/-- The method of `B` is the last that was made of `x` there, but the field of `A` comes first. -/
theorem not_determinedBy_alternatingStatics : ∃ r d, alternatingStatics.registry = .ok r ∧
    (r.ancestry "B").findRev? (·.defines ⟨true, .pub, "x"⟩) = some d ∧
    ¬ (r.lineage "B").members.DeterminedBy "x" d := by
  obtain ⟨r, hr, htest⟩ := Script.exists_registry (s := alternatingStatics)
    (p := fun r => ((r.ancestry "B").findRev? (·.defines ⟨true, .pub, "x"⟩)).any
      fun d => d.name == "B" &&
        ((r.lineage "B").members.staticProperty? "x").map (·.owner) == some "A") (by decide +kernel)
  obtain ⟨d, hlast, hd⟩ := (Option.any_eq_true _ _).1 htest
  obtain ⟨hname, howner⟩ := Bool.and_eq_true_iff.1 hd
  -- the field of `A` is what is read, and not the method of `B`
  refine ⟨r, d, hr, hlast, fun ⟨m, hm, hdm⟩ => ?_⟩
  rw [hm, Option.map_some, hdm, beq_iff_eq.1 hname] at howner
  exact absurd howner (by decide)

/-! ### Private names -/

/-- Two declarations have the same private name. -/
def Identity.SharesPrivateName (i j : Identity) : Prop :=
  i.visibility = .priv ∧ j.visibility = .priv ∧ i.name = j.name

/-- Two declarations are a getter and a setter of one side, static or not. -/
def Identity.PairsWith (i j : Identity) : Prop :=
  i.isStatic = j.isStatic ∧
    ((i.kind = .getter ∧ j.kind = .setter) ∨ (i.kind = .setter ∧ j.kind = .getter))

instance (i j : Identity) : Decidable (i.SharesPrivateName j) :=
  inferInstanceAs (Decidable (_ ∧ _))

instance (i j : Identity) : Decidable (i.PairsWith j) :=
  inferInstanceAs (Decidable (_ ∧ _))

/-- A class with these declarations has each private name once, save for a getter with its
setter. -/
def PrivateNamesLegal (is : List Identity) : Prop :=
  is.Pairwise fun i j => i.SharesPrivateName j → i.PairsWith j

instance (is : List Identity) : Decidable (PrivateNamesLegal is) :=
  inferInstanceAs (Decidable (is.Pairwise _))

/-- All classes of a chain that have a private name have it at the same place. -/
def AgreeOnPrivateNames (chain : List ClassDecl) : Prop :=
  ∀ d ∈ chain, ∀ e ∈ chain, ∀ m ∈ d.members.toList, ∀ m' ∈ e.members.toList,
    m.identity.SharesPrivateName m'.identity → m.identity.place = m'.identity.place

namespace Identity

variable {i j : Identity}

theorem SharesPrivateName.symm (h : i.SharesPrivateName j) : j.SharesPrivateName i :=
  ⟨h.2.1, h.1, h.2.2.symm⟩

theorem PairsWith.symm (h : i.PairsWith j) : j.PairsWith i :=
  ⟨h.1.symm, h.2.symm.imp And.symm And.symm⟩

/-- A getter and its setter are at one place. -/
theorem PairsWith.place_eq (h : i.PairsWith j) (hshares : i.SharesPrivateName j) :
    i.place = j.place := by
  obtain ⟨hstatic, hkinds⟩ := h
  obtain ⟨hi, hj, hname⟩ := hshares
  have hproperty : i.property = j.property := by
    rw [property, property, hstatic, hi, hj, hname]
  rcases hkinds with ⟨hi, hj⟩ | ⟨hi, hj⟩
  · simp [place, hi, hj, hproperty]
  · simp [place, hi, hj, hproperty]

/-- A place belongs to one property. -/
theorem property_of_place_eq (h : i.place = j.place) : i.property = j.property := by
  unfold place at h
  split at h
  · split at h
    · exact Place.field.inj h
    · cases h
  · split at h
    · cases h
    · exact Place.prototype.inj h

/-- Who stands at the places of two declarations of a private name, has that name. -/
theorem SharesPrivateName.of_place (h : i.SharesPrivateName j) {i' j' : Identity}
    (hi : i'.place = i.place) (hj : j'.place = j.place) : i'.SharesPrivateName j' := by
  obtain ⟨-, hvisibility, hname⟩ := PropertyKey.mk.inj (property_of_place_eq hi)
  obtain ⟨-, hvisibility', hname'⟩ := PropertyKey.mk.inj (property_of_place_eq hj)
  exact ⟨hvisibility.trans h.1, hvisibility'.trans h.2.1, hname.trans (h.2.2.trans hname'.symm)⟩

end Identity

/-- The order of the declarations does not matter. -/
theorem PrivateNamesLegal.pairsWith {is : List Identity} (h : PrivateNamesLegal is) {i j : Identity}
    (hi : i ∈ is) (hj : j ∈ is) (hne : i ≠ j) (hshares : i.SharesPrivateName j) :
    i.PairsWith j := by
  have : Std.Symm fun i j : Identity => i.SharesPrivateName j → i.PairsWith j :=
    ⟨fun i j hij hshares => (hij hshares.symm).symm⟩
  exact List.Pairwise.forall h hi hj hne hshares

/-- Declarations of public names have no part in it. -/
theorem privateNamesLegal_append_iff {is js : List Identity} (hjs : ∀ j ∈ js, j.visibility = .pub) :
    PrivateNamesLegal (is ++ js) ↔ PrivateNamesLegal is := by
  -- a public name is no private one, and so it is shared with none
  have hnot : ∀ i : Identity, ∀ j ∈ js, ¬ i.SharesPrivateName j := by
    intro i j hj hshares
    cases hshares.2.1.symm.trans (hjs j hj)
  refine ⟨fun h => (List.pairwise_append.1 h).1, fun h => List.pairwise_append.2 ⟨h, ?_, ?_⟩⟩
  · exact List.pairwise_of_forall_mem_list fun i _ j hj hshares => absurd hshares (hnot i j hj)
  · exact fun i _ j hj hshares => absurd hshares (hnot i j hj)

theorem Inherited.hasHistory_of_ne {kind : MemberKind} (hctor : kind ≠ .constructor)
    (hblock : kind ≠ .staticBlock) : hasHistory kind = true := by
  cases kind with
  | constructor => exact absurd rfl hctor
  | staticBlock => exact absurd rfl hblock
  | field => rfl
  | method => rfl
  | getter => rfl
  | setter => rfl

/-- Neither constructors nor static blocks are private. -/
theorem Script.Records.hasHistory_of_priv {s : Script} {m : Member} (h : s.Records m)
    (hpriv : m.identity.visibility = .priv) : Inherited.hasHistory m.kind = true := by
  refine Inherited.hasHistory_of_ne (fun hk => ?_) fun hk => ?_
  · -- constructors are public
    have hpub := congrArg PropertyKey.visibility (h.property_constructor hk)
    cases hpriv.symm.trans hpub
  · -- and so are static blocks
    rcases h.identity_cases with hi | ⟨-, hf, -⟩ | ⟨-, n, v, -, -, hi⟩
    · rw [hi] at hpriv
      cases hpriv
    · rw [hf] at hk
      cases hk
    · rw [Member.kind, hi] at hk
      exact methodKind_ne_staticBlock _ _ _ hk

section Private

variable {s : Script} {r : Registry} {target : String}

/-- Among the members in effect an identity comes once. -/
theorem pairwise_identity_lineage (hr : s.registry = .ok r) (target : String) :
    (r.lineage target).members.toList.Pairwise fun a b =>
      a.kind ≠ .staticBlock → a.identity ≠ b.identity := by
  rw [List.pairwise_iff_forall_sublist]
  intro a b hsub hk hident
  have hle := unique_lineage hr target (i := a.identity) hk
  -- two members of one identity would both be counted
  have hboth : [a, b].filter (·.identity = a.identity) = [a, b] := by simp [hident]
  have htwo := (hsub.filter (·.identity = a.identity)).length_le
  rw [hboth, List.length_cons, List.length_singleton] at htwo
  omega

/-- A private member of a class of the chain is succeeded by what is in effect at its place. -/
theorem exists_mem_lineage_of_priv (hr : s.registry = .ok r) {d : ClassDecl}
    (hd : d ∈ r.ancestry target) {m : Member} (hm : m ∈ d.members.toList)
    (hpriv : m.identity.visibility = .priv) :
    ∃ n ∈ (r.lineage target).members.toList, n.identity.place = m.identity.place := by
  have hhistory := ((Script.registers_of_ancestry hr hd).records hm).hasHistory_of_priv hpriv
  have hfills : d.fills m.identity.place = true :=
    ClassDecl.fills_iff.2 ⟨m, hm, Member.isAt_iff.2 ⟨hhistory, rfl⟩⟩
  -- some class fills the place, and the last one that does has its member in effect
  obtain ⟨e, hlast⟩ :=
    exists_findRev? (p := fun e : ClassDecl => e.fills m.identity.place) hd hfills
  obtain ⟨n, hn, hat⟩ := exists_mem_lineage hr hlast
  exact ⟨n, hn, (Member.isAt_iff.1 hat).2⟩

/-- A lineage in which private names are legal has each of them at one place only. -/
theorem agree_of_privateNamesLegal (hr : s.registry = .ok r)
    (h : PrivateNamesLegal (r.lineage target).members.identities) :
    AgreeOnPrivateNames (r.ancestry target) := by
  intro d hd e he m hm m' hm' hshares
  obtain ⟨n, hn, hplace⟩ := exists_mem_lineage_of_priv hr hd hm hshares.1
  obtain ⟨n', hn', hplace'⟩ := exists_mem_lineage_of_priv hr he hm' hshares.2.1
  rw [← hplace, ← hplace']
  -- at two places there would be two members in effect, and legal only as getter and setter
  by_cases hsame : n.identity = n'.identity
  · rw [hsame]
  · have hshares' := hshares.of_place hplace hplace'
    have hpair := h.pairsWith (List.mem_map_of_mem hn) (List.mem_map_of_mem hn') hsame hshares'
    exact hpair.place_eq hshares'

/-- Where the classes of a chain agree, two members in effect with one private name are of one
class. -/
theorem exists_class_of_agree (hr : s.registry = .ok r)
    (hagree : AgreeOnPrivateNames (r.ancestry target)) {a b : Member}
    (ha : a ∈ (r.lineage target).members.toList) (hb : b ∈ (r.lineage target).members.toList)
    (hshares : a.identity.SharesPrivateName b.identity) :
    ∃ d ∈ r.ancestry target, a ∈ d.members.toList ∧ b ∈ d.members.toList := by
  obtain ⟨d, hd, had⟩ := exists_of_mem_lineage hr ha
  obtain ⟨e, he, hbe⟩ := exists_of_mem_lineage hr hb
  have hplace := hagree d hd e he a had b hbe hshares
  have hrec := (Script.registers_of_ancestry hr hd).records had
  have hrec' := (Script.registers_of_ancestry hr he).records hbe
  have hhistory := hrec.hasHistory_of_priv hshares.1
  have hhistory' := hrec'.hasHistory_of_priv hshares.2.1
  -- they are at one place, and what is there comes from the last class that fills it
  obtain ⟨c, hlast, hac, -⟩ := owner_of_isAt hr ha (Member.isAt_iff.2 ⟨hhistory, rfl⟩)
  obtain ⟨c', hlast', hbc, -⟩ := owner_of_isAt hr hb (Member.isAt_iff.2 ⟨hhistory', hplace.symm⟩)
  obtain rfl := Option.some.inj (hlast.symm.trans hlast')
  exact ⟨c, mem_of_findRev? hlast, hac, hbc⟩

/-- **Private names of a lineage.** If each class keeps to the law, the lineage does so exactly if
the classes agree where their private names are. -/
theorem privateNamesLegal_lineage_iff (hr : s.registry = .ok r)
    (hlegal : ∀ d ∈ r.ancestry target, PrivateNamesLegal d.members.identities) :
    PrivateNamesLegal (r.lineage target).members.identities ↔
      AgreeOnPrivateNames (r.ancestry target) := by
  refine ⟨agree_of_privateNamesLegal hr, fun hagree => ?_⟩
  refine List.pairwise_map.2 ((pairwise_identity_lineage hr target).imp_of_mem ?_)
  intro a b ha hb hne hshares
  -- members of one private name come from one class, where they are legal together
  obtain ⟨d, hd, had, hbd⟩ := exists_class_of_agree hr hagree ha hb hshares
  have hhistory := ((Script.registers_of_ancestry hr hd).records had).hasHistory_of_priv hshares.1
  exact (hlegal d hd).pairsWith (List.mem_map_of_mem had) (List.mem_map_of_mem hbd)
    (hne (Inherited.ne_of_hasHistory hhistory).2) hshares

end Private

end Disinherit
