import Disinherit.Proofs.Super.Closure

/-!
# Copies that share a name

Everything that is added to a flattened class, copies of members and methods made of constructors,
is written out under the name of its property and owner. Two of these share a name on one side
exactly if they come from one class and one property (`Outcome.sharesName_iff`). For a getter and a
setter that is as it should be.

It is not so for the rest. Within one class a method does not take its property from a setter, and
reading finds the one where writing finds the other, so that both are copied under one name
(`not_namesApart_setterBesideMethod`). In the same way an accessor called `constructor` meets what
became of the constructor of its class. `pairwise_sharesName` says that there are no other cases. In
particular a getter never meets a method: wherever the getter would be found, the method is found
first (`not_reads_past_method`).
-/

namespace Disinherit

open Progress

/-! ### Names and properties -/

/-- Two excerpts have the same name on the same side, static or not. -/
def Excerpt.SharesName (y z : Excerpt) : Prop :=
  y.member.identity.isStatic = z.member.identity.isStatic ∧ y.rename = z.rename

/-- Two excerpts are cut from one class and belong to one property. -/
def Excerpt.SharesProperty (y z : Excerpt) : Prop :=
  y.member.owner = z.member.owner ∧ y.member.identity.property = z.member.identity.property

/-- One of two excerpts is of one kind, and the other of the other. -/
def Excerpt.AreOf (kind kind' : MemberKind) (y z : Excerpt) : Prop :=
  (y.member.kind = kind ∧ z.member.kind = kind') ∨ (y.member.kind = kind' ∧ z.member.kind = kind)

/-- Nothing that is added to a class shares its name, but for the getter and the setter of one
property of one class. -/
def Resolution.NamesApart (c : Resolution) : Prop :=
  (c.copies ++ c.constructorCopies).Pairwise fun y z =>
    y.SharesName z → y.SharesProperty z ∧ Excerpt.AreOf .getter .setter y z

theorem MemberKind.onPrototype_iff {kind : MemberKind} :
    kind.onPrototype = true ↔ kind = .method ∨ kind = .getter ∨ kind = .setter := by
  cases kind <;> decide

section Lineage

variable {s : Script} {r : Registry} {target : String} {p : Progress} {names : List String}
  {c : Resolution} {y z : Excerpt}

/-- Names are shared exactly where properties are. -/
theorem Outcome.sharesName_iff (hr : s.registry = .ok r)
    (h : Outcome s (r.lineage target) p names c) (hy : y ∈ c.copies ++ c.constructorCopies)
    (hz : z ∈ c.copies ++ c.constructorCopies) : y.SharesName z ↔ y.SharesProperty z := by
  obtain ⟨name, hname, hget⟩ := h.granted_of_mem hr hy
  obtain ⟨name', hname', hget'⟩ := h.granted_of_mem hr hz
  constructor
  · -- on one side no name is granted to two properties
    intro ⟨hside, hsame⟩
    rw [hname, hname'] at hsame
    obtain rfl := Option.some.inj hsame
    exact Prod.mk.inj (h.valid.names.injective _ _ _ hget hget' hside)
  · -- and one property of a class is granted one name
    intro ⟨howner, hproperty⟩
    rw [howner, hproperty, hget'] at hget
    obtain rfl := Option.some.inj hget
    exact ⟨congrArg PropertyKey.isStatic hproperty, hname.trans hname'.symm⟩

/-! ### Which kinds meet -/

/-- What leads to a getter has looked for a method before, and found none. -/
theorem Lineage.nearestAbove?_method_eq_none {l : Lineage} {name : String} {use : SuperUse}
    {isStatic : Bool} {owner : String} {entry : Member}
    (hident : ∀ kind, kind.onPrototype = true →
      l.nearestAbove? ⟨isStatic, kind, .pub, name⟩ owner = some entry →
      entry.identity = ⟨isStatic, kind, .pub, name⟩)
    (h : l.referent? name use isStatic owner = some entry) (hk : entry.kind = .getter) :
    entry.identity = ⟨isStatic, .getter, .pub, name⟩ ∧
      l.nearestAbove? ⟨isStatic, .method, .pub, name⟩ owner = none := by
  unfold Lineage.referent? at h
  split at h
  · -- writing looks for a setter
    rw [Member.kind, hident .setter rfl h] at hk
    cases hk
  · rcases Option.or_eq_some_iff.1 h with h | ⟨hnone, h⟩
    · -- a method would have been taken before any getter
      rw [Member.kind, hident .method rfl h] at hk
      cases hk
    · exact ⟨hident .getter rfl h, hnone⟩

/-- A getter is not reached where its class has a method of the property: the method is found
first. -/
theorem not_reads_past_method (hr : s.registry = .ok r) {m : Member} {ref : SuperReference}
    {getter method : Member} (h : (r.lineage target).verdict m ref = .copy getter)
    (hgetter : getter.kind = .getter) (hmethod : method.kind = .method)
    (howner : method.owner = getter.owner)
    (hdeclared : ∃ d ∈ r.ancestry target, method ∈ d.members.toList) :
    method.identity.property ≠ getter.identity.property := by
  intro hproperty
  obtain ⟨d, hd, hmem⟩ := hdeclared
  obtain ⟨-, -, -, hbefore⟩ := verdict_eq_copy hr h
  obtain ⟨name, -, hreferent⟩ := Lineage.referent?_of_verdict h
  obtain ⟨hident, hnone⟩ := Lineage.nearestAbove?_method_eq_none
    (fun kind hk hfound =>
      (nearestAbove?_eq_some hr (Inherited.hasHistory_of_onPrototype hk) hfound).2.1)
    hreferent hgetter
  -- the method has the identity that was looked for, in a class nearer to the base
  have hsame : method.identity = ⟨m.identity.isStatic, .method, .pub, name⟩ :=
    Identity.eq_of_property hmethod (hproperty.trans (by rw [hident]; rfl))
  refine nearestAbove?_ne_none hr hd hmem ?_ (howner ▸ hbefore) (hsame ▸ hnone)
  rw [hsame]
  rfl

/-- Two copies of one property of one class: a setter with a getter, or else with a method. -/
theorem Outcome.kinds_of_copies (hr : s.registry = .ok r)
    (h : Outcome s (r.lineage target) p names c) (hy : y ∈ c.copies) (hz : z ∈ c.copies)
    (hne : ¬ (y.member.owner = z.member.owner ∧ y.member.identity = z.member.identity))
    (hshares : y.SharesProperty z) :
    Excerpt.AreOf .getter .setter y z ∨ Excerpt.AreOf .method .setter y z := by
  obtain ⟨howner, hproperty⟩ := hshares
  rw [h.copies] at hy hz
  obtain ⟨my, ry, hvy⟩ := h.valid.reached y hy
  obtain ⟨mz, rz, hvz⟩ := h.valid.reached z hz
  obtain ⟨hdy, hky, -⟩ := verdict_eq_copy hr hvy
  obtain ⟨hdz, hkz, -⟩ := verdict_eq_copy hr hvz
  -- with the property the kinds would give the identities
  have hkinds : y.member.kind ≠ z.member.kind := by
    intro hkind
    exact hne ⟨howner, Identity.eq_of_property hkind hproperty⟩
  -- of the nine pairs, those of equal kinds are out, and so are a getter and a method
  rcases MemberKind.onPrototype_iff.1 hky with hy' | hy' | hy' <;>
    rcases MemberKind.onPrototype_iff.1 hkz with hz' | hz' | hz'
  · exact absurd (hy'.trans hz'.symm) hkinds
  · exact absurd hproperty (not_reads_past_method hr hvz hz' hy' howner hdy)
  · exact .inr (.inl ⟨hy', hz'⟩)
  · exact absurd hproperty.symm (not_reads_past_method hr hvy hy' hz' howner.symm hdz)
  · exact absurd (hy'.trans hz'.symm) hkinds
  · exact .inl (.inl ⟨hy', hz'⟩)
  · exact .inr (.inr ⟨hy', hz'⟩)
  · exact .inl (.inr ⟨hy', hz'⟩)
  · exact absurd (hy'.trans hz'.symm) hkinds

/-- A class has one constructor at most. -/
theorem pairwise_owner_constructors (hr : s.registry = .ok r) (target : String) :
    (r.lineage target).constructors.Pairwise fun m m' => m.owner ≠ m'.owner := by
  rw [constructors_lineage hr, List.pairwise_filterMap]
  refine (List.pairwise_map.1 (r.nodup_ancestry target)).imp_of_mem ?_
  -- a class has one constructor at most, and the classes have different names
  intro d d' hd hd' hne m hm m' hm'
  rw [(Script.registers_of_ancestry hr hd).owner_eq (Members.mem_toList.2 (.inr hm)),
    (Script.registers_of_ancestry hr hd').owner_eq (Members.mem_toList.2 (.inr hm'))]
  exact hne

theorem Outcome.pairwise_constructorCopies (hr : s.registry = .ok r)
    (h : Outcome s (r.lineage target) p names c) :
    c.constructorCopies.Pairwise fun y z => y.member.owner ≠ z.member.owner := by
  -- one excerpt for each constructor, in the order of the chain
  have hchain : (c.constructorCopies.map (·.member)).Sublist (r.lineage target).constructors := by
    rw [h.constructorCopies, List.map_dropLast, h.map_member_chain]
    exact List.dropLast_sublist _
  have hapart := (pairwise_owner_constructors hr target).sublist hchain
  rw [List.pairwise_map] at hapart
  exact hapart

/-- A copy that meets the constructor of its class: an accessor of that name, or a method whose name
is neither an identifier nor a string. -/
theorem Outcome.kind_of_constructorCopy (hr : s.registry = .ok r)
    (h : Outcome s (r.lineage target) p names c) (hy : y ∈ c.copies) (hz : z ∈ c.constructorCopies)
    (hshares : y.SharesProperty z) :
    Excerpt.AreOf .getter .constructor y z ∨ Excerpt.AreOf .setter .constructor y z ∨
      (Excerpt.AreOf .method .constructor y z ∧
        ∀ n ∈ y.member.nameNode?, n.kind ≠ .propertyIdentifier ∧ n.kind ≠ .stringLiteral) := by
  obtain ⟨hrec, hk⟩ := reached_declared hr h.valid (h.copies ▸ hy)
  obtain ⟨hrec', hk', -⟩ := constructor_declared hr (h.constructorCopy hz).1
  rcases MemberKind.onPrototype_iff.1 hk with hmethod | hgetter | hsetter
  · -- a method of this property is no constructor only because of how its name is written
    refine .inr (.inr ⟨.inl ⟨hmethod, hk'⟩, fun n hn => ?_⟩)
    exact hrec.nameNode_method hmethod (hshares.2.trans (hrec'.property_constructor hk')) hn
  · exact .inl (.inl ⟨hgetter, hk'⟩)
  · exact .inr (.inl (.inl ⟨hsetter, hk'⟩))

/-- **Which names are shared.** Two things that are added to a class share a name just if they come
from one class and one property. Then they are a setter with a getter or with a method, or an
accessor and the constructor; a method meets the constructor only if it is not spelled like one. -/
theorem pairwise_sharesName (hr : s.registry = .ok r) (target : String) :
    ((s.resolve (r.lineage target)).copies
      ++ (s.resolve (r.lineage target)).constructorCopies).Pairwise
      fun y z =>
        (y.SharesName z ↔ y.SharesProperty z) ∧
        (y.SharesName z →
          Excerpt.AreOf .getter .setter y z ∨ Excerpt.AreOf .method .setter y z ∨
          Excerpt.AreOf .getter .constructor y z ∨ Excerpt.AreOf .setter .constructor y z ∨
          (Excerpt.AreOf .method .constructor y z ∧
            ∀ n ∈ y.member.nameNode?, n.kind ≠ .propertyIdentifier ∧ n.kind ≠ .stringLiteral)) := by
  cases hactive : (r.lineage target).isActive with
  | false =>
    obtain ⟨hcopies, hconstructors, -⟩ := resolve_of_not_isActive (s := s) hactive
    rw [hcopies, hconstructors]
    exact .nil
  | true =>
    obtain ⟨p, names, h⟩ := exists_outcome s hactive
    generalize s.resolve (r.lineage target) = c at h ⊢
    refine List.pairwise_append.2 ⟨?_, ?_, ?_⟩
    · -- two copies
      refine h.pairwise_copies.imp_of_mem fun {y z} hy hz hne => ?_
      have hiff := h.sharesName_iff hr (List.mem_append_left _ hy) (List.mem_append_left _ hz)
      refine ⟨hiff, fun hname => ?_⟩
      rcases h.kinds_of_copies hr hy hz hne (hiff.1 hname) with hkinds | hkinds
      · exact .inl hkinds
      · exact .inr (.inl hkinds)
    · -- two constructors belong to different classes
      refine (h.pairwise_constructorCopies hr).imp_of_mem fun {y z} hy hz hne => ?_
      have hiff := h.sharesName_iff hr (List.mem_append_right _ hy) (List.mem_append_right _ hz)
      exact ⟨hiff, fun hname => absurd (hiff.1 hname).1 hne⟩
    · -- a copy and a constructor
      intro y hy z hz
      have hiff := h.sharesName_iff hr (List.mem_append_left _ hy) (List.mem_append_right _ hz)
      refine ⟨hiff, fun hname => ?_⟩
      exact .inr (.inr (h.kind_of_constructorCopy hr hy hz (hiff.1 hname)))

end Lineage

/-! ### A setter beside a method -/

/-- The statement `super.x=1` for a name of one letter. -/
def Node.shortAssignment (start : Nat) : Node :=
  .sound .expressionStatement none start (start + 9)
    [.sound .assignment none start (start + 9)
      [.sound .memberExpression (some .left) start (start + 7)
        [.sound .superKeyword (some .object) start (start + 5) [],
          .sound .propertyIdentifier (some .property) (start + 6) (start + 7) []],
        .sound (.other "number") (some (.other "right")) (start + 8) (start + 9) []]]

/-- A class `A` with a method `m` and after it a setter of that name, and a class `B` that extends
it, whose method `f` reads `super.m` and writes to it. -/
def setterBesideMethod : Script where
  source := .ofText ("class A\x7bm()\x7b\x7dset m(v)\x7b\x7d\x7d"
    ++ "class B extends A\x7bf()\x7bsuper.m;super.m=1\x7d\x7d")
  root := .sound (.other "program") none 0 65
    [.shortClass 0 7 24 []
      [.shortMethod 8 8 9 13 [] [],
        .sound .methodDefinition (some (.other "member")) 13 23
          [⟨.setToken, none, false, false, false, 13, 16, []⟩,
            .sound .propertyIdentifier (some .name) 17 18 [],
            .sound (.other "formal_parameters") (some (.other "parameters")) 18 21
              [.sound .identifier none 19 20 []],
            .sound (.other "statement_block") (some .body) 21 23 []]],
      .shortClass 24 41 65 [.shortHeritage 32]
        [.shortMethod 42 42 43 64 [] [.shortSuper 46, .shortAssignment 54]]]

/-- What is added to `B`: the method and the setter of `A`, both as `_super_A_m`. -/
theorem sharesName_setterBesideMethod : ∃ r, setterBesideMethod.registry = .ok r ∧
    (setterBesideMethod.resolve (r.lineage "B")).copies.map
        (fun y => (y.member.owner, y.member.kind, y.rename))
      = [("A", .method, some "_super_A_m"), ("A", .setter, some "_super_A_m")] ∧
    ((setterBesideMethod.resolve (r.lineage "B")).copies
      ++ (setterBesideMethod.resolve (r.lineage "B")).constructorCopies).Pairwise fun y z =>
        y.SharesName z ↔ y.SharesProperty z := by
  obtain ⟨r, hr, htest⟩ := Script.exists_registry (s := setterBesideMethod)
    (p := fun r => (setterBesideMethod.resolve (r.lineage "B")).copies.map
        (fun y => (y.member.owner, y.member.kind, y.rename))
      == [("A", .method, some "_super_A_m"), ("A", .setter, some "_super_A_m")]) (by decide +kernel)
  exact ⟨r, hr, beq_iff_eq.1 htest, (pairwise_sharesName hr "B").imp fun h => h.1⟩

/-- The method of `A` shares its name with the setter. -/
theorem not_namesApart_setterBesideMethod : ∃ r, setterBesideMethod.registry = .ok r ∧
    ¬ (setterBesideMethod.resolve (r.lineage "B")).NamesApart := by
  obtain ⟨r, hr, htest⟩ := Script.exists_registry (s := setterBesideMethod)
    (p := fun r =>
      (setterBesideMethod.resolve (r.lineage "B")).copies.map
        (fun y => (y.member.identity.isStatic, y.member.kind, y.rename))
      == [(false, .method, some "_super_A_m"), (false, .setter, some "_super_A_m")])
    (by decide +kernel)
  refine ⟨r, hr, fun hapart => ?_⟩
  have hcopies := beq_iff_eq.1 htest
  have hpairs := (List.pairwise_append.1 hapart).1
  generalize (setterBesideMethod.resolve (r.lineage "B")).copies = copies at hcopies hpairs
  obtain ⟨y, rest, rfl, hy, hrest⟩ := List.map_eq_cons_iff.1 hcopies
  obtain ⟨z, rest, rfl, hz, -⟩ := List.map_eq_cons_iff.1 hrest
  obtain ⟨hside, hkind, hname⟩ : _ ∧ _ ∧ _ := by simpa using hy
  obtain ⟨hside', hkind', hname'⟩ : _ ∧ _ ∧ _ := by simpa using hz
  obtain ⟨-, hkinds⟩ := (List.pairwise_cons.1 hpairs).1 z List.mem_cons_self
    ⟨hside.trans hside'.symm, hname.trans hname'.symm⟩
  -- a method is neither a getter nor a setter
  rcases hkinds with ⟨hgetter, -⟩ | ⟨hsetter, -⟩
  · exact absurd (hkind.symm.trans hgetter) (by decide)
  · exact absurd (hkind.symm.trans hsetter) (by decide)

end Disinherit
