import Disinherit.Proofs.Lineage.Coexistence
import Disinherit.Proofs.Members.Stations
import Disinherit.Proofs.Super.Chain

/-!
# The class that is written out

A flattened class is written out as its members in effect, category by category, then the copies in
the order in which references led to them, and then the methods that were made of constructors
(`Resolution.Shows.written_eq`). `Excerpt.asWritten` is what each of these is in the new class.

If that class is read and listed once more, only the categories count, and a copy goes to the end of
its own. For methods of the instances that is where it was. A copy of an accessor or of a static
method was written after all the methods and is moved up before them (`not_stable_copiedGetter`).
`relisted_resolve` says exactly when the order is kept, and that it is so from the second time on.
The order of writing is that of the `stations`, and the argument is about lists that are put in
groups: such a list stays as it is just if its keys are in order (`flatMap_filter_eq_self_iff`).

Copies are public. So they have no part in whether the private names of the new class are legal,
which is decided by the classes of the chain (`privateNamesLegal_iff`).
-/

namespace Disinherit

open Progress

/-! ### Excerpts as members -/

/-- An excerpt as a member of the class that is written out. It has its new name, and what became of
a constructor is a method. -/
def Excerpt.asWritten (x : Excerpt) : Member :=
  { x.member with
    identity := { x.member.identity with
      kind := if x.rename.isSome ∧ x.member.kind = .constructor then .method else x.member.kind
      name := x.rename.getD x.member.name } }

namespace Resolution

/-- The members of the class that is written out, in the order in which they are. -/
def written (c : Resolution) : List Member :=
  c.excerpts.map Excerpt.asWritten

/-- What is added to the members in effect: copies, and the methods that were made of
constructors. -/
def added (c : Resolution) : List Excerpt :=
  c.copies ++ c.constructorCopies

end Resolution

theorem Excerpt.asWritten_of_none {x : Excerpt} (h : x.rename = none) : x.asWritten = x.member := by
  unfold asWritten
  rw [h]
  rfl

/-- What a new name leaves as it is. -/
theorem Excerpt.asWritten_of_ne {x : Excerpt} (h : x.member.kind ≠ .constructor) :
    x.asWritten.kind = x.member.kind ∧ x.asWritten.station = x.member.station := by
  have hkind : x.asWritten.identity.kind = x.member.kind := if_neg fun hboth => h hboth.2
  refine ⟨hkind, ?_⟩
  unfold Member.station
  rw [show x.asWritten.kind = x.member.kind from hkind, if_neg h, if_neg h, Option.some.injEq]
  unfold Identity.category
  rw [hkind]
  rfl

/-- A resolved class shows members as they are: without a new name, the constructor in its place. -/
structure Resolution.Shows (c : Resolution) (ms : Members) : Prop where
  members : c.members.map (fun x => (x.member, x.rename)) = ms.toList.map fun m => (m, none)
  constructor : c.constructor.map (fun x => (x.member, x.rename)) = ms.constructor.map fun m =>
    (m, none)

section Lineage

variable {s : Script} {r : Registry} {target : String} {p : Progress} {names : List String}
  {c : Resolution}

/-- The constructor in effect keeps its name. -/
theorem Outcome.constructor_eq (h : Outcome s (r.lineage target) p names c) :
    c.constructor.map (fun x => (x.member, x.rename))
      = (r.lineage target).members.constructor.map fun m => (m, none) := by
  have hmember := h.map_member_constructor
  have hentry : c.constructor.map (fun x => (x.member, x.rename))
      = ((r.lineage target).constructors.zip (names.map some ++ [none])).getLast? := by
    rw [h.constructor, ← List.getLast?_map, map_chainExcerpts]
  -- the last constructor of the chain is the one without a new name
  rcases h.zip_names with hnil | ⟨last, hzip⟩
  · rw [hnil] at hentry
    rw [← hmember, Option.map_eq_none_iff.1 hentry]
    rfl
  · rw [hzip, List.getLast?_concat] at hentry
    obtain ⟨x, hx, hlast⟩ := Option.map_eq_some_iff.1 hentry
    rw [← hmember, hx, Option.map_some, Option.map_some, Option.map_some, (Prod.mk.inj hlast).2]

theorem shows_resolve (s : Script) (r : Registry) (target : String) :
    (s.resolve (r.lineage target)).Shows (r.lineage target).members := by
  cases hactive : (r.lineage target).isActive with
  | true =>
    obtain ⟨p, names, h⟩ := exists_outcome s hactive
    refine ⟨?_, h.constructor_eq⟩
    rw [h.members, List.map_map]
    rfl
  | false =>
    -- a class of its own shows its members as they are
    rw [Script.resolve, hactive]
    refine ⟨?_, ?_⟩
    · simp
    · cases (r.lineage target).members.constructor <;> rfl

namespace Resolution.Shows

variable {ms : Members}

theorem rename_eq_none (h : c.Shows ms) {x : Excerpt} (hx : x ∈ c.members) : x.rename = none := by
  have hmem : (x.member, x.rename) ∈ ms.toList.map fun m => (m, (none : Option String)) := by
    rw [← h.members]
    exact List.mem_map_of_mem (f := fun x : Excerpt => (x.member, x.rename)) hx
  obtain ⟨m, -, hm⟩ := List.mem_map.1 hmem
  exact (Prod.mk.inj hm).2.symm

theorem map_member (h : c.Shows ms) : c.members.map (·.member) = ms.toList := by
  have hfirst := congrArg (List.map Prod.fst) h.members
  rw [List.map_map, List.map_map] at hfirst
  exact hfirst.trans (List.map_id _)

theorem map_constructor (h : c.Shows ms) :
    c.constructor.toList.map Excerpt.asWritten = ms.constructor.toList := by
  have hctor := h.constructor
  cases hc : c.constructor with
  | none =>
    rw [hc] at hctor
    rw [Option.map_eq_none_iff.1 hctor.symm]
    rfl
  | some x =>
    rw [hc] at hctor
    obtain ⟨m, hm, hpair⟩ := Option.map_eq_some_iff.1 hctor.symm
    obtain ⟨rfl, hrename⟩ := Prod.mk.inj hpair
    rw [hm, Option.toList_some, List.map_singleton, Excerpt.asWritten_of_none hrename.symm,
      Option.toList_some]

/-- What is shown is written out in the order of writing. -/
theorem map_asWritten (h : c.Shows ms) (hms : ms.Filed) :
    (c.members.flatMap fun x =>
      if x.member.kind = .constructor then c.constructor.toList else [x]).map Excerpt.asWritten
      = ms.toList := by
  calc (c.members.flatMap fun x =>
        if x.member.kind = .constructor then c.constructor.toList else [x]).map Excerpt.asWritten
      = c.members.flatMap fun x =>
          (if x.member.kind = .constructor then c.constructor.toList else [x]).map
            Excerpt.asWritten :=
        List.map_flatMap
    _ = c.members.flatMap fun x => [x.member] := by
        refine List.flatMap_congr fun x hx => ?_
        split
        · -- the place of the constructor is there only if there is a constructor to fill it
          next hk =>
          have hmem : x.member ∈ ms.toList := h.map_member ▸ List.mem_map_of_mem hx
          rw [hms.mem_toList, if_pos hk] at hmem
          rw [h.map_constructor, Option.mem_def.1 hmem, Option.toList_some]
        · rw [List.map_singleton, Excerpt.asWritten_of_none (h.rename_eq_none hx)]
    _ = c.members.map (·.member) := List.map_eq_flatMap.symm
    _ = ms.toList := h.map_member

/-- A class consists of the members in effect and what is added to them. -/
theorem written_eq (h : c.Shows ms) (hms : ms.Filed) :
    c.written = ms.toList ++ c.added.map Excerpt.asWritten := by
  rw [Resolution.written, Resolution.excerpts, List.append_assoc, List.map_append,
    h.map_asWritten hms]
  rfl

end Resolution.Shows

/-! ### What is added to a class -/

variable {y : Excerpt}

/-- Something is added only where references were resolved. -/
theorem exists_outcome_of_added {l : Lineage} (hy : y ∈ (s.resolve l).added) :
    ∃ p names, Outcome s l p names (s.resolve l) := by
  cases hactive : l.isActive with
  | true => exact exists_outcome s hactive
  | false =>
    obtain ⟨hcopies, hconstructors, -⟩ := resolve_of_not_isActive (s := s) hactive
    rw [Resolution.added, hcopies, hconstructors] at hy
    cases hy

/-- A copy is of a public method or accessor, since no reference reaches anything else. -/
theorem identity_of_mem_copies (hr : s.registry = .ok r)
    (hy : y ∈ (s.resolve (r.lineage target)).copies) :
    y.member.kind.onPrototype = true ∧ y.member.identity.visibility = .pub := by
  obtain ⟨p, names, h⟩ := exists_outcome_of_added (List.mem_append_left _ hy)
  rw [h.copies] at hy
  -- a copy is there because a reference leads to it, and references name public members
  obtain ⟨m, ref, hverdict⟩ := h.valid.reached y hy
  obtain ⟨name, kind, hk, hfound⟩ := Lineage.nearestAbove?_of_verdict hverdict
  obtain ⟨-, hident, -⟩ := nearestAbove?_eq_some hr (Inherited.hasHistory_of_onPrototype hk) hfound
  rw [Member.kind, hident]
  exact ⟨hk, rfl⟩

/-- What became of a constructor is a public method of the instances. -/
theorem identity_of_mem_constructorCopies (hr : s.registry = .ok r)
    (hy : y ∈ (s.resolve (r.lineage target)).constructorCopies) :
    ∃ name, y.asWritten.identity = ⟨false, .method, .pub, name⟩ := by
  obtain ⟨p, names, h⟩ := exists_outcome_of_added (List.mem_append_right _ hy)
  obtain ⟨hmem, name, hrename, -⟩ := h.constructorCopy hy
  obtain ⟨hrec, hk, -⟩ := constructor_declared hr hmem
  obtain ⟨hstatic, hvisibility, -⟩ := PropertyKey.mk.inj (hrec.property_constructor hk)
  -- with a new name, a constructor is an ordinary method
  refine ⟨name, ?_⟩
  rw [Excerpt.asWritten, Identity.mk.injEq, hrename]
  exact ⟨hstatic, if_pos ⟨rfl, hk⟩, hvisibility, rfl⟩

/-- Whatever is added to a class is written out as a public method or accessor. -/
theorem asWritten_of_added (hr : s.registry = .ok r)
    (hy : y ∈ (s.resolve (r.lineage target)).added) :
    y.asWritten.kind.onPrototype = true ∧ y.asWritten.identity.visibility = .pub := by
  rcases List.mem_append.1 hy with hy | hy
  · obtain ⟨hk, hvisibility⟩ := identity_of_mem_copies hr hy
    rw [(Excerpt.asWritten_of_ne (MemberKind.ne_constructor_of_onPrototype hk)).1]
    exact ⟨hk, hvisibility⟩
  · obtain ⟨name, hident⟩ := identity_of_mem_constructorCopies hr hy
    rw [Member.kind, hident]
    exact ⟨rfl, rfl⟩

/-- A class is written out with the constructor in effect and no other. -/
theorem filter_constructor_written (hr : s.registry = .ok r) (target : String) :
    (s.resolve (r.lineage target)).written.filter (·.kind = .constructor)
      = (r.lineage target).members.constructor.toList := by
  -- whatever was added is written on the prototype
  have hadded : ((s.resolve (r.lineage target)).added.map Excerpt.asWritten).filter
      (·.kind = .constructor) = [] := by
    refine List.filter_eq_nil_iff.2 fun m hm hk => ?_
    obtain ⟨y, hy, rfl⟩ := List.mem_map.1 hm
    exact MemberKind.ne_constructor_of_onPrototype (asWritten_of_added hr hy).1
      (of_decide_eq_true hk)
  rw [(shows_resolve s r target).written_eq (filed_lineage hr target), List.filter_append, hadded,
    List.append_nil, (filed_lineage hr target).filter_constructor]

/-! ### Listing a class again -/

/-- No member is written out after the public methods of the instances. -/
theorem Member.turn_le_of_publicMethod {m m' : Member} (h : m'.station = some .publicMethod) :
    m.turn ≤ m'.turn := by
  rw [turn, turn, h]
  generalize m.station = k
  cases k with
  | none => decide
  | some c => cases c <;> decide

theorem turn_of_mem_copies (hr : s.registry = .ok r)
    (hy : y ∈ (s.resolve (r.lineage target)).copies) : y.asWritten.turn = y.member.turn := by
  have hk := MemberKind.ne_constructor_of_onPrototype (identity_of_mem_copies hr hy).1
  exact congrArg stations.idxOf (Excerpt.asWritten_of_ne hk).2

theorem station_of_mem_constructorCopies (hr : s.registry = .ok r)
    (hy : y ∈ (s.resolve (r.lineage target)).constructorCopies) :
    y.asWritten.station = some .publicMethod := by
  obtain ⟨name, hident⟩ := identity_of_mem_constructorCopies hr hy
  rw [Member.station, Member.kind, hident]
  rfl

/-- What comes of a class when its members are listed again as they are written out. -/
structure Relisted (l : Lineage) (c : Resolution) : Prop where
  /-- Nothing is lost: a category has its members in effect, and after them what was added. -/
  inCategory : ∀ cat, (Members.ofList c.written).inCategory cat
    = l.members.inCategory cat ++ (c.added.map Excerpt.asWritten).filter (Members.fits cat)
  constructor : (Members.ofList c.written).constructor = l.members.constructor
  /-- The order is kept just if nothing has to be moved up. -/
  stable_iff : (Members.ofList c.written).toList = c.written ↔
    (∀ m ∈ l.members.toList, ∀ y ∈ c.copies, m.turn ≤ y.member.turn) ∧
      c.copies.Pairwise fun y z => y.member.turn ≤ z.member.turn
  /-- So it is if all copies are of methods of the instances. -/
  stable : (∀ y ∈ c.copies, y.member.kind = .method ∧ y.member.identity.isStatic = false) →
    (Members.ofList c.written).toList = c.written
  /-- In any case the order is kept from then on. -/
  settled : (Members.ofList (Members.ofList c.written).toList).toList
    = (Members.ofList c.written).toList

/-- A class is written out in order just if no copy belongs before a member in effect or an earlier
copy. -/
theorem pairwise_turn_written_iff (hr : s.registry = .ok r) (target : String) :
    ((s.resolve (r.lineage target)).written.Pairwise fun a b => a.turn ≤ b.turn) ↔
      (∀ m ∈ (r.lineage target).members.toList, ∀ y ∈ (s.resolve (r.lineage target)).copies,
        m.turn ≤ y.member.turn) ∧
      (s.resolve (r.lineage target)).copies.Pairwise fun y z => y.member.turn ≤ z.member.turn := by
  have hfiled := filed_lineage hr target
  -- what became of constructors comes last wherever it stands
  have hlast : ∀ m : Member, ∀ z ∈ (s.resolve (r.lineage target)).constructorCopies,
      m.turn ≤ z.asWritten.turn := by
    intro m z hz
    exact Member.turn_le_of_publicMethod (station_of_mem_constructorCopies hr hz)
  have hturn : ∀ y ∈ (s.resolve (r.lineage target)).copies, y.asWritten.turn = y.member.turn := by
    intro y hy
    exact turn_of_mem_copies hr hy
  rw [(shows_resolve s r target).written_eq hfiled, List.pairwise_append, List.pairwise_map,
    Resolution.added, List.pairwise_append]
  generalize s.resolve (r.lineage target) = c at hlast hturn ⊢
  constructor
  · -- from the written members to the copies as they were declared
    rintro ⟨-, ⟨hcopies, -, -⟩, hbefore⟩
    constructor
    · intro m hm y hy
      rw [← hturn y hy]
      exact hbefore m hm _ (List.mem_map_of_mem (List.mem_append_left _ hy))
    · refine hcopies.imp_of_mem fun {y z} hy hz hle => ?_
      rw [← hturn y hy, ← hturn z hz]
      exact hle
  · -- and back, where the copies of constructors have to be put in
    rintro ⟨hbefore, hcopies⟩
    refine ⟨hfiled.pairwise_turn, ⟨?_, ?_, fun y _ z hz => hlast _ z hz⟩, ?_⟩
    · refine hcopies.imp_of_mem fun {y z} hy hz hle => ?_
      rw [hturn y hy, hturn z hz]
      exact hle
    · exact List.pairwise_of_forall_mem_list fun y _ z hz => hlast _ z hz
    · intro m hm m' hm'
      obtain ⟨y, hy, rfl⟩ := List.mem_map.1 hm'
      rcases List.mem_append.1 hy with hy | hy
      · rw [hturn y hy]
        exact hbefore m hm y hy
      · exact hlast m y hy

/-- **Listing a class again** moves copies of accessors and of static methods up to where their
category is, and nothing else. -/
theorem relisted_resolve (hr : s.registry = .ok r) (target : String) :
    Relisted (r.lineage target) (s.resolve (r.lineage target)) := by
  have hfiled := filed_lineage hr target
  have hctor := filter_constructor_written hr target
  have hstable := (Members.toList_ofList_eq_self_iff hctor).trans
    (pairwise_turn_written_iff hr target)
  constructor
  case inCategory =>
    intro cat
    rw [Members.inCategory_ofList, (shows_resolve s r target).written_eq hfiled, List.filter_append,
      hfiled.filter_fits]
  case constructor =>
    rw [Members.constructor_ofList, hctor]
    cases (r.lineage target).members.constructor <;> rfl
  case stable_iff => exact hstable
  case stable =>
    intro hmethods
    -- public methods of instances come in the last turn
    have hlast : ∀ m : Member, ∀ y ∈ (s.resolve (r.lineage target)).copies,
        m.turn ≤ y.member.turn := by
      intro m y hy
      obtain ⟨hk, hstatic⟩ := hmethods y hy
      have hvisibility := (identity_of_mem_copies hr hy).2
      refine Member.turn_le_of_publicMethod ?_
      rw [Member.kind] at hk
      simp [Member.station, Member.kind, Identity.category, hk, hstatic, hvisibility]
    exact hstable.2
      ⟨fun m _ => hlast m, List.pairwise_of_forall_mem_list fun y _ z hz => hlast _ z hz⟩
  case settled => exact (Members.filed_ofList _).toList_ofList

end Lineage

/-- Of two methods and two constructors nothing is moved when the class `B` is listed again. -/
theorem relisted_pairedConstructors : ∃ r, pairedConstructors.registry = .ok r ∧
    (pairedConstructors.resolve (r.lineage "B")).written.map (·.name)
      = ["constructor", "m", "_super_A_m", "_super_A_constructor"] ∧
    Relisted (r.lineage "B") (pairedConstructors.resolve (r.lineage "B")) ∧
    (Members.ofList (pairedConstructors.resolve (r.lineage "B")).written).toList
      = (pairedConstructors.resolve (r.lineage "B")).written := by
  obtain ⟨r, hr, htest⟩ := Script.exists_registry (s := pairedConstructors)
    (p := fun r =>
      (pairedConstructors.resolve (r.lineage "B")).written.map (·.name)
        == ["constructor", "m", "_super_A_m", "_super_A_constructor"] &&
      (pairedConstructors.resolve (r.lineage "B")).copies.all
        fun y => y.member.kind == .method && y.member.identity.isStatic == false)
    (by decide +kernel)
  obtain ⟨hnames, hcopies⟩ := Bool.and_eq_true_iff.1 htest
  have hmethods : ∀ y ∈ (pairedConstructors.resolve (r.lineage "B")).copies,
      y.member.kind = .method ∧ y.member.identity.isStatic = false := by
    intro y hy
    obtain ⟨hk, hstatic⟩ := Bool.and_eq_true_iff.1 (List.all_eq_true.1 hcopies y hy)
    exact ⟨beq_iff_eq.1 hk, beq_iff_eq.1 hstatic⟩
  exact ⟨r, hr, beq_iff_eq.1 hnames, relisted_resolve hr "B",
    (relisted_resolve hr "B").stable hmethods⟩

/-- A class `A` with a getter `m`, and a class `B` that extends it, whose method `f` reads
`super.m`. -/
def copiedGetter : Script where
  source :=
    .ofText ("class A\x7bget m()\x7b\x7d\x7d" ++ "class B extends A\x7bf()\x7bsuper.m\x7d\x7d")
  root := .sound (.other "program") none 0 49
    [.shortClass 0 7 18 [] [.shortMethod 8 12 13 17
      [⟨.getToken, none, false, false, false, 8, 11, []⟩] []],
      .shortClass 18 35 49 [.shortHeritage 26] [.shortMethod 36 36 37 48 [] [.shortSuper 40]]]

/-- The copy of the getter is written out after the method `f`, and listed before it. -/
theorem not_stable_copiedGetter : ∃ r, copiedGetter.registry = .ok r ∧
    (Members.ofList (copiedGetter.resolve (r.lineage "B")).written).toList
      ≠ (copiedGetter.resolve (r.lineage "B")).written := by
  obtain ⟨r, hr, htest⟩ := Script.exists_registry (s := copiedGetter)
    (p := fun r =>
      (copiedGetter.resolve (r.lineage "B")).written.map (·.name) == ["m", "f", "_super_A_m"] &&
      (Members.ofList (copiedGetter.resolve (r.lineage "B")).written).toList.map (·.name)
        == ["m", "_super_A_m", "f"]) (by decide +kernel)
  obtain ⟨hwritten, hlisted⟩ := Bool.and_eq_true_iff.1 htest
  refine ⟨r, hr, fun hsame => ?_⟩
  rw [hsame, beq_iff_eq.1 hwritten] at hlisted
  exact absurd hlisted (by decide)

/-! ### Private names -/

section Private

variable {s : Script} {r : Registry} {target : String}

/-- **Private names of a flattened class.** If each class keeps to the law, the lineage does so
exactly if the classes agree where their private names are. The class that is written out does no
better and no worse, since all that is added to it is public. -/
theorem privateNamesLegal_iff (hr : s.registry = .ok r)
    (hlegal : ∀ d ∈ r.ancestry target, PrivateNamesLegal d.members.identities) :
    (PrivateNamesLegal (r.lineage target).members.identities ↔
      AgreeOnPrivateNames (r.ancestry target)) ∧
      (PrivateNamesLegal ((s.resolve (r.lineage target)).written.map (·.identity)) ↔
        AgreeOnPrivateNames (r.ancestry target)) := by
  have hlineage := privateNamesLegal_lineage_iff hr hlegal
  refine ⟨hlineage, ?_⟩
  -- what is added is public, and so it does not matter for private names
  have hpublic : ∀ i ∈ ((s.resolve (r.lineage target)).added.map Excerpt.asWritten).map
      (·.identity), i.visibility = .pub := by
    intro i hi
    obtain ⟨m, hm, rfl⟩ := List.mem_map.1 hi
    obtain ⟨y, hy, rfl⟩ := List.mem_map.1 hm
    exact (asWritten_of_added hr hy).2
  rw [(shows_resolve s r target).written_eq (filed_lineage hr target), List.map_append]
  exact (privateNamesLegal_append_iff hpublic).trans hlineage

end Private

/-- Three classes with a private name `#p` each: a field in `A` and in `B`, and a method in `C`. -/
def repeatedPrivateName : Script where
  source := .ofText ("class A\x7b#p=1;\x7d" ++ "class B extends A\x7b#p=2;\x7d"
    ++ "class C extends B\x7b#p()\x7b\x7d\x7d")
  root := .sound (.other "program") none 0 63
    [.shortClass 0 7 14 [] [.shortField .privatePropertyIdentifier 8 8 10 12 []],
      .shortClass 14 31 38 [.shortHeritage 22]
        [.shortField .privatePropertyIdentifier 32 32 34 36 []],
      .shortClass 38 55 63 [.shortHeritage 46]
        [.sound .methodDefinition (some (.other "member")) 56 62
          [.sound .privatePropertyIdentifier (some .name) 56 58 [],
            .sound (.other "formal_parameters") (some (.other "parameters")) 58 60 [],
            .sound (.other "statement_block") (some .body) 60 62 []]]]

/-- The field of `B` takes the place of that of `A`. -/
theorem privateNamesLegal_repeatedPrivateName : ∃ r, repeatedPrivateName.registry = .ok r ∧
    (∀ d ∈ r.ancestry "B", PrivateNamesLegal d.members.identities) ∧
    (r.lineage "B").members.toList.map (fun m => (m.owner, m.name)) = [("B", "#p")] ∧
    AgreeOnPrivateNames (r.ancestry "B") ∧
    PrivateNamesLegal ((repeatedPrivateName.resolve (r.lineage "B")).written.map (·.identity)) := by
  obtain ⟨r, hr, htest⟩ := Script.exists_registry (s := repeatedPrivateName)
    (p := fun r => decide (∀ d ∈ r.ancestry "B", PrivateNamesLegal d.members.identities) &&
      (r.lineage "B").members.toList.map (fun m => (m.owner, m.name)) == [("B", "#p")] &&
      decide (PrivateNamesLegal (r.lineage "B").members.identities)) (by decide +kernel)
  simp only [Bool.and_eq_true, decide_eq_true_eq, beq_iff_eq] at htest
  obtain ⟨⟨hlegal, hmembers⟩, hlineage⟩ := htest
  obtain ⟨hiff, hwritten⟩ := privateNamesLegal_iff hr hlegal
  have hagree := hiff.1 hlineage
  exact ⟨r, hr, hlegal, hmembers, hagree, hwritten.2 hagree⟩

/-- The method of `C` comes to stand beside the field of `B`. -/
theorem not_privateNamesLegal_repeatedPrivateName : ∃ r, repeatedPrivateName.registry = .ok r ∧
    (∀ d ∈ r.classes, PrivateNamesLegal d.members.identities) ∧
    ¬ PrivateNamesLegal (r.lineage "C").members.identities ∧
    ¬ PrivateNamesLegal
      ((repeatedPrivateName.resolve (r.lineage "C")).written.map (·.identity)) := by
  obtain ⟨r, hr, htest⟩ := Script.exists_registry (s := repeatedPrivateName)
    (p := fun r => decide (∀ d ∈ r.classes, PrivateNamesLegal d.members.identities) &&
      !decide (PrivateNamesLegal (r.lineage "C").members.identities) &&
      !decide (PrivateNamesLegal
        ((repeatedPrivateName.resolve (r.lineage "C")).written.map (·.identity))))
    (by decide +kernel)
  simp only [Bool.and_eq_true, Bool.not_eq_true', decide_eq_true_eq,
    decide_eq_false_iff_not] at htest
  exact ⟨r, hr, htest.1.1, htest.1.2, htest.2⟩

end Disinherit
