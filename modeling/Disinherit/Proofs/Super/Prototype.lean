import Disinherit.Proofs.Lineage.History
import Disinherit.Super.Copies

/-!
# Super lookup and the prototype chain

When a class runs, `super.x` is looked up along the prototypes: the nearest class above that has a
method or an accessor of the property answers, and if what it has cannot serve the use (a setter
cannot be read) there is no answer. `PrototypeAnswer` states this.

`Lineage.referent?` looks for one kind of member after the other instead, each along the whole
chain. `referent?_eq` says what it finds, and `prototypeAnswer_referent?_iff` when that is the
answer of the prototypes: exactly if the kind it settles on is declared by the nearest class that
has the property. An accessor between a class and a method of the same name is passed over
(`not_prototypeAnswer_accessor_between`).
-/

namespace Disinherit

/-! ### The answer of the prototypes -/

/-- The kinds of members that serve a use, in the order in which they are looked for. -/
def SuperUse.kinds : SuperUse → List MemberKind
  | write => [.setter]
  | _ => [.method, .getter]

/-- The identity of a kind of member of a property. -/
def PropertyKey.identity (p : PropertyKey) (kind : MemberKind) : Identity :=
  ⟨p.isStatic, kind, p.visibility, p.name⟩

/-- The class has a member of the property that serves the use. -/
def ClassDecl.serves (d : ClassDecl) (p : PropertyKey) (use : SuperUse) : Bool :=
  use.kinds.any fun kind => d.declares (p.identity kind)

/-- The answer to looking up a property along the prototypes of `above`, a chain from the most
distant class to the nearest. The nearest class that has the property decides. -/
def PrototypeAnswer (above : List ClassDecl) (p : PropertyKey) (use : SuperUse)
    (answer : Option Member) : Prop :=
  match above.findRev? (·.occupies p) with
  | none => answer = none
  | some d =>
    if d.serves p use then
      ∃ m ∈ d.members.toList, m.owner = d.name ∧ m.identity.property = p ∧ m.kind ∈ use.kinds
        ∧ answer = some m
    else answer = none

/-! ### The answer of a lineage -/

/-- The kinds that serve a use are kinds of methods and accessors. -/
theorem SuperUse.onPrototype_of_mem_kinds {use : SuperUse} {kind : MemberKind}
    (h : kind ∈ use.kinds) : kind.onPrototype = true := by
  cases use with
  | write => rw [List.mem_singleton.1 h]; rfl
  | read => rcases List.mem_pair.1 h with rfl | rfl <;> rfl
  | compound => rcases List.mem_pair.1 h with rfl | rfl <;> rfl

/-- The kind of member on which the lookup settles: the first that any class in front declares. -/
def settledKind? (above : List ClassDecl) (p : PropertyKey) (use : SuperUse) : Option MemberKind :=
  use.kinds.find? fun kind => above.any (·.declares (p.identity kind))

/-- The nearest declaration of an identity in a chain. -/
def nearestIn? (above : List ClassDecl) (i : Identity) : Option Member :=
  (above.findRev? (·.declares i)).bind (·.members.find? i)

/-- A property that no class in front declares has no nearest declaration. -/
theorem nearestIn?_eq_none {above : List ClassDecl} {i : Identity}
    (h : above.any (·.declares i) = false) : nearestIn? above i = none := by
  have hnone : above.findRev? (·.declares i) = none := by
    rw [List.findRev?_eq_find?_reverse, List.find?_eq_none]
    intro d hd
    exact List.any_eq_false.1 h d (List.mem_reverse.1 hd)
  rw [nearestIn?, hnone, Option.bind_none]

section Lineage

variable {s : Script} {above : List ClassDecl} {p : PropertyKey} {use : SuperUse}

/-- The nearest declaration is a member of the last class that declares the identity. -/
theorem nearestIn?_eq_some_iff (hreg : ∀ d ∈ above, s.Registers d) {i : Identity}
    (hi : Inherited.hasHistory i.kind = true) {m : Member} :
    nearestIn? above i = some m ↔
      ∃ d, above.findRev? (·.declares i) = some d ∧ m ∈ d.members.toList ∧ m.identity = i := by
  rw [nearestIn?, Option.bind_eq_some_iff]
  refine exists_congr fun d => and_congr_right fun hlast => ?_
  obtain ⟨-, front, back, rfl, -⟩ := findRev?_eq_some_iff_append.1 hlast
  exact (hreg d (by simp)).find?_eq_some_iff hi

/-- An identity that some class in front declares has a nearest declaration. -/
theorem isSome_nearestIn? (hreg : ∀ d ∈ above, s.Registers d) {i : Identity}
    (hi : Inherited.hasHistory i.kind = true) (h : above.any (·.declares i) = true) :
    (nearestIn? above i).isSome = true := by
  obtain ⟨d, hd, hdecl⟩ := List.any_eq_true.1 h
  cases hlast : above.findRev? (·.declares i) with
  | none =>
    -- `d` itself would have been found
    rw [List.findRev?_eq_find?_reverse] at hlast
    exact absurd hdecl (List.find?_eq_none.1 hlast d (List.mem_reverse.2 hd))
  | some e =>
    obtain ⟨hdecl, -⟩ := findRev?_eq_some_iff_append.1 hlast
    obtain ⟨m, hm, hident⟩ := ClassDecl.declares_iff.1 hdecl
    rw [Option.isSome_iff_exists]
    exact ⟨m, (nearestIn?_eq_some_iff hreg hi).2 ⟨e, hlast, hm, hident⟩⟩

/-- Asking for one kind after the other comes to the first kind that is declared at all. -/
theorem findSome?_nearestIn? (hreg : ∀ d ∈ above, s.Registers d) {kinds : List MemberKind}
    (hkinds : ∀ kind ∈ kinds, kind.onPrototype = true) :
    kinds.findSome? (fun kind => nearestIn? above (p.identity kind))
      = (kinds.find? fun kind => above.any (·.declares (p.identity kind))).bind
          fun kind => nearestIn? above (p.identity kind) := by
  induction kinds with
  | nil => rfl
  | cons kind kinds ih =>
    rw [List.findSome?_cons, List.find?_cons]
    cases hdecl : above.any (·.declares (p.identity kind)) with
    | false =>
      -- the first kind is declared nowhere, and so both sides go on to the others
      rw [nearestIn?_eq_none hdecl]
      exact ih fun k hk => hkinds k (List.mem_cons_of_mem _ hk)
    | true =>
      have hhist := Inherited.hasHistory_of_onPrototype (hkinds kind List.mem_cons_self)
      obtain ⟨m, hm⟩ := Option.isSome_iff_exists.1
        (isSome_nearestIn? hreg (i := p.identity kind) hhist hdecl)
      rw [hm, Option.bind_some, hm]

/-- The lookup takes the nearest declaration of the kind on which it settles. -/
theorem referent?_eq {r : Registry} {name : String} {below : List ClassDecl} {d : ClassDecl}
    (hr : s.registry = .ok r) (hchain : r.ancestry name = above ++ d :: below)
    (hp : p.visibility = .pub) (use : SuperUse) :
    (r.lineage name).referent? p.name use p.isStatic d.name
      = (settledKind? above p use).bind fun kind => nearestIn? above (p.identity kind) := by
  have hreg : ∀ e ∈ above, s.Registers e := fun e he =>
    Script.registers_of_ancestry hr (hchain ▸ List.mem_append_left _ he)
  have hentry : ∀ kind, kind.onPrototype = true →
      (r.lineage name).nearestAbove? ⟨p.isStatic, kind, .pub, p.name⟩ d.name
        = nearestIn? above (p.identity kind) := by
    intro kind hk
    rw [← hp]
    exact nearestAbove?_eq hr hchain (Inherited.hasHistory_of_onPrototype hk)
  -- asking for one kind and then for another is a search through both
  have hread : (nearestIn? above (p.identity .method)).or (nearestIn? above (p.identity .getter))
      = [MemberKind.method, .getter].findSome? fun kind => nearestIn? above (p.identity kind) := by
    rw [List.findSome?_cons, List.findSome?_singleton]
    cases nearestIn? above (p.identity .method) <;> rfl
  rw [settledKind?, ← findSome?_nearestIn? hreg fun kind hk => SuperUse.onPrototype_of_mem_kinds hk]
  cases use with
  | write =>
    show (r.lineage name).nearestAbove? _ _ = _
    rw [hentry .setter rfl, SuperUse.kinds, List.findSome?_singleton]
  | read =>
    show ((r.lineage name).nearestAbove? _ _).or ((r.lineage name).nearestAbove? _ _) = _
    rw [hentry .method rfl, hentry .getter rfl, hread]
    rfl
  | compound =>
    show ((r.lineage name).nearestAbove? _ _).or ((r.lineage name).nearestAbove? _ _) = _
    rw [hentry .method rfl, hentry .getter rfl, hread]
    rfl

/-! ### Where the two agree -/

/-- The kind on which the lookup settles, if any, is one that the nearest class with the property
declares. -/
def settlesNearest (above : List ClassDecl) (p : PropertyKey) (use : SuperUse) : Bool :=
  (settledKind? above p use).all fun kind =>
    (above.findRev? (·.occupies p)).any (·.declares (p.identity kind))

/-- An answer of the prototypes is a member of the nearest class that has the property. -/
theorem PrototypeAnswer.nearest {m : Member} (h : PrototypeAnswer above p use (some m)) :
    ∃ d, above.findRev? (·.occupies p) = some d ∧ m ∈ d.members.toList ∧ m.owner = d.name := by
  unfold PrototypeAnswer at h
  split at h
  · cases h
  · next d hlast =>
    split at h
    · obtain ⟨m', hm, howner, -, -, he⟩ := h
      obtain rfl := Option.some.inj he
      exact ⟨d, hlast, hm, howner⟩
    · cases h

/-- If no class declares a kind that serves the use, the prototypes have no answer. -/
theorem prototypeAnswer_none (h : settledKind? above p use = none) :
    PrototypeAnswer above p use none := by
  unfold PrototypeAnswer
  split
  · rfl
  · next d hlast =>
    obtain ⟨-, front, back, rfl, -⟩ := findRev?_eq_some_iff_append.1 hlast
    -- no class has any of the kinds, and so neither has this one
    have hserves : d.serves p use = false := by
      rw [ClassDecl.serves, List.any_eq_false]
      intro kind hk hdecl
      refine List.find?_eq_none.1 h kind hk ?_
      exact List.any_eq_true.2 ⟨d, by simp, hdecl⟩
    rw [hserves]
    rfl

/-- A class that has the property and is the last to have it is the last to declare what it
declares. -/
theorem findRev?_declares {d : ClassDecl} {i : Identity} (hi : i.kind.onPrototype = true)
    (hlast : above.findRev? (·.occupies i.property) = some d) (hdecl : d.declares i = true) :
    above.findRev? (·.declares i) = some d := by
  obtain ⟨-, front, back, hsplit, hback⟩ := findRev?_eq_some_iff_append.1 hlast
  refine findRev?_eq_some_iff_append.2 ⟨hdecl, front, back, hsplit, fun b hb => ?_⟩
  rw [Bool.eq_false_iff]
  -- a class behind `d` that declares it would occupy the property as well
  intro hb'
  exact Bool.false_ne_true ((hback b hb).symm.trans (ClassDecl.occupies_of_declares hi hb'))

/-- The nearest declaration of the kind on which the lookup settles is what the prototypes answer
just if the nearest class with the property declares that kind. -/
theorem prototypeAnswer_nearestIn?_iff (hreg : ∀ d ∈ above, s.Registers d) {kind : MemberKind}
    (hkind : settledKind? above p use = some kind) :
    PrototypeAnswer above p use (nearestIn? above (p.identity kind)) ↔
      ∃ e, above.findRev? (·.occupies p) = some e ∧ e.declares (p.identity kind) = true := by
  have hmem : kind ∈ use.kinds := List.mem_of_find?_eq_some hkind
  have hproto : kind.onPrototype = true := SuperUse.onPrototype_of_mem_kinds hmem
  have hhist : Inherited.hasHistory (p.identity kind).kind = true :=
    Inherited.hasHistory_of_onPrototype hproto
  constructor
  · -- an answer is a member of the nearest class, and this one has the kind that was looked for
    intro h
    have hdecl : above.any (·.declares (p.identity kind)) = true :=
      List.find?_some (p := fun kind => above.any (·.declares (p.identity kind))) hkind
    obtain ⟨m, hm⟩ := Option.isSome_iff_exists.1 (isSome_nearestIn? hreg hhist hdecl)
    obtain ⟨-, -, -, hident⟩ := (nearestIn?_eq_some_iff hreg hhist).1 hm
    rw [hm] at h
    obtain ⟨d, hlast, hd, -⟩ := h.nearest
    exact ⟨d, hlast, ClassDecl.declares_iff.2 ⟨m, hd, hident⟩⟩
  · -- no class nearer than `e` has the property at all, and so none declares the kind
    rintro ⟨e, hlast, hdecl⟩
    obtain ⟨m, hm, hident⟩ := ClassDecl.declares_iff.1 hdecl
    have hanswer : nearestIn? above (p.identity kind) = some m :=
      (nearestIn?_eq_some_iff hreg hhist).2
        ⟨e, findRev?_declares (i := p.identity kind) hproto hlast hdecl, hm, hident⟩
    obtain ⟨-, front, back, rfl, -⟩ := findRev?_eq_some_iff_append.1 hlast
    have hserves : e.serves p use = true := List.any_eq_true.2 ⟨kind, hmem, hdecl⟩
    unfold PrototypeAnswer
    rw [hlast]
    simp only [hserves, if_true]
    refine ⟨m, hm, (hreg e (by simp)).owner_eq hm, ?_, ?_, hanswer⟩
    · rw [hident]
      rfl
    · rw [Member.kind, hident]
      exact hmem

/-- **Super lookup against the prototype chain.** The lookup gives the nearest declaration of the
first kind that serves the use and is declared at all. This is what the prototypes answer exactly if
the nearest class that has the property declares that kind. -/
theorem prototypeAnswer_referent?_iff {r : Registry} {name : String} {below : List ClassDecl}
    {d : ClassDecl} (hr : s.registry = .ok r) (hchain : r.ancestry name = above ++ d :: below)
    (isStatic : Bool) (x : String) (use : SuperUse) :
    let p : PropertyKey := ⟨isStatic, .pub, x⟩
    let found := (r.lineage name).referent? x use isStatic d.name
    found = (settledKind? above p use).bind (fun kind => nearestIn? above (p.identity kind)) ∧
      (PrototypeAnswer above p use found ↔ settlesNearest above p use = true) := by
  intro p found
  have hreg : ∀ e ∈ above, s.Registers e := fun e he =>
    Script.registers_of_ancestry hr (hchain ▸ List.mem_append_left _ he)
  have heq : found
      = (settledKind? above p use).bind fun kind => nearestIn? above (p.identity kind) :=
    referent?_eq (p := p) hr hchain rfl use
  refine ⟨heq, ?_⟩
  rw [heq, settlesNearest]
  cases hkind : settledKind? above p use with
  | none =>
    have hanswer := prototypeAnswer_none hkind
    simp [hanswer]
  | some kind =>
    rw [Option.bind_some, prototypeAnswer_nearestIn?_iff hreg hkind, Option.all_some,
      Option.any_eq_true]

end Lineage

/-! ### An accessor between two methods -/

/-- What a test says of the chain of `C`. -/
theorem exists_chain_accessorBetween {p : Registry → ClassDecl → ClassDecl → ClassDecl → Bool}
    (h : (accessorBetween.registry.toOption.any fun r =>
      match r.ancestry "C" with
      | [a, b, c] => p r a b c
      | _ => false) = true) :
    ∃ r a b c, accessorBetween.registry = .ok r ∧ r.ancestry "C" = [a, b, c] ∧
      p r a b c = true := by
  obtain ⟨r, hr, htest⟩ := Script.exists_registry h
  split at htest
  · next a b c hchain => exact ⟨r, a, b, c, hr, hchain, htest⟩
  · cases htest

/-- Above `B` there is only the method of `A`, which both ways of looking `m` up find. -/
theorem prototypeAnswer_accessorBetween : ∃ r a b c, accessorBetween.registry = .ok r ∧
    r.ancestry "C" = [a] ++ b :: [c] ∧ settlesNearest [a] ⟨false, .pub, "m"⟩ .read = true ∧
    PrototypeAnswer [a] ⟨false, .pub, "m"⟩ .read
      ((r.lineage "C").referent? "m" .read false b.name) := by
  obtain ⟨r, a, b, c, hr, hchain, hsettles⟩ := exists_chain_accessorBetween
    (p := fun _ a _ _ => settlesNearest [a] ⟨false, .pub, "m"⟩ .read) (by decide +kernel)
  have hsplit : r.ancestry "C" = [a] ++ b :: [c] := hchain
  refine ⟨r, a, b, c, hr, hsplit, hsettles, ?_⟩
  exact (prototypeAnswer_referent?_iff hr hsplit false "m" .read).2.2 hsettles

/-- Above `C` the prototypes come to the getter of `B` first, but the lookup finds the method of
`A`. -/
theorem not_prototypeAnswer_accessor_between : ∃ r a b c, accessorBetween.registry = .ok r ∧
    r.ancestry "C" = [a, b] ++ c :: [] ∧
    ¬ PrototypeAnswer [a, b] ⟨false, .pub, "m"⟩ .read
      ((r.lineage "C").referent? "m" .read false c.name) := by
  obtain ⟨r, a, b, c, hr, hchain, htest⟩ := exists_chain_accessorBetween
    (p := fun r a b c =>
      ([a, b].findRev? (·.occupies ⟨false, .pub, "m"⟩)).map (·.name) == some "B" &&
        ((r.lineage "C").referent? "m" .read false c.name).map (·.owner) == some "A")
    (by decide +kernel)
  refine ⟨r, a, b, c, hr, hchain, fun hanswer => ?_⟩
  rw [Bool.and_eq_true, beq_iff_eq, beq_iff_eq] at htest
  -- an answer would be owned by `B`, and what was found is owned by `A`
  obtain ⟨m, hm, howner⟩ := Option.map_eq_some_iff.1 htest.2
  rw [hm] at hanswer
  obtain ⟨d, hlast, -, hd⟩ := hanswer.nearest
  have hname := htest.1
  rw [hlast, Option.map_some, ← hd, howner] at hname
  exact absurd hname (by decide)

end Disinherit
