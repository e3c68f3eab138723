import Disinherit.Proofs.Lineage.Ancestry

/-!
# One class over its ancestors

`Inherited.overlay` lays one class over what its ancestors declare. This file says what the step
does to each part of an `Inherited`:

* `inCategory_overlay`: of the members in effect those remain that the class does not supersede
  (`ClassDecl.supersedes`), and the class's own members follow. A method or accessor is superseded
  by any method or accessor of its property, a field by a field of its identity, a static block by
  nothing.
* `history_overlay`: every identity gets the declaration of the class at the end of its history.
* `constructors_overlay`: the constructor of the class follows those of its ancestors.

Before the class's own members are added, the properties they take are cleared one after the other.
`overlayIn` leaves the order open, and `overlayIn_eq_overlay` says that it does not matter.
-/

namespace Disinherit

/-! ### What a class declares -/

namespace ClassDecl

/-- The class has a member with the identity. -/
def declares (d : ClassDecl) (i : Identity) : Bool :=
  d.members.toList.any (·.identity = i)

/-- The class has a method or an accessor of the property. -/
def occupies (d : ClassDecl) (k : PropertyKey) : Bool :=
  d.members.toList.any fun m => m.kind.onPrototype && m.identity.property == k

/-- The class takes a member of an ancestor out of effect. -/
def supersedes (d : ClassDecl) (m : Member) : Bool :=
  if m.kind.onPrototype then d.occupies m.identity.property
  else m.kind != .staticBlock && d.declares m.identity

variable {d : ClassDecl}

theorem declares_iff {i : Identity} :
    d.declares i = true ↔ ∃ m ∈ d.members.toList, m.identity = i := by
  simp [declares]

theorem occupies_iff {k : PropertyKey} :
    d.occupies k = true ↔
      ∃ m ∈ d.members.toList, m.kind.onPrototype = true ∧ m.identity.property = k := by
  simp [occupies]

theorem occupies_of_declares {i : Identity} (hi : i.kind.onPrototype = true)
    (h : d.declares i = true) : d.occupies i.property = true := by
  obtain ⟨m, hm, rfl⟩ := declares_iff.1 h
  exact occupies_iff.2 ⟨m, hm, hi, rfl⟩

/-- The two ways of superseding, of which the first covers the second for methods and accessors. -/
theorem supersedes_eq (d : ClassDecl) (m : Member) :
    d.supersedes m = ((m.kind.onPrototype && d.occupies m.identity.property)
      || (m.kind != .staticBlock && d.declares m.identity)) := by
  unfold supersedes
  cases hp : m.kind.onPrototype with
  | false => simp
  | true =>
    -- a class that declares the identity occupies the property
    cases hdecl : d.declares m.identity with
    | false => simp
    | true => simp [occupies_of_declares hp hdecl]

/-- A class supersedes whatever has an identity that it declares, unless that is a static block. -/
theorem supersedes_of_declares {m : Member} (hblock : m.kind ≠ .staticBlock)
    (hdecl : d.declares m.identity = true) : d.supersedes m = true := by
  simp [supersedes_eq, hblock, hdecl]

end ClassDecl

namespace Inherited

/-! ### A run of declarations -/

theorem members_adopt (h : Inherited) (m : Member) :
    (h.adopt m).members = if m.kind = .constructor then h.members else h.members.declare m := by
  unfold adopt Members.declare
  cases hk : m.kind <;> simp

theorem constructors_adopt (h : Inherited) (m : Member) :
    (h.adopt m).constructors
      = h.constructors ++ if m.kind = .constructor then [m] else [] := by
  unfold adopt
  cases hk : m.kind <;> simp

/-- The kinds of which a history is kept. -/
def hasHistory (k : MemberKind) : Bool :=
  k.onPrototype || k == .field

theorem hasHistory_of_onPrototype {k : MemberKind} (h : k.onPrototype = true) :
    hasHistory k = true := by
  rw [hasHistory, h, Bool.true_or]

/-- Constructors are chained and static blocks add up, so that neither has a history. -/
theorem ne_of_hasHistory {k : MemberKind} (h : hasHistory k = true) :
    k ≠ .constructor ∧ k ≠ .staticBlock := by
  constructor
  · rintro rfl
    cases h
  · rintro rfl
    cases h

theorem history_adopt (h : Inherited) (m : Member) :
    (h.adopt m).history
      = if hasHistory m.kind then h.history.push m.identity m else h.history := by
  unfold adopt
  cases hk : m.kind <;> rfl

theorem inCategory_foldl_adopt (ms : List Member) (h : Inherited) (c : Category) :
    (ms.foldl adopt h).members.inCategory c
      = (ms.filter (Members.fits c)).foldl replaceIn (h.members.inCategory c) := by
  induction ms generalizing h with
  | nil => rfl
  | cons m ms ih =>
    rw [List.foldl_cons, ih, members_adopt]
    by_cases hk : m.kind = .constructor
    · -- constructors are not declared here, and they fit no category either
      rw [if_pos hk, List.filter_cons_of_neg (by simp [Members.fits, hk])]
    · rw [if_neg hk, Members.inCategory_declare]
      -- of the others, those that fit take their place in the category
      by_cases hf : Members.fits c m = true
      · rw [if_pos hf, List.filter_cons_of_pos hf, List.foldl_cons]
      · rw [if_neg hf, List.filter_cons_of_neg hf]

theorem constructor_foldl_adopt (ms : List Member) (h : Inherited) :
    (ms.foldl adopt h).members.constructor = h.members.constructor := by
  induction ms generalizing h with
  | nil => rfl
  | cons m ms ih =>
    rw [List.foldl_cons, ih, members_adopt]
    split
    · rfl
    · next hk => rw [Members.constructor_declare, if_neg hk]

theorem constructors_foldl_adopt (ms : List Member) (h : Inherited) :
    (ms.foldl adopt h).constructors = h.constructors ++ ms.filter (·.kind = .constructor) := by
  induction ms generalizing h with
  | nil => simp
  | cons m ms ih =>
    rw [List.foldl_cons, ih, constructors_adopt, List.append_assoc]
    by_cases hk : m.kind = .constructor <;> simp [hk]

theorem history_foldl_adopt (ms : List Member) (h : Inherited) {i : Identity}
    (hi : hasHistory i.kind = true) :
    ((ms.foldl adopt h).history.get? i).getD []
      = (h.history.get? i).getD [] ++ ms.filter (·.identity = i) := by
  induction ms generalizing h with
  | nil => simp
  | cons m ms ih =>
    rw [List.foldl_cons, ih, history_adopt]
    by_cases hm : m.identity = i
    · -- identities have histories or not by their kind, so that `m` is noted
      have hk : hasHistory m.kind = true := by rw [Member.kind, hm]; exact hi
      rw [if_pos hk, Table.get?_push, if_pos hm.symm, List.filter_cons_of_pos (by simpa using hm),
        hm]
      simp
    · rw [List.filter_cons_of_neg (by simpa using hm)]
      -- another identity has a history of its own
      split
      · rw [Table.get?_push, if_neg (Ne.symm hm)]
      · rfl

/-! ### Clearing properties -/

theorem inCategory_clear (h : Inherited) (owner : String) (ks : List PropertyKey) (c : Category) :
    (h.clear owner ks).members.inCategory c = if c ∈ Category.onPrototype then
      (h.members.inCategory c).filter (fun m => !ks.any (Members.isDisplaced · owner m))
      else h.members.inCategory c := by
  unfold clear
  induction ks generalizing h with
  | nil => simp
  | cons k ks ih =>
    -- clearing one property and then others is filtering twice
    have hstep := ih { h with members := h.members.vacate k owner }
    simp only [List.foldl_cons] at hstep ⊢
    rw [hstep, Members.inCategory_vacate]
    by_cases hc : c ∈ Category.onPrototype
    · rw [if_pos hc, if_pos hc, if_pos hc, List.filter_filter]
      refine List.filter_congr fun m _ => ?_
      rw [List.any_cons, Bool.not_or, Bool.and_comm]
    · rw [if_neg hc, if_neg hc, if_neg hc]

theorem constructor_clear (h : Inherited) (owner : String) (ks : List PropertyKey) :
    (h.clear owner ks).members.constructor = h.members.constructor := by
  unfold clear
  induction ks generalizing h with
  | nil => rfl
  | cons k ks ih =>
    have hstep := ih { h with members := h.members.vacate k owner }
    rw [Members.constructor_vacate] at hstep
    exact hstep

/-- It makes no difference in which order properties are cleared, nor how often each is. -/
theorem clear_congr (h : Inherited) (owner : String) {ks ks' : List PropertyKey}
    (hks : ∀ k, k ∈ ks ↔ k ∈ ks') : h.clear owner ks = h.clear owner ks' := by
  have hany : ∀ m, ks.any (Members.isDisplaced · owner m)
      = ks'.any (Members.isDisplaced · owner m) := by
    intro m
    rw [Bool.eq_iff_iff, List.any_eq_true, List.any_eq_true]
    exact exists_congr fun k => and_congr_left fun _ => hks k
  -- category by category, both clear away what has one of the properties
  have hmembers : (h.clear owner ks).members = (h.clear owner ks').members := by
    refine Members.ext_inCategory (fun c => ?_) ?_
    · rw [inCategory_clear, inCategory_clear]
      simp only [hany]
    · rw [constructor_clear, constructor_clear]
  unfold clear at hmembers ⊢
  simp only [mk.injEq, and_true]
  exact hmembers

/-- `overlay` with the properties cleared as a given list says. -/
def overlayIn (ks : List PropertyKey) (h : Inherited) (d : ClassDecl) : Inherited :=
  d.members.toList.foldl adopt (h.clear d.name ks)

theorem overlayIn_eq_overlay (h : Inherited) {d : ClassDecl} {ks : List PropertyKey}
    (hks : ∀ k, k ∈ ks ↔ k ∈ propertiesTaken d.members.toList) :
    h.overlayIn ks d = h.overlay d := by
  rw [overlayIn, clear_congr h d.name hks]
  rfl

theorem mem_propertiesTaken {d : ClassDecl} {k : PropertyKey} :
    k ∈ propertiesTaken d.members.toList ↔ d.occupies k = true := by
  rw [ClassDecl.occupies_iff, propertiesTaken, List.mem_map]
  simp only [List.mem_filter, and_assoc]

/-- What a class clears away of its ancestors' methods and accessors: those of the properties that
it occupies. -/
theorem any_isDisplaced {d : ClassDecl} {m : Member} (hm : m.owner ≠ d.name) :
    (propertiesTaken d.members.toList).any (Members.isDisplaced · d.name m)
      = (m.kind.onPrototype && d.occupies m.identity.property) := by
  rw [Bool.eq_iff_iff, List.any_eq_true, Bool.and_eq_true]
  simp only [mem_propertiesTaken, Members.isDisplaced, Bool.and_eq_true, beq_iff_eq, bne_iff_ne]
  constructor
  · -- only the owner could keep a member from being displaced, and it is another one
    rintro ⟨k, hk, ⟨hproto, rfl⟩, -⟩
    exact ⟨hproto, hk⟩
  · rintro ⟨hproto, hk⟩
    exact ⟨_, hk, ⟨hproto, rfl⟩, hm⟩

/-! ### The step -/

section Step

variable {s : Script} {d : ClassDecl} {h : Inherited} {c : Category}

/-- What is left of the ancestors' members once the class has cleared the properties that it
takes. -/
theorem inCategory_clear_taken (hfiled : h.members.Filed)
    (howner : ∀ m ∈ h.members.inCategory c, m.owner ≠ d.name) :
    (h.clear d.name (propertiesTaken d.members.toList)).members.inCategory c
      = (h.members.inCategory c).filter
          fun m => !(m.kind.onPrototype && d.occupies m.identity.property) := by
  rw [inCategory_clear]
  by_cases hc : c ∈ Category.onPrototype
  · rw [if_pos hc]
    exact List.filter_congr fun m hm => by rw [any_isDisplaced (howner m hm)]
  · -- elsewhere there are no methods and accessors to clear away
    rw [if_neg hc]
    refine (List.filter_eq_self.2 fun m hm => ?_).symm
    have hproto : m.kind.onPrototype = false := by
      rw [Bool.eq_false_iff]
      intro hp
      exact hc ((Members.fits_iff.1 (hfiled.fits c m hm)).2 ▸ Identity.category_mem_onPrototype hp)
    rw [hproto]
    rfl

/-- Among the class's own members of a category, a member of that category yields to the one with
its identity. -/
theorem any_yieldsTo (hd : s.Registers d) {m : Member} (hm : Members.fits c m = true) :
    (d.members.inCategory c).any m.yieldsTo
      = (m.kind != .staticBlock && d.declares m.identity) := by
  obtain ⟨hkind, hcategory⟩ := Members.fits_iff.1 hm
  rw [Bool.eq_iff_iff, List.any_eq_true, Bool.and_eq_true, bne_iff_ne, ClassDecl.declares_iff]
  constructor
  · rintro ⟨b, hb, hy⟩
    obtain ⟨hblock, hident⟩ := Member.yieldsTo_iff.1 hy
    exact ⟨hblock, b, Members.mem_toList.2 (.inl ⟨c, hb⟩), hident.symm⟩
  · rintro ⟨hblock, b, hb, hident⟩
    refine ⟨b, ?_, Member.yieldsTo_iff.2 ⟨hblock, hident.symm⟩⟩
    -- the identity of `b` says where it is filed
    have hbk : b.kind ≠ .constructor := by rw [Member.kind, hident]; exact hkind
    rw [hd.filed.mem_toList, if_neg hbk, hident, hcategory] at hb
    exact hb

/-- **One class over its ancestors.** What the class supersedes goes, and its own members follow. -/
theorem inCategory_overlay (hd : s.Registers d) (hfiled : h.members.Filed)
    (hdistinct : Distinct (h.members.inCategory c))
    (howner : ∀ m ∈ h.members.inCategory c, m.owner ≠ d.name) :
    (h.overlay d).members.inCategory c
      = (h.members.inCategory c).filter (fun m => !d.supersedes m) ++ d.members.inCategory c := by
  rw [overlay, inCategory_foldl_adopt, hd.filed.filter_fits, inCategory_clear_taken hfiled howner,
    foldl_replaceIn _ (hdistinct.filter _), standing_eq_self (hd.distinct c), List.filter_filter]
  -- clearing and replacing take out between them what is superseded
  congr 1
  refine List.filter_congr fun m hm => ?_
  rw [any_yieldsTo hd (hfiled.fits c m hm), ClassDecl.supersedes_eq, Bool.not_or, Bool.and_comm]

end Step

theorem constructor_overlay (h : Inherited) (d : ClassDecl) :
    (h.overlay d).members.constructor = h.members.constructor := by
  rw [overlay, constructor_foldl_adopt, constructor_clear]

theorem constructors_overlay {s : Script} {d : ClassDecl} (hd : s.Registers d) (h : Inherited) :
    (h.overlay d).constructors = h.constructors ++ d.members.constructor.toList := by
  rw [overlay, constructors_foldl_adopt, hd.filed.filter_constructor]
  rfl

theorem history_overlay (h : Inherited) (d : ClassDecl) {i : Identity}
    (hi : hasHistory i.kind = true) :
    ((h.overlay d).history.get? i).getD []
      = (h.history.get? i).getD [] ++ d.members.toList.filter (·.identity = i) := by
  rw [overlay, history_foldl_adopt _ _ hi]
  rfl

end Inherited

end Disinherit
