import Disinherit.Member.Members
import Mathlib.Data.List.Basic
import Mathlib.Tactic.Common

/-!
# Members as lists

What the operations on `Members` do to each of its categories, said about the lists alone.

Everything that adds a member, in one class body or along a lineage, goes through `Members.declare`.
In the list of a category it takes out the earlier declaration of the same identity and puts the new
one at the end. Two notions describe the outcome of many such steps:

* `Member.yieldsTo`: the earlier declaration has to make room for the later one. Static blocks never
  do, since all of them share one identity.
* `standing ms`: the declarations of `ms` to which no later one in `ms` is preferred.

`foldl_replaceIn` is the run lemma: declaring `ms` over a list without repetitions leaves what does
not yield to any of `ms`, followed by `standing ms`. `inCategory_ofDeclarations` is the case of a
class body, where nothing was there before.

`Members.Filed` says that every member sits in the category of its identity, and that constructors
are kept apart. It holds of everything that is built by declarations, and it makes membership in
`toList` a matter of one category (`Filed.mem_toList`).
-/

namespace Disinherit

/-! ### Declarations that replace each other -/

/-- Kind and property make up an identity. -/
theorem Identity.eq_of_property {i j : Identity} (hk : i.kind = j.kind)
    (hp : i.property = j.property) : i = j := by
  obtain ⟨hstatic, hvisibility, hname⟩ := PropertyKey.mk.inj hp
  rw [Identity.mk.injEq]
  exact ⟨hstatic, hk, hvisibility, hname⟩

theorem MemberKind.ne_constructor_of_onPrototype {kind : MemberKind}
    (h : kind.onPrototype = true) : kind ≠ .constructor := by
  rintro rfl
  cases h

/-- A declaration has to make room for a later one with its identity, unless it is a static
block. -/
def Member.yieldsTo (a b : Member) : Bool :=
  a.kind != .staticBlock && a.identity == b.identity

theorem Member.yieldsTo_iff {a b : Member} :
    a.yieldsTo b = true ↔ a.kind ≠ .staticBlock ∧ a.identity = b.identity := by
  simp [yieldsTo]

/-- No two members of the list are declarations of one identity, static blocks apart. -/
def Distinct (ms : List Member) : Prop :=
  ms.Pairwise fun a b => a.yieldsTo b = false

/-- The declarations of a list that make room for no later one. -/
def standing : List Member → List Member
  | [] => []
  | m :: ms => if ms.any m.yieldsTo then standing ms else m :: standing ms

theorem standing_sublist (ms : List Member) : (standing ms).Sublist ms := by
  induction ms with
  | nil => exact .refl _
  | cons m ms ih =>
    rw [standing]
    split
    · exact ih.cons m
    · exact ih.cons_cons m

theorem distinct_standing (ms : List Member) : Distinct (standing ms) := by
  induction ms with
  | nil => exact .nil
  | cons m ms ih =>
    rw [standing]
    split
    · exact ih
    · -- `m` makes room for nothing that follows, and what stands of it is part of it
      next h =>
      refine List.pairwise_cons.2 ⟨fun b hb => ?_, ih⟩
      have hb' : b ∈ ms := (standing_sublist ms).mem hb
      simpa using fun hy => h (List.any_eq_true.2 ⟨b, hb', hy⟩)

/-- Without repetitions everything stands. -/
theorem standing_eq_self {ms : List Member} (h : Distinct ms) : standing ms = ms := by
  induction ms with
  | nil => rfl
  | cons m ms ih =>
    obtain ⟨hm, hms⟩ := List.pairwise_cons.1 h
    have hany : ms.any m.yieldsTo = false := by
      rw [List.any_eq_false]
      intro b hb
      simp [hm b hb]
    rw [standing, hany, ih hms]
    rfl

/-- A choice by identity commutes with `standing`. -/
theorem standing_filter {p : Member → Bool}
    (hp : ∀ a b : Member, a.identity = b.identity → p a = p b) (ms : List Member) :
    standing (ms.filter p) = (standing ms).filter p := by
  induction ms with
  | nil => rfl
  | cons m ms ih =>
    by_cases hm : p m = true
    · -- whatever `m` yields to has its identity and is chosen along with it
      have hany : (ms.filter p).any m.yieldsTo = ms.any m.yieldsTo := by
        rw [Bool.eq_iff_iff, List.any_eq_true, List.any_eq_true]
        refine ⟨fun ⟨b, hb, hy⟩ => ⟨b, (List.mem_filter.1 hb).1, hy⟩, fun ⟨b, hb, hy⟩ => ?_⟩
        have hpb : p b = true := by rw [← hp m b (Member.yieldsTo_iff.1 hy).2, hm]
        exact ⟨b, List.mem_filter.2 ⟨hb, hpb⟩, hy⟩
      rw [List.filter_cons_of_pos hm, standing, standing, hany, ih]
      split
      · rfl
      · rw [List.filter_cons_of_pos hm]
    · -- what is not chosen does not count on either side
      rw [List.filter_cons_of_neg hm, ih, standing]
      split
      · rfl
      · rw [List.filter_cons_of_neg hm]

/-- In a list, a later declaration takes the place of the earlier one and goes to the end. -/
def replaceIn (l : List Member) (m : Member) : List Member :=
  l.eraseP (·.yieldsTo m) ++ [m]

/-- Among distinct members at most one yields, so that taking out the first takes out all. -/
theorem eraseP_yieldsTo {l : List Member} (h : Distinct l) (m : Member) :
    l.eraseP (·.yieldsTo m) = l.filter fun x => !x.yieldsTo m := by
  induction l with
  | nil => rfl
  | cons a l ih =>
    obtain ⟨ha, hl⟩ := List.pairwise_cons.1 h
    by_cases hy : a.yieldsTo m = true
    · -- another one that yields would have the identity of `a`
      have hrest : l.filter (fun x => !x.yieldsTo m) = l := by
        refine List.filter_eq_self.2 fun b hb => ?_
        have hab := ha b hb
        rw [Member.yieldsTo_iff] at hy
        rw [Bool.eq_false_iff, Ne, Member.yieldsTo_iff] at hab
        rw [Bool.not_eq_true', Bool.eq_false_iff, Ne, Member.yieldsTo_iff]
        exact fun hbm => hab ⟨hy.1, hy.2.trans hbm.2.symm⟩
      rw [List.filter_cons_of_neg (by simp [hy]), hrest, List.eraseP_cons, hy]
      rfl
    · rw [List.filter_cons_of_pos (by simp [hy]), ← ih hl, List.eraseP_cons,
        Bool.eq_false_iff.2 hy]
      rfl

theorem distinct_replaceIn {l : List Member} (h : Distinct l) (m : Member) :
    Distinct (replaceIn l m) := by
  rw [replaceIn, eraseP_yieldsTo h]
  refine List.pairwise_append.2 ⟨h.filter _, List.pairwise_singleton _ _, fun a ha b hb => ?_⟩
  obtain rfl := List.mem_singleton.1 hb
  simpa using (List.mem_filter.1 ha).2

/-- Declaring `ms` over distinct members leaves those that make room for none of `ms`, followed by
those of `ms` that stand. -/
theorem foldl_replaceIn (ms : List Member) : ∀ {l : List Member}, Distinct l →
    ms.foldl replaceIn l = l.filter (fun x => !ms.any x.yieldsTo) ++ standing ms := by
  induction ms with
  | nil =>
    intro l _
    simp [standing]
  | cons m ms ih =>
    intro l hl
    -- the first step leaves distinct members, and `m` at their end is kept or not by what follows
    rw [List.foldl_cons, ih (distinct_replaceIn hl m), replaceIn, eraseP_yieldsTo hl,
      List.filter_append, List.filter_filter, List.append_assoc]
    have hkeep : l.filter (fun x => !ms.any x.yieldsTo && !x.yieldsTo m)
        = l.filter fun x => !(m :: ms).any x.yieldsTo := by
      refine List.filter_congr fun x _ => ?_
      rw [List.any_cons, Bool.not_or, Bool.and_comm]
    rw [hkeep, standing]
    congr 1
    cases h : ms.any m.yieldsTo <;> simp [h]

/-! ### One category at a time -/

namespace Members

/-- Members are told apart by their categories and the constructor. -/
theorem ext_inCategory {s t : Members} (h : ∀ c, s.inCategory c = t.inCategory c)
    (hc : s.constructor = t.constructor) : s = t := by
  cases s
  cases t
  simp only [mk.injEq]
  exact ⟨hc, h .staticPrivateField, h .staticPublicField, h .staticBlock, h .staticPrivateMethod,
    h .staticPublicMethod, h .privateField, h .publicField, h .accessor, h .privateMethod,
    h .publicMethod⟩

/-- A member that belongs into a category. -/
def fits (c : Category) (m : Member) : Bool :=
  m.kind != .constructor && m.identity.category == c

theorem fits_iff {c : Category} {m : Member} :
    fits c m = true ↔ m.kind ≠ .constructor ∧ m.identity.category = c := by
  simp [fits]

theorem fits_congr (c : Category) (a b : Member) (h : a.identity = b.identity) :
    fits c a = fits c b := by
  simp [fits, Member.kind, h]

theorem inCategory_insert (s : Members) (m : Member) (c : Category) :
    (s.insert m).inCategory c = s.inCategory c ++ if fits c m then [m] else [] := by
  unfold insert
  by_cases hk : m.kind = .constructor
  · -- a constructor fits into no category
    have hno : fits c m = false := by simp [fits, hk]
    rw [if_pos hk, hno]
    cases c <;> simp [inCategory]
  · rw [if_neg hk, inCategory_put]
    by_cases hc : c = m.identity.category
    · subst hc
      simp [fits, hk]
    · have hno : fits c m = false := by simp [fits, Ne.symm hc]
      simp [hc, hno]

theorem constructor_insert (s : Members) (m : Member) :
    (s.insert m).constructor = if m.kind = .constructor then some m else s.constructor := by
  unfold insert
  split <;> simp

theorem inCategory_erase (s : Members) (i : Identity) (c : Category) :
    (s.erase i).inCategory c = if i.kind ≠ .constructor ∧ i.category = c then
      (s.inCategory c).eraseP (·.identity = i) else s.inCategory c := by
  unfold erase
  by_cases hk : i.kind = .constructor
  · rw [if_pos hk, if_neg (by simp [hk])]
    cases c <;> rfl
  · rw [if_neg hk, inCategory_put]
    by_cases hc : c = i.category
    · subst hc
      simp [hk]
    · simp [hc, Ne.symm hc]

theorem constructor_erase (s : Members) (i : Identity) :
    (s.erase i).constructor = if i.kind = .constructor then none else s.constructor := by
  unfold erase
  split <;> simp

/-- Declaring a member changes the list of its category as `replaceIn` does. -/
theorem inCategory_declare (s : Members) (m : Member) (c : Category) :
    (s.declare m).inCategory c
      = if fits c m then replaceIn (s.inCategory c) m else s.inCategory c := by
  unfold declare
  by_cases hb : m.kind = .staticBlock
  · -- static blocks make room for nothing, so that `replaceIn` only appends
    have hnone : (s.inCategory c).eraseP (·.yieldsTo m) = s.inCategory c := by
      refine List.eraseP_of_forall_not fun a _ hy => ?_
      obtain ⟨ha, hi⟩ := Member.yieldsTo_iff.1 hy
      exact ha (by rw [Member.kind, hi]; exact hb)
    rw [if_pos hb, inCategory_insert, replaceIn, hnone]
    split <;> simp
  · rw [if_neg hb, inCategory_insert, inCategory_erase]
    by_cases hf : fits c m = true
    · -- to yield to `m` means to have its identity, now that `m` is not a static block
      have hp : (fun a : Member => decide (a.identity = m.identity)) = (·.yieldsTo m) := by
        funext a
        rw [Bool.eq_iff_iff, decide_eq_true_iff, Member.yieldsTo_iff]
        refine ⟨fun h => ⟨?_, h⟩, fun h => h.2⟩
        rw [Member.kind, h]
        exact hb
      have hfit : m.identity.kind ≠ .constructor ∧ m.identity.category = c := fits_iff.1 hf
      rw [if_pos hf, if_pos hf, if_pos hfit, hp, replaceIn]
    · have hunfit : ¬ (m.identity.kind ≠ .constructor ∧ m.identity.category = c) :=
        fun h => hf (fits_iff.2 h)
      rw [if_neg hf, if_neg hf, if_neg hunfit, List.append_nil]

theorem constructor_declare (s : Members) (m : Member) :
    (s.declare m).constructor = if m.kind = .constructor then some m else s.constructor := by
  unfold declare
  by_cases hb : m.kind = .staticBlock
  · rw [if_pos hb, constructor_insert]
  · rw [if_neg hb, constructor_insert, constructor_erase]
    by_cases hk : m.kind = .constructor
    · rw [if_pos hk, if_pos hk]
    · rw [if_neg hk, if_neg hk, if_neg (show ¬ m.identity.kind = .constructor from hk)]

/-- A run of declarations, seen in one category. -/
theorem inCategory_foldl_declare (ms : List Member) (s : Members) (c : Category) :
    (ms.foldl declare s).inCategory c = (ms.filter (fits c)).foldl replaceIn (s.inCategory c) := by
  induction ms generalizing s with
  | nil => rfl
  | cons m ms ih =>
    rw [List.foldl_cons, ih, inCategory_declare]
    -- a member of another category leaves this one as it is
    by_cases hf : fits c m = true
    · rw [if_pos hf, List.filter_cons_of_pos hf, List.foldl_cons]
    · rw [if_neg hf, List.filter_cons_of_neg hf]

/-- Of the constructors that come one after the other the last one counts. -/
theorem constructor_foldl {step : Members → Member → Members}
    (hstep : ∀ s m,
      (step s m).constructor = if m.kind = .constructor then some m else s.constructor)
    (ms : List Member) (s : Members) :
    (ms.foldl step s).constructor
      = (ms.filter (·.kind = .constructor)).getLast?.or s.constructor := by
  induction ms generalizing s with
  | nil => rfl
  | cons m ms ih =>
    rw [List.foldl_cons, ih, hstep]
    by_cases hk : m.kind = .constructor
    · -- a later constructor takes the place of this one
      rw [if_pos hk, List.filter_cons_of_pos (by simpa using hk), List.getLast?_cons]
      cases (ms.filter (·.kind = .constructor)).getLast? <;> rfl
    · rw [if_neg hk, List.filter_cons_of_neg (by simpa using hk)]

/-- The members of a class body in a category: its declarations that stand. -/
theorem inCategory_ofDeclarations (ms : List Member) (c : Category) :
    (ofDeclarations ms).inCategory c = (standing ms).filter (fits c) := by
  have hempty : Distinct ((∅ : Members).inCategory c) := by
    rw [show (∅ : Members).inCategory c = [] from inCategory_empty c]
    exact .nil
  rw [ofDeclarations, inCategory_foldl_declare, foldl_replaceIn _ hempty,
    show (∅ : Members).inCategory c = [] from inCategory_empty c, List.filter_nil, List.nil_append,
    standing_filter (fits_congr c)]

theorem constructor_ofDeclarations (ms : List Member) :
    (ofDeclarations ms).constructor = (ms.filter (·.kind = .constructor)).getLast? := by
  rw [ofDeclarations, constructor_foldl constructor_declare]
  exact Option.or_none

/-- Vacating a property concerns the categories that can hold methods and accessors. -/
theorem inCategory_vacate (s : Members) (k : PropertyKey) (keeper : String) (c : Category) :
    (s.vacate k keeper).inCategory c = if c ∈ Category.onPrototype then
      (s.inCategory c).filter (fun m => !isDisplaced k keeper m) else s.inCategory c := by
  cases c <;> simp [vacate, Category.onPrototype]

@[simp] theorem constructor_vacate (s : Members) (k : PropertyKey) (keeper : String) :
    (s.vacate k keeper).constructor = s.constructor := by
  simp [vacate, Category.onPrototype]

/-! ### Members that are filed by identity -/

/-- Every member sits in the category of its identity, and constructors are kept apart. -/
structure Filed (s : Members) : Prop where
  /-- A category holds only members that belong there. -/
  fits : ∀ c, ∀ m ∈ s.inCategory c, fits c m = true
  /-- The place of the constructor holds constructors only. -/
  constructor : ∀ m ∈ s.constructor, m.kind = .constructor

theorem filed_ofDeclarations (ms : List Member) : Filed (ofDeclarations ms) where
  fits c m hm := by
    rw [inCategory_ofDeclarations] at hm
    exact (List.mem_filter.1 hm).2
  constructor m hm := by
    rw [constructor_ofDeclarations] at hm
    simpa using (List.mem_filter.1 (List.mem_of_getLast? hm)).2

theorem mem_toList {s : Members} {m : Member} :
    m ∈ s.toList ↔ (∃ c, m ∈ s.inCategory c) ∨ m ∈ s.constructor := by
  have hall : ∀ c, c ∈ Category.beforeConstructor ∨ c ∈ Category.afterConstructor := by
    intro c
    cases c <;> decide
  simp only [toList, List.mem_append, List.mem_flatMap, Option.mem_toList]
  constructor
  · rintro ((⟨c, -, h⟩ | h) | ⟨c, -, h⟩)
    · exact .inl ⟨c, h⟩
    · exact .inr h
    · exact .inl ⟨c, h⟩
  · rintro (⟨c, h⟩ | h)
    · rcases hall c with hc | hc
      · exact .inl (.inl ⟨c, hc, h⟩)
      · exact .inr ⟨c, hc, h⟩
    · exact .inl (.inr h)

/-- A filed member is found in one place only. -/
theorem Filed.mem_toList {s : Members} (hs : Filed s) {m : Member} :
    m ∈ s.toList ↔ if m.kind = .constructor then m ∈ s.constructor
      else m ∈ s.inCategory m.identity.category := by
  rw [Members.mem_toList]
  by_cases hk : m.kind = .constructor
  · rw [if_pos hk]
    exact ⟨fun h => h.resolve_left fun ⟨c, hc⟩ => (fits_iff.1 (hs.fits c m hc)).1 hk, .inr⟩
  · rw [if_neg hk]
    constructor
    · -- a member is in the category that it fits
      rintro (⟨c, hc⟩ | hc)
      · rw [(fits_iff.1 (hs.fits c m hc)).2]
        exact hc
      · exact absurd (hs.constructor m hc) hk
    · exact fun h => .inl ⟨_, h⟩

end Members

/-! ### Kinds and categories -/

namespace Identity

/-- A method or an accessor is filed where methods and accessors are. -/
theorem category_mem_onPrototype {i : Identity} (h : i.kind.onPrototype = true) :
    i.category ∈ Category.onPrototype := by
  obtain ⟨isStatic, kind, visibility, name⟩ := i
  cases kind with
  | method => cases isStatic <;> cases visibility <;> simp [Identity.category, Category.onPrototype]
  | getter => simp [Identity.category, Category.onPrototype]
  | setter => simp [Identity.category, Category.onPrototype]
  | field => cases h
  | constructor => cases h
  | staticBlock => cases h

/-- Only static blocks are filed with the static blocks. -/
theorem kind_of_category_staticBlock {i : Identity} (h : i.category = .staticBlock) :
    i.kind = .staticBlock := by
  obtain ⟨isStatic, kind, visibility, name⟩ := i
  cases kind with
  | staticBlock => rfl
  | getter => cases h
  | setter => cases h
  | field => cases isStatic <;> cases visibility <;> cases h
  | method => cases isStatic <;> cases visibility <;> cases h
  | constructor => cases isStatic <;> cases visibility <;> cases h

end Identity

/-! ### Listed members, sorted out again -/

namespace Members.Filed

variable {s : Members}

/-- Of the members in the order of writing, those of a category are the list of that category. -/
theorem filter_fits (hs : s.Filed) (c : Category) :
    s.toList.filter (Members.fits c) = s.inCategory c := by
  -- what is in a category fits into that one only, and constructors fit into none
  have hcat : ∀ c', (s.inCategory c').filter (Members.fits c)
      = if c' = c then s.inCategory c else [] := by
    intro c'
    by_cases hc : c' = c
    · subst hc
      rw [if_pos rfl]
      exact List.filter_eq_self.2 (hs.fits c')
    · rw [if_neg hc]
      refine List.filter_eq_nil_iff.2 fun m hm hf => hc ?_
      rw [← (fits_iff.1 (hs.fits c' m hm)).2, (fits_iff.1 hf).2]
  have hctor : s.constructor.toList.filter (Members.fits c) = [] := by
    refine List.filter_eq_nil_iff.2 fun m hm hf => ?_
    exact (fits_iff.1 hf).1 (hs.constructor m (Option.mem_toList.1 hm))
  rw [toList, List.filter_append, List.filter_append, List.filter_flatMap, List.filter_flatMap,
    hctor]
  cases c <;> simp [hcat, Category.beforeConstructor, Category.afterConstructor]

/-- Of the members in the order of writing, the constructor is the only one of its kind. -/
theorem filter_constructor (hs : s.Filed) :
    s.toList.filter (·.kind = .constructor) = s.constructor.toList := by
  have hcat : ∀ c, (s.inCategory c).filter (·.kind = .constructor) = [] := by
    intro c
    refine List.filter_eq_nil_iff.2 fun m hm hk => ?_
    exact (fits_iff.1 (hs.fits c m hm)).1 (by simpa using hk)
  have hctor : s.constructor.toList.filter (·.kind = .constructor) = s.constructor.toList := by
    refine List.filter_eq_self.2 fun m hm => ?_
    simpa using hs.constructor m (Option.mem_toList.1 hm)
  rw [toList, List.filter_append, List.filter_append, List.filter_flatMap, List.filter_flatMap,
    hctor]
  simp [hcat, Category.beforeConstructor, Category.afterConstructor]

/-- The declarations of an identity are found in one category. -/
theorem filter_identity (hs : s.Filed) {i : Identity} (hi : i.kind ≠ .constructor) :
    s.toList.filter (·.identity = i) = (s.inCategory i.category).filter (·.identity = i) := by
  rw [← hs.filter_fits, List.filter_filter]
  refine List.filter_congr fun m _ => ?_
  by_cases hm : m.identity = i
  · have hf : Members.fits i.category m = true :=
      fits_iff.2 ⟨by rw [Member.kind, hm]; exact hi, by rw [hm]⟩
    simp [hm, hf]
  · simp [hm]

end Members.Filed

end Disinherit
