import Disinherit.Proofs.Members.Stations

/-!
# Members as one flat list

The categories of `Members` are a way of storing one list: that of the members in the order in which
they were inserted. `MembersOp` names the four operations on members, `Members.step` is what they do
to the categories, and `flatStep` is what they do to the list. There an insertion is an `append`,
except that a constructor takes the place of the one before, and the other operations look for the
first entry that an identity asks for or filter by property and owner. No category occurs in it.

`Members.Holds` ties the two together: what stands at each station is what the list has for it, in
the order of the list. Every operation keeps this and answers the same on both sides (`Holds.step`),
and so does every run (`holds_runFrom`). What a class shows of its members follows from it alone.
The listing in the order of writing is the list, sorted by the turns of the members, and those with
the same turn stay in order (`Holds.toList_eq`).
-/

namespace Disinherit

/-! ### Operations and runs -/

/-- What can be done with the members of a class. -/
inductive MembersOp where
  | insert (m : Member)
  | find (i : Identity)
  | erase (i : Identity)
  | vacate (k : PropertyKey) (keeper : String)

/-- A run of operations: what they leave in the end, and their answers in order. -/
def runFrom {σ α : Type} (step : σ → MembersOp → σ × α) (s : σ) : List MembersOp → σ × List α
  | [] => (s, [])
  | op :: ops =>
    let next := step s op
    let rest := runFrom step next.1 ops
    (rest.1, next.2 :: rest.2)

/-- An operation on members by category. To erase answers with the member that is taken out. -/
def Members.step (s : Members) : MembersOp → Members × Option Member
  | .insert m => (s.insert m, none)
  | .find i => (s, s.find? i)
  | .erase i => (s.erase i, s.find? i)
  | .vacate k keeper => (s.vacate k keeper, none)

/-- The entries that an identity asks for. A constructor is meant whatever else the identity
says. -/
def Identity.asksFor (i : Identity) (m : Member) : Bool :=
  if i.kind = .constructor then m.kind = .constructor else m.identity = i

/-- An operation on one list of members. -/
def flatStep (l : List Member) : MembersOp → List Member × Option Member
  | .insert m =>
    ((if m.kind = .constructor then l.filter (·.kind ≠ .constructor) else l) ++ [m], none)
  | .find i => (l, l.find? i.asksFor)
  | .erase i => (l.eraseP i.asksFor, l.find? i.asksFor)
  | .vacate k keeper =>
    (l.filter fun m => ¬ ((m.kind = .method ∨ m.kind = .getter ∨ m.kind = .setter) ∧
      m.identity.property = k ∧ m.owner ≠ keeper), none)

/-! ### What the list has for a station -/

namespace Members

/-- Each station holds what the list has for it, in the order of the list. -/
def Holds (s : Members) (l : List Member) : Prop :=
  ∀ k, s.atStation k = l.filter (·.station = k)

variable {s : Members} {l : List Member}

theorem holds_empty : Holds ∅ [] := by
  intro k
  cases k with
  | none => rfl
  | some c => exact inCategory_empty c

namespace Holds

theorem inCategory_eq (h : s.Holds l) (c : Category) :
    s.inCategory c = l.filter (·.station = some c) :=
  h (some c)

/-- The list has one constructor at most, the one that is kept apart. -/
theorem constructor_eq (h : s.Holds l) :
    s.constructor.toList = l.filter (·.kind = .constructor) := by
  rw [show s.constructor.toList = l.filter (·.station = none) from h none]
  exact List.filter_congr fun m _ => decide_eq_decide.2 station_eq_none_iff

theorem filed (h : s.Holds l) : s.Filed where
  fits c m hm := by
    rw [h.inCategory_eq] at hm
    rw [fits_eq_station]
    exact (List.mem_filter.1 hm).2
  constructor m hm := by
    have hm' : m ∈ l.filter (·.kind = .constructor) := h.constructor_eq ▸ Option.mem_toList.2 hm
    exact of_decide_eq_true (List.mem_filter.1 hm').2

/-- The order of writing is the order of insertion, sorted by the turns of the members. -/
theorem toList_eq (h : s.Holds l) : s.toList = l.mergeSort fun a b => a.turn ≤ b.turn := by
  have hstation : ∀ m ∈ l, m.station ∈ stations := fun m _ => mem_stations m.station
  calc s.toList
      = stations.flatMap s.atStation := s.toList_eq_flatMap
    _ = stations.flatMap fun k => l.filter (·.station = k) := List.flatMap_congr fun k _ => h k
    _ = l.mergeSort fun a b => a.turn ≤ b.turn :=
    (mergeSort_eq_flatMap pairwise_stations hstation).symm

theorem size_eq (h : s.Holds l) : s.size = l.length := by
  rw [size, h.toList_eq, List.length_mergeSort]

/-! ### One operation -/

theorem insert (h : s.Holds l) (m : Member) : (s.insert m).Holds (flatStep l (.insert m)).1 := by
  intro k
  show _ = (_ ++ [m]).filter _
  rw [List.filter_append]
  cases k with
  | some c =>
    -- whether or not a constructor makes room, the other stations see none of it
    have hlist : (if m.kind = .constructor then l.filter (·.kind ≠ .constructor) else l).filter
        (·.station = some c) = l.filter (·.station = some c) := by
      split
      · rw [List.filter_filter]
        refine List.filter_congr fun a _ => ?_
        by_cases ha : a.kind = .constructor
        · simp [Member.station, ha]
        · simp [ha]
      · rfl
    show (s.insert m).inCategory c = _
    rw [inCategory_insert, hlist, h.inCategory_eq, fits_eq_station]
    cases hm : decide (m.station = some c) <;> simp [hm]
  | none =>
    -- a new constructor takes the place of the old one, and other members leave it alone
    have hnone : ∀ l' : List Member,
        l'.filter (·.station = none) = l'.filter (·.kind = .constructor) :=
      fun l' => List.filter_congr fun a _ => decide_eq_decide.2 station_eq_none_iff
    show (s.insert m).constructor.toList = _
    rw [constructor_insert, hnone, hnone]
    by_cases hm : m.kind = .constructor
    · simp [hm, List.filter_filter]
    · rw [if_neg hm, if_neg hm, h.constructor_eq, List.filter_singleton, decide_eq_false hm]
      exact (List.append_nil _).symm

theorem find?_eq (h : s.Holds l) (i : Identity) : s.find? i = l.find? i.asksFor := by
  unfold find?
  by_cases hi : i.kind = .constructor
  · -- any constructor will do when a constructor is asked for
    have hasks : i.asksFor = fun m => decide (m.kind = .constructor) := funext fun m => if_pos hi
    rw [if_pos hi, hasks, ← List.head?_filter, ← h.constructor_eq]
    cases s.constructor <;> rfl
  · rw [if_neg hi, h.inCategory_eq, List.find?_filter]
    -- an entry with the identity stands where the identity belongs
    congr 1
    funext m
    rw [Identity.asksFor, if_neg hi]
    refine decide_eq_decide.2 ⟨fun hm => of_decide_eq_true hm.2, ?_⟩
    rintro rfl
    exact ⟨decide_eq_true (if_neg hi), decide_eq_true rfl⟩

/-- An entry that an identity asks for stands at the station of the identity. -/
theorem station_of_asksFor {i : Identity} {m : Member} (h : i.asksFor m = true) :
    m.station = if i.kind = .constructor then none else some i.category := by
  unfold Identity.asksFor at h
  split at h
  · next hi =>
    rw [if_pos hi, station_eq_none_iff]
    exact of_decide_eq_true h
  · next hi =>
    obtain rfl := of_decide_eq_true h
    rfl

theorem erase (h : s.Holds l) (i : Identity) : (s.erase i).Holds (flatStep l (.erase i)).1 := by
  intro k
  show _ = (l.eraseP i.asksFor).filter _
  by_cases hk : k = if i.kind = .constructor then none else some i.category
  · -- the entry is taken out of its own station
    rw [filter_eraseP_of_imp fun m hm => decide_eq_true ((station_of_asksFor hm).trans hk.symm),
      ← h k]
    subst hk
    by_cases hi : i.kind = .constructor
    · rw [if_pos hi]
      show (s.erase i).constructor.toList = s.constructor.toList.eraseP i.asksFor
      rw [constructor_erase, if_pos hi]
      cases hc : s.constructor with
      | none => rfl
      | some m =>
        have hasks : i.asksFor m = true := by
          rw [Identity.asksFor, if_pos hi]
          exact decide_eq_true (h.filed.constructor m hc)
        exact (List.eraseP_cons_of_pos hasks).symm
    · rw [if_neg hi]
      have hasks : i.asksFor = fun m => decide (m.identity = i) := funext fun m => if_neg hi
      show (s.erase i).inCategory i.category = (s.inCategory i.category).eraseP i.asksFor
      rw [inCategory_erase, if_pos ⟨hi, rfl⟩, hasks]
  · -- and the other stations stay as they are
    rw [filter_eraseP_of_not fun m hm => decide_eq_false fun hm' =>
      hk (hm'.symm.trans (station_of_asksFor hm)), ← h k]
    cases k with
    | none =>
      have hi : ¬ i.kind = .constructor := fun hi => hk (if_pos hi).symm
      show (s.erase i).constructor.toList = s.constructor.toList
      rw [constructor_erase, if_neg hi]
    | some c =>
      show (s.erase i).inCategory c = s.inCategory c
      rw [inCategory_erase, if_neg]
      rintro ⟨hi, rfl⟩
      exact hk (if_neg hi).symm

theorem vacate (h : s.Holds l) (k : PropertyKey) (keeper : String) :
    (s.vacate k keeper).Holds (flatStep l (.vacate k keeper)).1 := by
  have hflat : (flatStep l (.vacate k keeper)).1 = l.filter fun m => !isDisplaced k keeper m := by
    refine List.filter_congr fun m _ => ?_
    rw [isDisplaced, Bool.eq_iff_iff]
    cases m.kind <;> simp [MemberKind.onPrototype]
  intro k'
  rw [hflat, List.filter_comm, ← h k']
  cases k' with
  | none =>
    -- a constructor is not among the methods and accessors
    show (s.vacate k keeper).constructor.toList = s.constructor.toList.filter _
    rw [constructor_vacate, List.filter_eq_self.2]
    intro m hm
    have hk := h.filed.constructor m (Option.mem_toList.1 hm)
    simp [isDisplaced, hk, MemberKind.onPrototype]
  | some c =>
    -- elsewhere both filter by the same test
    show (s.vacate k keeper).inCategory c = (s.inCategory c).filter _
    rw [inCategory_vacate]
    split
    · rfl
    · next hc =>
      -- the categories that are passed over hold nothing of the kind
      rw [List.filter_eq_self.2]
      intro m hm
      have hcat := (fits_iff.1 (h.filed.fits c m hm)).2
      rw [Bool.not_eq_true', isDisplaced, Bool.and_assoc, Bool.and_eq_false_iff]
      refine .inl (Bool.eq_false_iff.2 fun hproto => hc ?_)
      rw [← hcat]
      exact Identity.category_mem_onPrototype hproto

/-- An operation does the same to the categories and to the list, and answers the same. -/
theorem step (h : s.Holds l) (op : MembersOp) :
    (s.step op).1.Holds (flatStep l op).1 ∧ (s.step op).2 = (flatStep l op).2 := by
  cases op with
  | insert m => exact ⟨h.insert m, rfl⟩
  | find i => exact ⟨h, h.find?_eq i⟩
  | erase i => exact ⟨h.erase i, h.find?_eq i⟩
  | vacate k keeper => exact ⟨h.vacate k keeper, rfl⟩

end Holds

/-! ### Runs -/

/-- A run does the same to the categories and to the list, and has the same answers. -/
theorem holds_runFrom (ops : List MembersOp) (h : s.Holds l) :
    (runFrom Members.step s ops).1.Holds (runFrom flatStep l ops).1 ∧
      (runFrom Members.step s ops).2 = (runFrom flatStep l ops).2 := by
  induction ops generalizing s l with
  | nil => exact ⟨h, rfl⟩
  | cons op ops ih =>
    -- each operation keeps the two in step and gives the same answer
    obtain ⟨hnext, hanswer⟩ := h.step op
    obtain ⟨hrest, hanswers⟩ := ih hnext
    exact ⟨hrest, congrArg₂ List.cons hanswer hanswers⟩

/-- What a class shows of its members, told by the list of them. -/
structure Presents (s : Members) (l : List Member) : Prop where
  /-- They are listed as in the list, sorted by their turns; those with the same turn stay in
  order. -/
  listed : s.toList = l.mergeSort fun a b => a.turn ≤ b.turn
  /-- Every member sits in the category of its identity, and the constructor apart. -/
  filed : s.Filed
  /-- Within a category, and at the place of the constructor, nothing is missing. -/
  stored : s.Holds l
  /-- Their number is the number of entries. -/
  counted : s.size = l.length

end Members

/-- **Members behave as one list in the order of insertion.** Whatever is done to an empty class,
every operation answers as it does on the list, and what the class holds in the end, category by
category or in the order of writing, is what the list has. -/
theorem presents_runFrom (ops : List MembersOp) :
    (runFrom Members.step ∅ ops).2 = (runFrom flatStep [] ops).2 ∧
      (runFrom Members.step ∅ ops).1.Presents (runFrom flatStep [] ops).1 := by
  obtain ⟨hstored, hanswers⟩ := Members.holds_runFrom ops Members.holds_empty
  exact ⟨hanswers, hstored.toList_eq, hstored.filed, hstored, hstored.size_eq⟩

end Disinherit
