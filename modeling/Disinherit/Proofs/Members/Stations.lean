import Disinherit.Proofs.Lists
import Disinherit.Proofs.Members

/-!
# The order of writing

The members of a class are written out category by category, and the constructor has a place of its
own among the categories. `stations` is the list of these places and `Member.turn` the number of the
place of a member.

Members that are kept by category are in the order of their turns (`Filed.pairwise_turn`). If a list
of members is put into an empty class one by one, the class shows the same list just if the turns
were in order before (`toList_ofList_eq_self_iff`).
-/

namespace Disinherit

/-- The categories in the order of writing, and among them `none` for the constructor. -/
def stations : List (Option Category) :=
  Category.beforeConstructor.map some ++ none :: Category.afterConstructor.map some

/-- Where in this order a member is written. -/
def Member.station (m : Member) : Option Category :=
  if m.kind = .constructor then none else some m.identity.category

/-- The number of stations before that of a member. -/
def Member.turn (m : Member) : Nat :=
  stations.idxOf m.station

theorem pairwise_stations : stations.Pairwise fun k k' => stations.idxOf k < stations.idxOf k' := by
  decide

theorem mem_stations (k : Option Category) : k ∈ stations := by
  cases k with
  | none => decide
  | some c => cases c <;> decide

namespace Members

theorem fits_eq_station (c : Category) (m : Member) : fits c m = decide (m.station = some c) := by
  rw [Bool.eq_iff_iff, fits_iff, decide_eq_true_iff, Member.station]
  by_cases hk : m.kind = .constructor
  · simp [hk]
  · simp [hk]

theorem station_eq_none_iff {m : Member} : m.station = none ↔ m.kind = .constructor := by
  simp [Member.station]

/-- The members of a station. -/
def atStation (s : Members) : Option Category → List Member
  | some c => s.inCategory c
  | none => s.constructor.toList

theorem toList_eq_flatMap (s : Members) : s.toList = stations.flatMap s.atStation := by
  rw [stations, List.flatMap_append, List.flatMap_cons, List.flatMap_map, List.flatMap_map,
    ← List.append_assoc]
  rfl

/-- Members that are filed are written station by station. -/
theorem Filed.atStation_eq {s : Members} (hs : s.Filed) (k : Option Category) :
    s.atStation k = s.toList.filter (·.station = k) := by
  cases k with
  | some c =>
    show s.inCategory c = _
    rw [← hs.filter_fits c]
    exact List.filter_congr fun m _ => fits_eq_station c m
  | none =>
    show s.constructor.toList = _
    rw [← hs.filter_constructor]
    exact List.filter_congr fun m _ => decide_eq_decide.2 station_eq_none_iff.symm

/-- Members that are filed are in the order of writing. -/
theorem Filed.pairwise_turn {s : Members} (hs : s.Filed) :
    s.toList.Pairwise fun a b => a.turn ≤ b.turn := by
  have hgroups : s.toList = stations.flatMap fun k => s.toList.filter (·.station = k) :=
    s.toList_eq_flatMap.trans (List.flatMap_congr fun k _ => hs.atStation_eq k)
  rw [hgroups]
  exact pairwise_flatMap_filter pairwise_stations s.toList

/-- The members of a list, put one by one into an empty class. -/
def ofList (ms : List Member) : Members :=
  ms.foldl insert ∅

theorem inCategory_foldl_insert (ms : List Member) (s : Members) (c : Category) :
    (ms.foldl insert s).inCategory c = s.inCategory c ++ ms.filter (fits c) := by
  induction ms generalizing s with
  | nil => simp
  | cons m ms ih =>
    rw [List.foldl_cons, ih, inCategory_insert, List.append_assoc]
    by_cases hf : fits c m = true
    · rw [if_pos hf, List.filter_cons_of_pos hf, List.singleton_append]
    · rw [if_neg hf, List.filter_cons_of_neg hf, List.nil_append]

theorem inCategory_ofList (ms : List Member) (c : Category) :
    (ofList ms).inCategory c = ms.filter (fits c) := by
  rw [ofList, inCategory_foldl_insert]
  exact congrArg (· ++ _) (inCategory_empty c)

theorem constructor_ofList (ms : List Member) :
    (ofList ms).constructor = (ms.filter (·.kind = .constructor)).getLast? := by
  rw [ofList, constructor_foldl constructor_insert]
  exact Option.or_none

theorem filed_ofList (ms : List Member) : Filed (ofList ms) where
  fits c m hm := by
    rw [inCategory_ofList] at hm
    exact (List.mem_filter.1 hm).2
  constructor m hm := by
    rw [constructor_ofList] at hm
    simpa using (List.mem_filter.1 (List.mem_of_getLast? hm)).2

/-- A list with one constructor at most is put in groups, one for each station. -/
theorem atStation_ofList {ms : List Member} {m? : Option Member}
    (h : ms.filter (·.kind = .constructor) = m?.toList) (k : Option Category) :
    (ofList ms).atStation k = ms.filter (·.station = k) := by
  cases k with
  | some c =>
    show (ofList ms).inCategory c = _
    rw [inCategory_ofList]
    exact List.filter_congr fun m _ => fits_eq_station c m
  | none =>
    -- there is one constructor at most, and so the last one is all there is
    have hctor : ms.filter (·.station = none) = ms.filter (·.kind = .constructor) :=
      List.filter_congr fun m _ => decide_eq_decide.2 station_eq_none_iff
    show (ofList ms).constructor.toList = _
    rw [hctor, constructor_ofList, h]
    cases m? <;> rfl

/-- **A class is listed as it was told** just if that was in the order of writing. -/
theorem toList_ofList_eq_self_iff {ms : List Member} {m? : Option Member}
    (h : ms.filter (·.kind = .constructor) = m?.toList) :
    (ofList ms).toList = ms ↔ ms.Pairwise fun a b => a.turn ≤ b.turn := by
  rw [toList_eq_flatMap, List.flatMap_congr fun k _ => atStation_ofList h k]
  exact flatMap_filter_eq_self_iff pairwise_stations fun m _ => mem_stations m.station

/-- Members that are filed are listed in the same order again. -/
theorem Filed.toList_ofList {s : Members} (hs : s.Filed) : (ofList s.toList).toList = s.toList :=
  (toList_ofList_eq_self_iff hs.filter_constructor).2 hs.pairwise_turn

end Members

end Disinherit
