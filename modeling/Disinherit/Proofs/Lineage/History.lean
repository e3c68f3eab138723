import Disinherit.Proofs.Lineage.Override

/-!
# Declarations above a class

A lineage keeps, besides the members in effect, all declarations of each identity. `history_lineage`
says what that history is: the declarations of the classes of the chain, one for each class that has
one, overridden or not.

`Lineage.nearestAbove?` searches the history from its end for an owner that stands before a given
class. For a class that splits the chain into `above` and `below` the search comes to the last class
in `above` that declares the identity (`nearestAbove?_eq`). Whatever the class, what is found
belongs to a class nearer to the base (`nearestAbove?_eq_some`).
-/

namespace Disinherit

/-! ### The declaration of one class -/

/-- A class has one declaration of an identity, if any, and `find?` gives it. -/
theorem Script.Registers.filter_identity {s : Script} {d : ClassDecl} (hd : s.Registers d)
    {i : Identity} (hi : Inherited.hasHistory i.kind = true) :
    d.members.toList.filter (·.identity = i) = (d.members.find? i).toList := by
  obtain ⟨hctor, hblock⟩ := Inherited.ne_of_hasHistory hi
  have hle := length_filter_identity_le (hd.distinct i.category) hblock
  rw [hd.filed.filter_identity hctor, Members.find?, if_neg hctor, ← List.head?_filter]
  generalize (d.members.inCategory i.category).filter (·.identity = i) = ms at hle ⊢
  -- a class has at most one member of an identity
  match ms, hle with
  | [], _ => rfl
  | [m], _ => rfl

theorem Script.Registers.find?_eq_some_iff {s : Script} {d : ClassDecl} (hd : s.Registers d)
    {i : Identity} (hi : Inherited.hasHistory i.kind = true) {m : Member} :
    d.members.find? i = some m ↔ m ∈ d.members.toList ∧ m.identity = i := by
  have h : m ∈ d.members.toList.filter (·.identity = i) ↔ m ∈ (d.members.find? i).toList := by
    rw [hd.filter_identity hi]
  rw [List.mem_filter, Option.mem_toList, decide_eq_true_eq] at h
  exact h.symm

theorem Script.Registers.isSome_find? {s : Script} {d : ClassDecl} (hd : s.Registers d)
    {i : Identity} (hi : Inherited.hasHistory i.kind = true) :
    (d.members.find? i).isSome = d.declares i := by
  rw [Bool.eq_iff_iff, Option.isSome_iff_exists, ClassDecl.declares_iff]
  exact exists_congr fun m => hd.find?_eq_some_iff hi

/-! ### The history of an identity -/

section Lineage

variable {s : Script} {r : Registry} {name : String}

theorem history_foldl_overlay {ds : List ClassDecl} (hds : ∀ d ∈ ds, s.Registers d) {i : Identity}
    (hi : Inherited.hasHistory i.kind = true) :
    ((ds.foldl Inherited.overlay {}).history.get? i).getD []
      = ds.filterMap (·.members.find? i) := by
  induction ds using List.reverseRecOn with
  | nil => rfl
  | append_singleton ds d ih =>
    rw [List.foldl_append, List.foldl_cons, List.foldl_nil, Inherited.history_overlay _ _ hi,
      ih fun e he => hds e (List.mem_append_left _ he), (hds d (by simp)).filter_identity hi,
      List.filterMap_append]
    cases h : d.members.find? i <;> simp [h]

/-- The history of an identity: its declarations along the chain. -/
theorem history_lineage (hr : s.registry = .ok r) (name : String) {i : Identity}
    (hi : Inherited.hasHistory i.kind = true) :
    ((r.lineage name).history.get? i).getD []
      = (r.ancestry name).filterMap (·.members.find? i) :=
  history_foldl_overlay (fun _ hd => Script.registers_of_ancestry hr hd) hi

/-! ### Positions in the chain -/

variable {above below : List ClassDecl} {d : ClassDecl}

/-- The position of a class is the number of its ancestors. -/
theorem generation?_eq (hchain : r.ancestry name = above ++ d :: below) :
    (r.lineage name).generation? d.name = some above.length := by
  have hnodup := r.nodup_ancestry name
  rw [hchain, List.map_append, List.map_cons] at hnodup
  -- the name does not occur earlier, so that its first position is that of the class
  have hnew : d.name ∉ above.map (·.name) := fun h =>
    (List.nodup_append.1 hnodup).2.2 d.name h d.name List.mem_cons_self rfl
  rw [Lineage.generation?, Lineage.chain, show (r.lineage name).ancestry = r.ancestry name from rfl,
    hchain, List.map_append, List.map_cons, List.idxOf?_eq_some_iff]
  refine ⟨by simp, by simp, fun j hj he => hnew ?_⟩
  rw [List.getElem_append_left (by simpa using hj)] at he
  exact he ▸ List.getElem_mem _

/-- The classes in front of a class are those before its position. -/
theorem isBefore_of_mem_above (hchain : r.ancestry name = above ++ d :: below) {e : ClassDecl}
    (he : e ∈ above) : (r.lineage name).isBefore e.name above.length = true := by
  obtain ⟨front, back, rfl⟩ := List.append_of_mem he
  have hsplit : r.ancestry name = front ++ e :: (back ++ d :: below) := by rw [hchain]; simp
  rw [Lineage.isBefore, generation?_eq hsplit]
  simp

theorem isBefore_of_mem_below (hchain : r.ancestry name = above ++ d :: below) {e : ClassDecl}
    (he : e ∈ d :: below) : (r.lineage name).isBefore e.name above.length = false := by
  obtain ⟨front, back, hfront⟩ := List.append_of_mem he
  have hsplit : r.ancestry name = (above ++ front) ++ e :: back := by rw [hchain, hfront]; simp
  rw [Lineage.isBefore, generation?_eq hsplit]
  simp

/-- **The nearest declaration above a class** is that of the last class in front of it that declares
the identity. -/
theorem nearestAbove?_eq (hr : s.registry = .ok r) (hchain : r.ancestry name = above ++ d :: below)
    {i : Identity} (hi : Inherited.hasHistory i.kind = true) :
    (r.lineage name).nearestAbove? i d.name
      = (above.findRev? (·.declares i)).bind (·.members.find? i) := by
  have hreg : ∀ e ∈ above ++ d :: below, s.Registers e := fun e he =>
    Script.registers_of_ancestry hr (hchain ▸ he)
  have howner : ∀ e ∈ above ++ d :: below, ∀ m, e.members.find? i = some m → m.owner = e.name := by
    intro e he m hm
    exact (hreg e he).owner_eq ((hreg e he).find?_eq_some_iff hi |>.1 hm).1
  rw [Lineage.nearestAbove?, generation?_eq hchain]
  -- the class splits the history as it splits the chain
  simp only [history_lineage hr name hi, hchain, List.filterMap_append]
  rw [find?_reverse_append (fun m hm => ?_) fun m hm => ?_, getLast?_filterMap_eq_findRev?]
  · congr 1
    -- a class has an entry if and only if it declares the identity
    have hsame : ∀ e ∈ above, (e.members.find? i).isSome = e.declares i := fun e he =>
      (hreg e (List.mem_append_left _ he)).isSome_find? hi
    rw [List.findRev?_eq_find?_reverse, List.findRev?_eq_find?_reverse, ← List.head?_filter,
      ← List.head?_filter, List.filter_congr fun e he => hsame e (List.mem_reverse.1 he)]
  · obtain ⟨e, he, hm⟩ := List.mem_filterMap.1 hm
    rw [howner e (List.mem_append_left _ he) m hm]
    exact isBefore_of_mem_above hchain he
  · obtain ⟨e, he, hm⟩ := List.mem_filterMap.1 hm
    rw [howner e (List.mem_append_right _ he) m hm]
    exact isBefore_of_mem_below hchain he

/-- `a` stands in the chain nearer to the base than `b`. -/
def Lineage.Precedes (l : Lineage) (a b : String) : Prop :=
  ∃ i j, l.generation? a = some i ∧ l.generation? b = some j ∧ i < j

theorem Lineage.precedes_of_isBefore {l : Lineage} {a b : String} {limit : Nat}
    (hb : l.generation? b = some limit) (h : l.isBefore a limit = true) : l.Precedes a b := by
  unfold Lineage.isBefore at h
  split at h
  · next i hi => exact ⟨i, limit, hi, hb, of_decide_eq_true h⟩
  · cases h

/-- What is found above a class is declared by a class of the chain nearer to the base. -/
theorem nearestAbove?_eq_some (hr : s.registry = .ok r) {i : Identity} {owner : String} {m : Member}
    (hi : Inherited.hasHistory i.kind = true)
    (h : (r.lineage name).nearestAbove? i owner = some m) :
    (∃ d ∈ r.ancestry name, m ∈ d.members.toList) ∧ m.identity = i ∧
      (r.lineage name).Precedes m.owner owner := by
  unfold Lineage.nearestAbove? at h
  split at h
  · cases h
  · next limit hlimit =>
    -- the search goes through the history, and it stops at an entry from above
    have hbefore := List.find?_some h
    have hmem := List.mem_reverse.1 (List.mem_of_find?_eq_some h)
    rw [history_lineage hr name hi] at hmem
    obtain ⟨d, hd, hfind⟩ := List.mem_filterMap.1 hmem
    obtain ⟨hm, hident⟩ := ((Script.registers_of_ancestry hr hd).find?_eq_some_iff hi).1 hfind
    exact ⟨⟨d, hd, hm⟩, hident, Lineage.precedes_of_isBefore hlimit hbefore⟩

/-- A declaration nearer to the base is not overlooked: something is found, if perhaps not this
one. -/
theorem nearestAbove?_ne_none (hr : s.registry = .ok r) {owner : String} {d : ClassDecl}
    {m : Member} (hd : d ∈ r.ancestry name) (hm : m ∈ d.members.toList)
    (hi : Inherited.hasHistory m.identity.kind = true)
    (hbefore : (r.lineage name).Precedes m.owner owner) :
    (r.lineage name).nearestAbove? m.identity owner ≠ none := by
  obtain ⟨i, j, hgeneration, hlimit, hlt⟩ := hbefore
  intro hnone
  unfold Lineage.nearestAbove? at hnone
  rw [hlimit] at hnone
  simp only [history_lineage hr name hi] at hnone
  -- the declaration is in the history, and its class stands before the position of `owner`
  have hmem : m ∈ (r.ancestry name).filterMap (·.members.find? m.identity) :=
    List.mem_filterMap.2
      ⟨d, hd, ((Script.registers_of_ancestry hr hd).find?_eq_some_iff hi).2 ⟨hm, rfl⟩⟩
  refine List.find?_eq_none.1 hnone m (List.mem_reverse.2 hmem) ?_
  rw [Lineage.isBefore, hgeneration]
  exact decide_eq_true hlt

end Lineage

end Disinherit
