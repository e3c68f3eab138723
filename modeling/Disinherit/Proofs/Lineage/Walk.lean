import Disinherit.Class.Check
import Disinherit.Proofs.Lineage.Ancestry
import Mathlib.Data.List.Chain
import Mathlib.Data.List.Perm.Subperm

/-!
# Two walks along the parents

The lineage of a class and the search for a cycle follow the same parents, but they go about it in
different ways. `Registry.ancestryFrom` recurses to the parent first and lists the class after its
ancestors; `Registry.cycleFrom` goes from class to class and carries the path along. Both stop at a
class that they have seen, at one that extends nothing, and at a name that nobody has.

What the first leaves open is where it stopped. `next?` reads that off the classes it lists: the
parent of the most distant one, or the name it was given if it lists none. The invariant of the two
walks taken together is `cycleFrom_eq`: the path grows by the names of the classes listed, and the
search succeeds just if the walk stopped at a name on it. `next?_mem_or_unknown` says that it stops
for no other reason than those three. `SameWalk` collects what follows for a class and its chain,
whatever the parents in the registry are.
-/

namespace Disinherit

namespace Registry

variable {r : Registry} {seen path : List String} {name : String} {d : ClassDecl}

/-- The parent that a class of the registry names. -/
def parentOf? (r : Registry) (name : String) : Option String :=
  (r.get? name).bind (·.parent)

/-! ### One step -/

theorem ancestryFrom_of_mem (h : name ∈ seen) : r.ancestryFrom seen name = [] := by
  rw [ancestryFrom, dif_pos h]

theorem ancestryFrom_of_unknown (h : r.get? name = none) : r.ancestryFrom seen name = [] := by
  fun_cases r.ancestryFrom seen name with
  | case1 => rfl
  | case2 => rfl
  | case3 _ _ hget => cases h.symm.trans hget
  | case4 _ _ hget => cases h.symm.trans hget

/-- A class that is new on the walk comes after what the walk finds from its parent on. -/
theorem ancestryFrom_of_get? (hnew : name ∉ seen) (h : r.get? name = some d) :
    r.ancestryFrom seen name = d.parent.elim [] (r.ancestryFrom (name :: seen)) ++ [d] := by
  fun_cases r.ancestryFrom seen name with
  | case1 hmet => exact absurd hmet hnew
  | case2 _ hget => cases h.symm.trans hget
  | case3 _ e hget hparent =>
    obtain rfl := Option.some.inj (h.symm.trans hget)
    rw [hparent]
    rfl
  | case4 _ e hget p hparent =>
    obtain rfl := Option.some.inj (h.symm.trans hget)
    rw [hparent]
    rfl

/-- The class at the end of a walk is the one that it was asked for. -/
theorem getLast?_ancestryFrom (hnew : name ∉ seen) :
    (r.ancestryFrom seen name).getLast? = r.get? name := by
  cases h : r.get? name with
  | none => rw [ancestryFrom_of_unknown h, List.getLast?_nil]
  | some d => rw [ancestryFrom_of_get? hnew h, List.getLast?_concat]

theorem name_of_getLast? (h : (r.ancestryFrom seen name).getLast? = some d) : d.name = name := by
  by_cases hmet : name ∈ seen
  · rw [ancestryFrom_of_mem hmet] at h
    cases h
  · rw [getLast?_ancestryFrom hmet] at h
    exact name_of_get? h

/-- Each class of a walk is the parent of the one after it. -/
theorem isChain_ancestryFrom (seen : List String) (name : String) :
    (r.ancestryFrom seen name).IsChain fun e d => d.parent = some e.name := by
  fun_induction r.ancestryFrom seen name with
  | case1 => exact .nil
  | case2 => exact .nil
  | case3 => exact .singleton _
  | case4 seen name hnew d hget p hparent _ ih =>
    refine List.isChain_append.2 ⟨ih, .singleton _, ?_⟩
    -- the walk from the parent ends with the parent
    intro e he d' hd'
    obtain rfl : d = d' := Option.some.inj hd'
    rw [hparent, name_of_getLast? he]

/-! ### Where the walk stops -/

/-- Where a walk that was asked for `name` and lists `ds` would go on. -/
def next? (name : String) (ds : List ClassDecl) : Option String :=
  ds.head?.elim (some name) (·.parent)

theorem next?_concat {p : String} (hparent : d.parent = some p) (ds : List ClassDecl) :
    next? name (ds ++ [d]) = next? p ds := by
  cases ds with
  | nil => exact hparent
  | cons _ _ => rfl

/-- A walk goes on until it comes to a name that it has seen or that nobody has. -/
theorem next?_mem_or_unknown {p : String} (h : next? name (r.ancestryFrom seen name) = some p) :
    p ∈ seen ∨ p ∈ (r.ancestryFrom seen name).map (·.name) ∨ r.get? p = none := by
  fun_induction r.ancestryFrom seen name with
  | case1 seen name hmet =>
    -- the walk stops at a name that it has met
    obtain rfl := Option.some.inj h
    exact .inl hmet
  | case2 seen name _ hget =>
    obtain rfl := Option.some.inj h
    exact .inr (.inr hget)
  | case3 seen name _ d _ hparent =>
    -- a class without a parent is where the walk stops for good
    cases hparent.symm.trans h
  | case4 seen name _ d hget parent hparent _ ih =>
    rw [next?_concat hparent] at h
    rw [List.map_append, List.map_singleton, List.mem_append, List.mem_singleton, name_of_get? hget]
    -- what the rest of the walk has seen is this class or was seen before
    rcases ih h with hseen | hmem | hunknown
    · rcases List.mem_cons.1 hseen with rfl | hseen
      · exact .inr (.inl (.inr rfl))
      · exact .inl hseen
    · exact .inr (.inl (.inl hmem))
    · exact .inr (.inr hunknown)

/-- The path that goes on from `path` along the classes `ds`, of which the last comes first. -/
def trail (path : List String) (ds : List ClassDecl) : List String :=
  path ++ (ds.map (·.name)).reverse

theorem trail_concat (path : List String) (ds : List ClassDecl) (d : ClassDecl) :
    trail path (ds ++ [d]) = trail (path ++ [d.name]) ds := by
  simp [trail]

/-- The path with `stop?` at its end, if that is on the path already. -/
def closed? (path : List String) (stop? : Option String) : Option (List String) :=
  (stop?.filter (· ∈ path)).map fun p => path ++ [p]

theorem closed?_eq_some_iff {stop? : Option String} {path' : List String} :
    closed? path stop? = some path' ↔ ∃ p, stop? = some p ∧ p ∈ path ∧ path ++ [p] = path' := by
  simp only [closed?, Option.map_eq_some_iff, Option.filter_eq_some_iff, decide_eq_true_eq,
    and_assoc]

theorem closed?_eq_none_iff {stop? : Option String} :
    closed? path stop? = none ↔ ∀ p, stop? = some p → p ∉ path := by
  simp [closed?]

/-- **The two walks agree.** The search for a cycle succeeds if the other walk stops at a name that
it has seen, and then its path is what that walk has passed, with the name at the end. -/
theorem cycleFrom_eq (r : Registry) (path : List String) (name : String) :
    r.cycleFrom path name = closed? (trail path (r.ancestryFrom path.reverse name))
      (next? name (r.ancestryFrom path.reverse name)) := by
  -- the path is what the other walk has seen, in the order in which it was seen
  fun_induction r.cycleFrom path name with
  | case1 path name hmet =>
    rw [ancestryFrom_of_mem (List.mem_reverse.2 hmet)]
    -- the walk comes back to its own path
    exact (closed?_eq_some_iff.2 ⟨name, rfl, by simpa [trail] using hmet, by simp [trail]⟩).symm
  | case2 path name hnew hget =>
    rw [ancestryFrom_of_unknown hget]
    -- it ends outside of the registry
    refine (closed?_eq_none_iff.2 fun p hp => ?_).symm
    obtain rfl := Option.some.inj hp
    simpa [trail] using hnew
  | case3 path name hnew d hget hparent =>
    rw [ancestryFrom_of_get? (List.mem_reverse.not.2 hnew) hget, hparent]
    refine (closed?_eq_none_iff.2 fun p hp => ?_).symm
    -- it ends at a class without a parent
    cases hparent.symm.trans hp
  | case4 path name hnew d hget parent hparent _ ih =>
    rw [ancestryFrom_of_get? (List.mem_reverse.not.2 hnew) hget, hparent, Option.elim_some,
      next?_concat hparent, trail_concat, name_of_get? hget]
    rw [List.reverse_append, List.reverse_singleton, List.singleton_append] at ih
    exact ih

/-! ### The chain of a class -/

/-- A class of the registry is the one that its name stands for. -/
theorem get?_of_mem (hd : d ∈ r.classes) : r.get? d.name = some d := by
  have hsome : (r.get? d.name).isSome := List.find?_isSome.2 ⟨d, hd, by simp⟩
  obtain ⟨e, he⟩ := Option.isSome_iff_exists.1 hsome
  rw [he, List.inj_on_of_nodup_map r.distinct (mem_of_get? he) hd (name_of_get? he)]

theorem get?_of_mem_ancestry (hd : d ∈ r.ancestry name) : r.get? d.name = some d :=
  get?_of_mem (mem_classes_of_mem_ancestry hd)

/-- The classes of a chain are known. -/
theorem get?_ne_none_of_mem_chain {c : String} (hc : c ∈ (r.lineage name).chain) :
    r.get? c ≠ none := by
  obtain ⟨d, hd, rfl⟩ := List.mem_map.1 hc
  rw [get?_of_mem_ancestry hd]
  exact Option.some_ne_none d

theorem chain_eq_nil_iff : (r.lineage name).chain = [] ↔ r.get? name = none := by
  calc (r.lineage name).chain = []
      ↔ r.ancestry name = [] := List.map_eq_nil_iff
    _ ↔ (r.ancestry name).getLast? = none := List.getLast?_eq_none_iff.symm
    _ ↔ r.get? name = none := by rw [ancestry, getLast?_ancestryFrom List.not_mem_nil]

theorem getLast?_chain (h : r.get? name ≠ none) : (r.lineage name).chain.getLast? = some name := by
  obtain ⟨d, hd⟩ := Option.ne_none_iff_exists'.1 h
  calc (r.lineage name).chain.getLast?
      = (r.ancestry name).getLast?.map (·.name) := List.getLast?_map
    _ = (r.get? name).map (·.name) := by rw [ancestry, getLast?_ancestryFrom List.not_mem_nil]
    _ = some name := by rw [hd, Option.map_some, name_of_get? hd]

theorem isChain_chain (r : Registry) (name : String) :
    (r.lineage name).chain.IsChain fun p c => r.parentOf? c = some p ∧ r.get? p ≠ none := by
  refine (List.isChain_map _).2 ((isChain_ancestryFrom [] name).imp_of_mem_imp ?_)
  intro e d he hd hparent
  refine ⟨?_, get?_ne_none_of_mem_chain (List.mem_map_of_mem he)⟩
  rw [parentOf?, get?_of_mem_ancestry hd]
  exact hparent

/-- The names of a chain are different names of the registry. -/
theorem length_chain_le (r : Registry) (name : String) :
    (r.lineage name).chain.length ≤ r.classes.length := by
  -- the chain is made of different names of the registry
  have hsub : (r.lineage name).chain ⊆ r.names := by
    intro c hc
    obtain ⟨d, hd, rfl⟩ := List.mem_map.1 hc
    exact List.mem_map_of_mem (mem_classes_of_mem_ancestry hd)
  calc (r.lineage name).chain.length
      ≤ r.names.length := (List.subperm_of_subset (r.nodup_ancestry name) hsub).length_le
    _ = r.classes.length := List.length_map _

/-- The walk goes on from the first class of the chain. -/
theorem next?_ancestry {base : String} (h : (r.lineage name).chain.head? = some base) :
    next? name (r.ancestry name) = r.parentOf? base := by
  rw [Lineage.chain, List.head?_map] at h
  obtain ⟨d, hd, rfl⟩ := Option.map_eq_some_iff.1 h
  have hfirst : (r.ancestry name).head? = some d := hd
  rw [next?, hfirst, parentOf?, get?_of_mem_ancestry (List.mem_of_head? hfirst)]
  rfl

theorem cycle?_eq (r : Registry) (name : String) :
    r.cycle? name = closed? (r.lineage name).chain.reverse (next? name (r.ancestry name)) :=
  cycleFrom_eq r [] name

/-- What a search for a cycle finds, told by the chain. -/
theorem cycle?_eq_some_iff {path : List String} :
    r.cycle? name = some path ↔
      ∃ base p, (r.lineage name).chain.head? = some base ∧ r.parentOf? base = some p ∧
        p ∈ (r.lineage name).chain ∧ path = (r.lineage name).chain.reverse ++ [p] := by
  rw [cycle?_eq, closed?_eq_some_iff]
  constructor
  · rintro ⟨p, hnext, hp, rfl⟩
    rw [List.mem_reverse] at hp
    -- there is a chain, since something is on it
    obtain ⟨base, hbase⟩ := Option.isSome_iff_exists.1 (List.isSome_head?.2 (List.ne_nil_of_mem hp))
    exact ⟨base, p, hbase, next?_ancestry hbase ▸ hnext, hp, rfl⟩
  · rintro ⟨base, p, hbase, hparent, hp, rfl⟩
    exact ⟨p, (next?_ancestry hbase).trans hparent, List.mem_reverse.2 hp, rfl⟩

/-- A search that finds no cycle has come to an end of the chain. -/
theorem cycle?_eq_none_iff :
    r.cycle? name = none ↔
      r.get? name = none ∨ ∃ base, (r.lineage name).chain.head? = some base ∧
        (r.parentOf? base = none ∨ ∃ p, r.parentOf? base = some p ∧ r.get? p = none) := by
  rw [cycle?_eq, closed?_eq_none_iff]
  simp only [List.mem_reverse]
  constructor
  · intro hopen
    cases hchain : (r.lineage name).chain.head? with
    | none => exact .inl (chain_eq_nil_iff.1 (List.head?_eq_none_iff.1 hchain))
    | some base =>
      refine .inr ⟨base, rfl, ?_⟩
      cases hparent : r.parentOf? base with
      | none => exact .inl rfl
      | some p =>
        -- the walk stops at `p`, which is not on the chain, and so it must be unknown
        have hnext : next? name (r.ancestry name) = some p := (next?_ancestry hchain).trans hparent
        rcases next?_mem_or_unknown hnext with hseen | hmem | hunknown
        · cases hseen
        · exact absurd hmem (hopen p hnext)
        · exact .inr ⟨p, rfl, hunknown⟩
  · rintro (hunknown | ⟨base, hbase, hstop⟩) p hnext hp
    · -- from an unknown name there is no chain to come back to
      rw [chain_eq_nil_iff.2 hunknown] at hp
      cases hp
    · rw [next?_ancestry hbase] at hnext
      -- a parent that is not known is not on the chain
      rcases hstop with hnone | ⟨p', hp', hunknown⟩
      · cases hnone.symm.trans hnext
      · obtain rfl := Option.some.inj (hp'.symm.trans hnext)
        exact get?_ne_none_of_mem_chain hp hunknown

end Registry

/-- The chain of a class and the search for a cycle from it, side by side. -/
structure SameWalk (r : Registry) (name : String) : Prop where
  /-- No class comes twice. -/
  nodup : (r.lineage name).chain.Nodup
  /-- No walk takes more steps than there are classes. -/
  bounded : (r.lineage name).chain.length ≤ r.classes.length
  /-- Only a name that nobody has is without a chain. -/
  nil_iff : (r.lineage name).chain = [] ↔ r.get? name = none
  /-- The chain of a class ends with it. -/
  last : r.get? name ≠ none → (r.lineage name).chain.getLast? = some name
  /-- Each class is the parent of the one after it, and known. -/
  linked : (r.lineage name).chain.IsChain fun p c => r.parentOf? c = some p ∧ r.get? p ≠ none
  /-- There is a cycle if the first class extends one of the chain, and then the path leads
  there. -/
  cycle_iff : ∀ path, r.cycle? name = some path ↔
    ∃ base p, (r.lineage name).chain.head? = some base ∧ r.parentOf? base = some p ∧
      p ∈ (r.lineage name).chain ∧ path = (r.lineage name).chain.reverse ++ [p]
  /-- There is none if the first class extends nothing, or nothing that is known. -/
  acyclic_iff : r.cycle? name = none ↔
    r.get? name = none ∨ ∃ base, (r.lineage name).chain.head? = some base ∧
      (r.parentOf? base = none ∨ ∃ p, r.parentOf? base = some p ∧ r.get? p = none)

/-- **Lineages and the search for cycles walk the same chain**, whatever classes extend each
other. -/
theorem sameWalk (r : Registry) (name : String) : SameWalk r name where
  nodup := r.nodup_ancestry name
  bounded := r.length_chain_le name
  nil_iff := Registry.chain_eq_nil_iff
  last := Registry.getLast?_chain
  linked := r.isChain_chain name
  cycle_iff _ := Registry.cycle?_eq_some_iff
  acyclic_iff := Registry.cycle?_eq_none_iff

end Disinherit
