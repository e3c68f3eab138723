import Disinherit.Lineage
import Disinherit.Proofs.Registry
import Mathlib.Data.List.Nodup

/-!
# The classes of a lineage

`Registry.ancestry` follows parents until there is none, none is known, or one comes back. Whatever
the reason, the classes it lists are classes of the registry and no two have the same name. This is
where cycles and missing parents are dealt with: what is proved of a list of distinct classes holds
of every lineage.
-/

namespace Disinherit

namespace Registry

variable {r : Registry}

/-- A walk along parents never returns to a name that it has seen. -/
theorem notMem_seen_of_mem_ancestryFrom {seen : List String} {name : String} {d : ClassDecl}
    (h : d ∈ r.ancestryFrom seen name) : d.name ∉ seen := by
  fun_induction r.ancestryFrom seen name with
  | case1 seen name met => cases h
  | case2 seen name met known => cases h
  | case3 seen name met e known hparent =>
    rw [List.mem_singleton.1 h, name_of_get? known]
    exact met
  | case4 seen name met e known parent hparent _ ih =>
    rcases List.mem_append.1 h with h | h
    · -- the walk on from the parent has seen even more
      exact fun hs => ih h (List.mem_cons_of_mem _ hs)
    · rw [List.mem_singleton.1 h, name_of_get? known]
      exact met

theorem mem_classes_of_mem_ancestryFrom {seen : List String} {name : String} {d : ClassDecl}
    (h : d ∈ r.ancestryFrom seen name) : d ∈ r.classes := by
  fun_induction r.ancestryFrom seen name with
  | case1 seen name met => cases h
  | case2 seen name met known => cases h
  | case3 seen name met e known hparent =>
    rw [List.mem_singleton.1 h]
    exact mem_of_get? known
  | case4 seen name met e known parent hparent _ ih =>
    rcases List.mem_append.1 h with h | h
    · exact ih h
    · rw [List.mem_singleton.1 h]
      exact mem_of_get? known

theorem nodup_ancestryFrom (seen : List String) (name : String) :
    ((r.ancestryFrom seen name).map (·.name)).Nodup := by
  fun_induction r.ancestryFrom seen name with
  | case1 seen name met => exact List.nodup_nil
  | case2 seen name met known => exact List.nodup_nil
  | case3 seen name met e known hparent => exact List.nodup_singleton _
  | case4 seen name met e known parent hparent _ ih =>
    rw [List.map_append, List.map_singleton]
    refine List.nodup_append.2 ⟨ih, List.nodup_singleton _, ?_⟩
    -- the class itself was seen before its ancestors were
    rintro a ha b hb rfl
    obtain ⟨d, hd, rfl⟩ := List.mem_map.1 ha
    rw [List.mem_singleton, name_of_get? known] at hb
    exact notMem_seen_of_mem_ancestryFrom hd (hb ▸ List.mem_cons_self)

/-- The classes of a lineage have different names. -/
theorem nodup_ancestry (r : Registry) (name : String) : ((r.ancestry name).map (·.name)).Nodup :=
  nodup_ancestryFrom [] name

theorem mem_classes_of_mem_ancestry {name : String} {d : ClassDecl} (h : d ∈ r.ancestry name) :
    d ∈ r.classes :=
  mem_classes_of_mem_ancestryFrom h

end Registry

/-- The classes of a lineage are as the script says. -/
theorem Script.registers_of_ancestry {s : Script} {r : Registry} (h : s.registry = .ok r)
    {name : String} {d : ClassDecl} (hd : d ∈ r.ancestry name) : s.Registers d :=
  registers_of_registry h (Registry.mem_classes_of_mem_ancestry hd)

end Disinherit
