import Disinherit.Super.Names
import Mathlib.Tactic.Common
import Std.Data.String.ToNat

/-!
# Granted names

The choices for a name all differ (`candidate_injective`), so the first that is not taken is not
among those that were passed over either (`firstFree_notMem`). A `NameTable` therefore never gives
one name to two properties of the same side, static or not (`NameTable.Valid`), and a name that is
granted stays granted (`NameTable.Extends`).

Every name that is granted begins with `_super_`, and so it is never taken for `this.` with a name.
-/

namespace Disinherit

/-! ### The first free name -/

/-- The choices for a name all differ. -/
theorem candidate_injective {base : String} {m n : Nat} (h : candidate base m = candidate base n) :
    m = n := by
  -- the plain name is shorter than the numbered ones, which differ in their numbers
  have hlonger : ∀ k, candidate base (k + 1) ≠ base := by
    intro k hk
    have hlength := congrArg String.length hk
    simp only [candidate, String.length_append] at hlength
    have hone : "_".length = 1 := rfl
    omega
  cases m with
  | zero =>
    cases n with
    | zero => rfl
    | succ n => exact absurd h.symm (hlonger n)
  | succ m =>
    cases n with
    | zero => exact absurd h (hlonger m)
    | succ n =>
      have hnumber : toString (m + 2) = toString (n + 2) := (String.append_right_inj _).1 h
      have := Nat.repr_inj.1 hnumber
      omega

/-- The first free choice from the `n`-th on is one of the choices from there. It is free, those
before it are taken, and so it is found after no more steps than there are names. -/
theorem firstFree_eq_candidate (base : String) (taken : List String) (n : Nat) :
    ∃ k, n ≤ k ∧ firstFree base taken n = candidate base k ∧ candidate base k ∉ taken ∧
      k ≤ n + taken.length ∧ ∀ j, n ≤ j → j < k → candidate base j ∈ taken := by
  fun_induction firstFree base taken n with
  | case1 taken n htaken _ ih =>
    obtain ⟨k, hk, hfirst, hfree, hbound, hpassed⟩ := ih
    refine ⟨k, by omega, hfirst, fun hmem => hfree ?_, ?_, fun j hnj hjk => ?_⟩
    · -- only the choice that was passed over has left the list, and it is another one
      refine (List.mem_erase_of_ne fun heq => ?_).2 hmem
      have := candidate_injective heq
      omega
    · -- one candidate was passed over, and the list is shorter by one
      rw [List.length_erase_of_mem htaken] at hbound
      have := List.length_pos_of_mem htaken
      omega
    · -- the first one is taken, and the others were still in the shorter list
      by_cases hj : j = n
      · rw [hj]
        exact htaken
      · exact List.mem_of_mem_erase (hpassed j (by omega) hjk)
  | case2 taken n hfree => exact ⟨n, Nat.le_refl n, rfl, hfree, by omega, fun j _ _ => by omega⟩

theorem firstFree_notMem (base : String) (taken : List String) (n : Nat) :
    firstFree base taken n ∉ taken := by
  obtain ⟨k, -, hfirst, hfree, -⟩ := firstFree_eq_candidate base taken n
  rw [hfirst]
  exact hfree

/-- Every choice for the name of a copy begins alike. -/
theorem firstFree_copyName (owner name : String) (taken : List String) (n : Nat) :
    ∃ rest, firstFree (copyName owner name) taken n = "_super_" ++ rest := by
  obtain ⟨k, -, hfirst, -⟩ := firstFree_eq_candidate (copyName owner name) taken n
  rw [hfirst]
  cases k with
  | zero =>
    rw [candidate, copyName, String.append_assoc, String.append_assoc]
    exact ⟨_, rfl⟩
  | succ k =>
    simp only [candidate, copyName, String.append_assoc]
    exact ⟨_, rfl⟩

/-! ### Tables of names -/

namespace NameTable

/-- Every name that was granted is still granted. -/
def Extends (t t' : NameTable) : Prop :=
  ∀ key name, t.granted.get? key = some name → t'.granted.get? key = some name

theorem Extends.refl (t : NameTable) : t.Extends t := fun _ _ h => h

theorem Extends.trans {t t' t'' : NameTable} (h : t.Extends t') (h' : t'.Extends t'') :
    t.Extends t'' := fun key name hk => h' key name (h key name hk)

/-- No name is granted twice on one side, static or not. -/
structure Valid (t : NameTable) : Prop where
  /-- What is granted is taken. -/
  taken : ∀ key name, t.granted.get? key = some name → (key.2.isStatic, name) ∈ t.taken
  injective : ∀ key key' name, t.granted.get? key = some name → t.granted.get? key' = some name →
    key.2.isStatic = key'.2.isStatic → key = key'
  /-- Names begin with `_super_`. -/
  marked : ∀ key name, t.granted.get? key = some name → ∃ rest, name = "_super_" ++ rest

theorem valid_ofMembers (ms : List Member) : (ofMembers ms).Valid := by
  have hnone : ∀ key name, (ofMembers ms).granted.get? key ≠ some name := by
    intro key name h
    cases h
  constructor
  case taken => exact fun key name h => absurd h (hnone key name)
  case injective => exact fun key _ name h => absurd h (hnone key name)
  case marked => exact fun key name h => absurd h (hnone key name)

theorem mem_takenAs {t : NameTable} {isStatic : Bool} {name : String} :
    name ∈ t.takenAs isStatic ↔ (isStatic, name) ∈ t.taken := by
  simp [takenAs]

variable {t : NameTable} {owner : String} {property : PropertyKey}

/-- The name is granted from then on. -/
theorem get?_grant : (t.grant owner property).2.granted.get? (owner, property)
    = some (t.grant owner property).1 := by
  unfold grant
  split
  · next name hname => exact hname
  · simp

theorem extends_grant : t.Extends (t.grant owner property).2 := by
  intro key name hname
  unfold grant
  split
  · exact hname
  · next hnone =>
    -- the request had no name yet, and so it is not one of those that had
    by_cases hkey : key = (owner, property)
    · rw [hkey, hnone] at hname
      cases hname
    · simpa [hkey] using hname

/-- Granting a name keeps all names of a side distinct. -/
theorem Valid.grant (h : t.Valid) : (t.grant owner property).2.Valid := by
  cases hget : t.granted.get? (owner, property) with
  | some name =>
    -- nothing is added for a request that has been answered
    rw [NameTable.grant, hget]
    exact h
  | none =>
    have hfree := firstFree_notMem (copyName owner property.name) (t.takenAs property.isStatic) 0
    have hmarked := firstFree_copyName owner property.name (t.takenAs property.isStatic) 0
    rw [NameTable.grant, hget]
    simp only
    -- of the new name it only matters that it is free and marked
    generalize firstFree (copyName owner property.name) (t.takenAs property.isStatic) 0 = new
      at hfree hmarked ⊢
    rw [mem_takenAs] at hfree
    constructor
    case taken =>
      intro key name hname
      rw [Table.get?_put] at hname
      split at hname
      · next hkey =>
        obtain rfl := Option.some.inj hname
        simp [hkey]
      · exact List.mem_append_left _ (h.taken key name hname)
    case injective =>
      intro key key' name hname hname' hside
      rw [Table.get?_put] at hname hname'
      split at hname <;> split at hname'
      · next hkey hkey' => rw [hkey, hkey']
      · next hkey _ =>
        -- the new name would be one that is taken
        obtain rfl := Option.some.inj hname
        rw [hkey] at hside
        exact absurd (hside ▸ h.taken key' _ hname') hfree
      · next _ hkey' =>
        obtain rfl := Option.some.inj hname'
        rw [hkey'] at hside
        exact absurd (hside ▸ h.taken key _ hname) hfree
      · exact h.injective key key' name hname hname' hside
    case marked =>
      intro key name hname
      rw [Table.get?_put] at hname
      split at hname
      · obtain rfl := Option.some.inj hname
        exact hmarked
      · exact h.marked key name hname

/-- The names of members are kept: they stay taken, and none of them is granted. -/
structure Reserves (t : NameTable) (ms : List Member) : Prop where
  taken : ∀ m ∈ ms, m.kind ≠ .staticBlock → (m.identity.isStatic, m.name) ∈ t.taken
  free : ∀ key name, t.granted.get? key = some name →
    ∀ m ∈ ms, m.kind ≠ .staticBlock → m.identity.isStatic = key.2.isStatic → m.name ≠ name

theorem reserves_ofMembers (ms : List Member) : (ofMembers ms).Reserves ms where
  taken m hm hk := List.mem_map.2 ⟨m, List.mem_filter.2 ⟨hm, decide_eq_true hk⟩, rfl⟩
  free key name h := by cases h

theorem Reserves.grant {ms : List Member} (h : t.Reserves ms) :
    (t.grant owner property).2.Reserves ms := by
  cases hget : t.granted.get? (owner, property) with
  | some name =>
    rw [NameTable.grant, hget]
    exact h
  | none =>
    have hfree := firstFree_notMem (copyName owner property.name) (t.takenAs property.isStatic) 0
    rw [NameTable.grant, hget]
    refine ⟨fun m hm hk => List.mem_append_left _ (h.taken m hm hk), ?_⟩
    intro key name hname m hm hk hside heq
    rw [Table.get?_put] at hname
    split at hname
    · next hkey =>
      -- the new name is not taken, and that of the member is
      obtain rfl := Option.some.inj hname
      rw [mem_takenAs, ← heq] at hfree
      rw [hkey] at hside
      exact hfree (hside ▸ h.taken m hm hk)
    · exact h.free key name hname m hm hk hside heq

end NameTable

end Disinherit
