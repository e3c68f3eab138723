import Disinherit.Proofs.Lineage.History

/-!
# Histories by position

A class stands at a position of the chain, counted from the most distant ancestor.
`Lineage.DeclaredAt` says that the class at a position declares an identity. In these terms this
file says what the history of a lineage holds and what `Lineage.nearestAbove?` finds in it
(`Lineage.Recalls`).

A history is filled class by class while the chain is merged. What one class adds is at most one
entry, with the class as its owner, and the names of a chain are different. So the entries of one
list stand in the order of the chain, and each owner has one entry (`pairwise_precedes_filterMap`).
That the chain may have been cut where a cycle closes does not matter: only the names of the classes
that are on it do.

The search compares positions of owners, not places in the list. It finds the declaration at the
greatest position in front of a class (`nearestAbove?_eq_some_iff`) and fails in two cases only: the
class is not on the chain, or nobody in front of it declares the identity.
-/

namespace Disinherit

/-- `m` is the declaration of `i` by the class at position `k` of the chain. -/
def Lineage.DeclaredAt (l : Lineage) (i : Identity) (k : Nat) (m : Member) : Prop :=
  ∃ d, l.ancestry[k]? = some d ∧ m ∈ d.members.toList ∧ m.identity = i

/-- A lineage remembers every declaration of its classes in the order of the chain, and finds the
nearest one in front of a class. -/
structure Lineage.Recalls (l : Lineage) : Prop where
  /-- The generation of a class is its position in the chain. -/
  generation_iff : ∀ owner k, l.generation? owner = some k ↔ l.chain[k]? = some owner
  /-- A declaration is owned by the class that makes it. -/
  owner : ∀ i k m, l.DeclaredAt i k m → l.chain[k]? = some m.owner
  /-- Only fields, methods and accessors have a list. -/
  kind : ∀ i ms, l.history.get? i = some ms → i.kind ∈ [.field, .method, .getter, .setter]
  /-- One that nobody declares has none. -/
  none_iff : ∀ i, i.kind ∈ [.field, .method, .getter, .setter] →
    (l.history.get? i = none ↔ ∀ k m, ¬ l.DeclaredAt i k m)
  /-- A list has all declarations of its identity and nothing else. -/
  mem_iff : ∀ i ms, l.history.get? i = some ms → ∀ m, m ∈ ms ↔ ∃ k, l.DeclaredAt i k m
  /-- No owner comes twice in a list. -/
  nodup : ∀ i ms, l.history.get? i = some ms → (ms.map (·.owner)).Nodup
  /-- The owners in a list come in the order of the chain. -/
  ascending : ∀ i ms, l.history.get? i = some ms → ms.Pairwise fun a b => l.Precedes a.owner b.owner
  /-- What is found is the declaration at the greatest position in front of the class. -/
  nearest_iff : ∀ i, i.kind ∈ [.field, .method, .getter, .setter] → ∀ owner m,
    l.nearestAbove? i owner = some m ↔ ∃ j k, l.chain[j]? = some owner ∧ k < j ∧
      l.DeclaredAt i k m ∧
      ∀ k' m', k < k' → k' < j → ¬ l.DeclaredAt i k' m'
  /-- Nothing is found if the class is not on the chain, or if nobody in front of it declares the
  identity. -/
  notFound_iff : ∀ i, i.kind ∈ [.field, .method, .getter, .setter] → ∀ owner,
    l.nearestAbove? i owner = none ↔ owner ∉ l.chain ∨
      ∃ j, l.chain[j]? = some owner ∧ ∀ k m, k < j → ¬ l.DeclaredAt i k m

/-! ### Which identities have a list -/

namespace Inherited

theorem hasHistory_iff_mem {k : MemberKind} :
    hasHistory k = true ↔ k ∈ [.field, .method, .getter, .setter] := by
  cases k <;> decide

/-- The lists of a history belong to identities of the right kind, and none is empty. -/
def Noted (h : Inherited) : Prop :=
  ∀ i ms, h.history.get? i = some ms → hasHistory i.kind = true ∧ ms ≠ []

theorem Noted.adopt {h : Inherited} (hh : h.Noted) (m : Member) : (h.adopt m).Noted := by
  intro i ms hms
  rw [history_adopt] at hms
  split at hms
  · next hkind =>
    -- an entry that is pushed has a kind with a history, and its list is not empty
    rw [Table.get?_push] at hms
    split at hms
    · next hi =>
      subst hi
      cases hms
      exact ⟨hkind, List.append_ne_nil_of_right_ne_nil _ (List.cons_ne_nil _ _)⟩
    · exact hh i ms hms
  · exact hh i ms hms

theorem Noted.foldl_adopt {h : Inherited} (hh : h.Noted) (ms : List Member) :
    (ms.foldl Inherited.adopt h).Noted := by
  induction ms generalizing h with
  | nil => exact hh
  | cons m ms ih => exact ih (hh.adopt m)

/-- The run along a chain keeps this, since clearing properties leaves the history alone. -/
theorem noted_foldl_overlay (ds : List ClassDecl) : (ds.foldl Inherited.overlay {}).Noted := by
  induction ds using List.reverseRecOn with
  | nil =>
    intro i ms hms
    cases hms
  | append_singleton ds d ih =>
    rw [List.foldl_append, List.foldl_cons, List.foldl_nil]
    -- clearing concerns the members and leaves the history as it is
    have hclear : ((ds.foldl Inherited.overlay {}).clear d.name
        (propertiesTaken d.members.toList)).Noted := ih
    exact hclear.foldl_adopt d.members.toList

end Inherited

section Lineage

variable {s : Script} {r : Registry} {name : String}

/-! ### Positions -/

/-- The names of a chain are different, so that the first position of a name is its only one. -/
theorem generation?_eq_some_iff {owner : String} {k : Nat} :
    (r.lineage name).generation? owner = some k ↔ (r.lineage name).chain[k]? = some owner := by
  constructor
  · intro h
    obtain ⟨hlt, hget, -⟩ := List.idxOf?_eq_some_iff.1 h
    rw [List.getElem?_eq_getElem hlt, hget]
  · intro h
    obtain ⟨hlt, hget⟩ := List.getElem?_eq_some_iff.1 h
    refine List.idxOf?_eq_some_iff.2 ⟨hlt, hget, fun j hj hsame => ?_⟩
    -- names occur once in a chain, so that no earlier position has this one
    have hjk : j = k := ((r.nodup_ancestry name).getElem_inj_iff).1 (hsame.trans hget.symm)
    exact absurd hjk (Nat.ne_of_lt hj)

theorem chain_getElem? (k : Nat) :
    (r.lineage name).chain[k]? = ((r.ancestry name)[k]?).map (·.name) := by
  show ((r.ancestry name).map (·.name))[k]? = _
  rw [List.getElem?_map]

/-- Of two classes of a chain the one further in front precedes. -/
theorem precedes_of_getElem? {a b : String} {k j : Nat} (ha : (r.lineage name).chain[k]? = some a)
    (hb : (r.lineage name).chain[j]? = some b) (hlt : k < j) : (r.lineage name).Precedes a b :=
  ⟨k, j, generation?_eq_some_iff.2 ha, generation?_eq_some_iff.2 hb, hlt⟩

theorem Lineage.Precedes.ne {l : Lineage} {a b : String} (h : l.Precedes a b) : a ≠ b := by
  obtain ⟨i, j, hi, hj, hlt⟩ := h
  rintro rfl
  rw [hi] at hj
  cases hj
  exact absurd hlt (Nat.lt_irrefl i)

theorem Lineage.DeclaredAt.chain_eq (hr : s.registry = .ok r) {i : Identity} {k : Nat} {m : Member}
    (h : (r.lineage name).DeclaredAt i k m) : (r.lineage name).chain[k]? = some m.owner := by
  obtain ⟨d, hd, hm, -⟩ := h
  have hmem : d ∈ r.ancestry name := List.mem_of_getElem? hd
  rw [chain_getElem?, show (r.ancestry name)[k]? = some d from hd, Option.map_some,
    (Script.registers_of_ancestry hr hmem).owner_eq hm]

/-! ### The order of a history -/

theorem exists_declaredAt_iff (hr : s.registry = .ok r) {i : Identity}
    (hi : Inherited.hasHistory i.kind = true) {m : Member} :
    (∃ k, (r.lineage name).DeclaredAt i k m) ↔
      m ∈ (r.ancestry name).filterMap (·.members.find? i) := by
  constructor
  · rintro ⟨k, d, hd, hm⟩
    have hmem : d ∈ r.ancestry name := List.mem_of_getElem? hd
    exact List.mem_filterMap.2
      ⟨d, hmem, ((Script.registers_of_ancestry hr hmem).find?_eq_some_iff hi).2 hm⟩
  · intro hm
    obtain ⟨d, hd, hfind⟩ := List.mem_filterMap.1 hm
    obtain ⟨k, hk⟩ := List.mem_iff_getElem?.1 hd
    exact ⟨k, d, hk, ((Script.registers_of_ancestry hr hd).find?_eq_some_iff hi).1 hfind⟩

/-- **The owners in a history come in the order of the chain.** -/
theorem pairwise_precedes_filterMap (hr : s.registry = .ok r) {i : Identity}
    (hi : Inherited.hasHistory i.kind = true) :
    ((r.ancestry name).filterMap (·.members.find? i)).Pairwise
      fun a b => (r.lineage name).Precedes a.owner b.owner := by
  -- the classes themselves stand in this order, and each gives its name to its entry
  have hchain : (r.ancestry name).Pairwise fun d e => (r.lineage name).Precedes d.name e.name := by
    rw [List.pairwise_iff_getElem]
    intro k j hk hj hlt
    refine precedes_of_getElem? (k := k) (j := j) ?_ ?_ hlt
    · rw [chain_getElem?, List.getElem?_eq_getElem hk, Option.map_some]
    · rw [chain_getElem?, List.getElem?_eq_getElem hj, Option.map_some]
  have howner : ∀ d ∈ r.ancestry name, ∀ m, d.members.find? i = some m → m.owner = d.name := by
    intro d hd m hm
    have hreg := Script.registers_of_ancestry hr hd
    exact hreg.owner_eq ((hreg.find?_eq_some_iff hi).1 hm).1
  rw [List.pairwise_filterMap]
  refine hchain.imp_of_mem fun hd he hprecedes a ha b hb => ?_
  rw [howner _ hd a ha, howner _ he b hb]
  exact hprecedes

theorem eq_filterMap_of_get? (hr : s.registry = .ok r) {i : Identity} {ms : List Member}
    (h : (r.lineage name).history.get? i = some ms) :
    Inherited.hasHistory i.kind = true ∧ ms ≠ [] ∧
      ms = (r.ancestry name).filterMap (·.members.find? i) := by
  obtain ⟨hi, hne⟩ := Inherited.noted_foldl_overlay (r.ancestry name) i ms h
  refine ⟨hi, hne, ?_⟩
  rw [← history_lineage hr name hi, h, Option.getD_some]

/-! ### The search -/

theorem exists_split {owner : String} {j : Nat} (h : (r.lineage name).chain[j]? = some owner) :
    ∃ above d below, r.ancestry name = above ++ d :: below ∧ above.length = j ∧ d.name = owner := by
  rw [chain_getElem?] at h
  obtain ⟨d, hd, rfl⟩ := Option.map_eq_some_iff.1 h
  obtain ⟨above, below, hchain, hlength⟩ := exists_append_of_getElem? hd
  exact ⟨above, d, below, hchain, hlength, rfl⟩

/-- **What the search finds.** The declaration at the greatest position in front of the class. -/
theorem nearestAbove?_eq_some_iff (hr : s.registry = .ok r) {i : Identity}
    (hi : Inherited.hasHistory i.kind = true) {owner : String} {j : Nat}
    (hj : (r.lineage name).chain[j]? = some owner) {m : Member} :
    (r.lineage name).nearestAbove? i owner = some m ↔ ∃ k < j, (r.lineage name).DeclaredAt i k m ∧
      ∀ k' m', k < k' → k' < j → ¬ (r.lineage name).DeclaredAt i k' m' := by
  obtain ⟨above, d, below, hchain, rfl, rfl⟩ := exists_split hj
  have hreg : ∀ e ∈ above, s.Registers e := fun e he =>
    Script.registers_of_ancestry hr (hchain ▸ List.mem_append_left _ he)
  -- in front of the class, positions of the chain are positions of `above`
  have hposition : ∀ k < above.length, (r.lineage name).ancestry[k]? = above[k]? := by
    intro k hk
    show (r.ancestry name)[k]? = _
    rw [hchain, List.getElem?_append_left hk]
  rw [nearestAbove?_eq hr hchain hi, Option.bind_eq_some_iff]
  constructor
  · rintro ⟨e, hlast, hfind⟩
    obtain ⟨-, front, back, rfl, hback⟩ := findRev?_eq_some_iff_append.1 hlast
    have hlt : front.length < (front ++ e :: back).length := by simp
    refine ⟨front.length, hlt, ⟨e, ?_, ?_⟩, ?_⟩
    · rw [hposition _ hlt, List.getElem?_append_right (Nat.le_refl _), Nat.sub_self]
      rfl
    · exact ((hreg e (by simp)).find?_eq_some_iff hi).1 hfind
    · -- a class between the two positions is one of `back`
      rintro k' m' hk hk' ⟨e', he', hm'⟩
      rw [hposition k' hk', List.getElem?_append_right (Nat.le_of_lt hk)] at he'
      obtain ⟨p, hp⟩ : ∃ p, k' - front.length = p + 1 := ⟨k' - front.length - 1, by omega⟩
      rw [hp, List.getElem?_cons_succ] at he'
      have hdeclares : e'.declares i = true := ClassDecl.declares_iff.2 ⟨m', hm'⟩
      exact Bool.false_ne_true ((hback e' (List.mem_of_getElem? he')).symm.trans hdeclares)
  · rintro ⟨k, hk, ⟨e, he, hm⟩, hnearest⟩
    rw [hposition k hk] at he
    have hfind := ((hreg e (List.mem_of_getElem? he)).find?_eq_some_iff hi).2 hm
    obtain ⟨front, back, rfl, rfl⟩ := exists_append_of_getElem? he
    have hdeclares : e.declares i = true := ClassDecl.declares_iff.2 ⟨m, hm⟩
    refine ⟨e, findRev?_eq_some_iff_append.2 ⟨hdeclares, front, back, rfl, ?_⟩, hfind⟩
    -- a class of `back` that declares it would be nearer
    intro e' he'
    rw [← Bool.not_eq_true]
    intro hdeclares
    obtain ⟨m', hm'⟩ := ClassDecl.declares_iff.1 hdeclares
    obtain ⟨p, hp⟩ := List.mem_iff_getElem?.1 he'
    have hat : (front ++ e :: back)[front.length + (p + 1)]? = some e' := by
      rw [List.getElem?_append_right (Nat.le_add_right _ _), Nat.add_sub_cancel_left,
        List.getElem?_cons_succ, hp]
    obtain ⟨hlt, -⟩ := List.getElem?_eq_some_iff.1 hat
    exact hnearest _ m' (by omega) hlt ⟨e', (hposition _ hlt).trans hat, hm'⟩

/-- A declaration somewhere in front of a class is enough for the search to find one. -/
theorem nearestAbove?_ne_none_of_declaredAt (hr : s.registry = .ok r) {i : Identity}
    (hi : Inherited.hasHistory i.kind = true) {owner : String} {j k : Nat} {m : Member}
    (hj : (r.lineage name).chain[j]? = some owner) (hk : k < j)
    (hm : (r.lineage name).DeclaredAt i k m) : (r.lineage name).nearestAbove? i owner ≠ none := by
  have hprecedes := precedes_of_getElem? (hm.chain_eq hr) hj hk
  obtain ⟨d, hd, hmem, rfl⟩ := hm
  exact nearestAbove?_ne_none hr (List.mem_of_getElem? hd) hmem hi hprecedes

theorem nearestAbove?_eq_none_iff (hr : s.registry = .ok r) {i : Identity}
    (hi : Inherited.hasHistory i.kind = true) {owner : String} :
    (r.lineage name).nearestAbove? i owner = none ↔ owner ∉ (r.lineage name).chain ∨
      ∃ j, (r.lineage name).chain[j]? = some owner ∧
        ∀ k m, k < j → ¬ (r.lineage name).DeclaredAt i k m := by
  constructor
  · intro hnone
    by_cases hmem : owner ∈ (r.lineage name).chain
    · obtain ⟨j, hj⟩ := List.mem_iff_getElem?.1 hmem
      refine .inr ⟨j, hj, fun k m hk hm => ?_⟩
      exact nearestAbove?_ne_none_of_declaredAt hr hi hj hk hm hnone
    · exact .inl hmem
  · rintro (hstranger | ⟨j, hj, hnobody⟩)
    · -- the search from a stranger does not begin
      have hnone : (r.lineage name).generation? owner = none := List.idxOf?_eq_none_iff.2 hstranger
      rw [Lineage.nearestAbove?, hnone]
    · -- and from a class of the chain it would have found a declaration
      rw [Option.eq_none_iff_forall_ne_some]
      intro m hfound
      obtain ⟨k, hk, hm, -⟩ := (nearestAbove?_eq_some_iff hr hi hj).1 hfound
      exact hnobody k m hk hm

/-- **Every declaration is remembered, and the nearest one is found**, for each class of a registry
and whatever its parents lead to. -/
theorem recalls_lineage (hr : s.registry = .ok r) (name : String) : (r.lineage name).Recalls where
  generation_iff _ _ := generation?_eq_some_iff
  owner _ _ _ h := h.chain_eq hr
  kind i ms h := Inherited.hasHistory_iff_mem.1 (eq_filterMap_of_get? hr h).1
  none_iff i hkind := by
    have hi := Inherited.hasHistory_iff_mem.2 hkind
    constructor
    · intro hnone k m hm
      have hmem := (exists_declaredAt_iff hr hi).1 ⟨k, hm⟩
      rw [← history_lineage hr name hi, hnone] at hmem
      cases hmem
    · intro hnobody
      cases hget : (r.lineage name).history.get? i with
      | none => rfl
      | some ms =>
        obtain ⟨-, hne, rfl⟩ := eq_filterMap_of_get? hr hget
        obtain ⟨m, hm⟩ := List.exists_mem_of_ne_nil _ hne
        obtain ⟨k, hk⟩ := (exists_declaredAt_iff hr hi).2 hm
        exact absurd hk (hnobody k m)
  mem_iff i ms h m := by
    obtain ⟨hi, -, rfl⟩ := eq_filterMap_of_get? hr h
    exact (exists_declaredAt_iff hr hi).symm
  nodup i ms h := by
    obtain ⟨hi, -, rfl⟩ := eq_filterMap_of_get? hr h
    exact List.pairwise_map.2 ((pairwise_precedes_filterMap hr hi).imp fun hp => hp.ne)
  ascending i ms h := by
    obtain ⟨hi, -, rfl⟩ := eq_filterMap_of_get? hr h
    exact pairwise_precedes_filterMap hr hi
  nearest_iff i hkind owner m := by
    have hi := Inherited.hasHistory_iff_mem.2 hkind
    constructor
    · intro hfound
      -- a search that finds something starts from a class of the chain
      obtain ⟨-, -, -, j, -, hj, -⟩ := nearestAbove?_eq_some hr hi hfound
      have hj := generation?_eq_some_iff.1 hj
      obtain ⟨k, hk, hnearest⟩ := (nearestAbove?_eq_some_iff hr hi hj).1 hfound
      exact ⟨j, k, hj, hk, hnearest⟩
    · rintro ⟨j, k, hj, hk, hnearest⟩
      exact (nearestAbove?_eq_some_iff hr hi hj).2 ⟨k, hk, hnearest⟩
  notFound_iff i hkind owner := nearestAbove?_eq_none_iff hr (Inherited.hasHistory_iff_mem.2 hkind)

end Lineage

/-! ### Three classes in a ring -/

/-- Each of the classes `A`, `B` and `C` extends another one and declares the method `m`; `C` has
the method `n` as well. -/
def ringOfThree : Script where
  source :=
    .ofText ("class A extends C\x7bm()\x7b\x7d\x7d" ++ "class B extends A\x7bm()\x7b\x7d\x7d"
    ++ "class C extends B\x7bm()\x7b\x7dn()\x7b\x7d\x7d")
  root := .sound (.other "program") none 0 77
    [.shortClass 0 17 24 [.shortHeritage 8] [.shortMethod 18 18 19 23 [] []],
      .shortClass 24 41 48 [.shortHeritage 32] [.shortMethod 42 42 43 47 [] []],
      .shortClass 48 65 77 [.shortHeritage 56]
        [.shortMethod 66 66 67 71 [] [], .shortMethod 71 71 72 76 [] []]]

/-- The owners of what is found above each class of a list. -/
def Lineage.ownersAbove (l : Lineage) (i : Identity) (classes : List String) :
    List (Option String) :=
  classes.map fun c => (l.nearestAbove? i c).map (·.owner)

/-- The chain of `C` is cut where the ring closes. Above `C` the method of `B` is the nearest, above
`B` that of `A`, and above `A` there is none, although `A` extends `C`. -/
theorem recalls_ringOfThree : ∃ r, ringOfThree.registry = .ok r ∧
    ((r.lineage "C").chain = ["A", "B", "C"] ∧
      ((r.lineage "C").history.get? ⟨false, .method, .pub, "m"⟩).map (·.map (·.owner))
        = some ["A", "B", "C"] ∧
      (r.lineage "C").ownersAbove ⟨false, .method, .pub, "m"⟩ ["C", "B", "A", "Z"]
        = [some "B", some "A", none, none]) ∧
    (r.lineage "C").Recalls := by
  obtain ⟨r, hr, hfound⟩ := Script.exists_registry (s := ringOfThree)
    (p := fun r => decide ((r.lineage "C").chain = ["A", "B", "C"] ∧
      ((r.lineage "C").history.get? ⟨false, .method, .pub, "m"⟩).map (·.map (·.owner))
        = some ["A", "B", "C"] ∧
      (r.lineage "C").ownersAbove ⟨false, .method, .pub, "m"⟩ ["C", "B", "A", "Z"]
        = [some "B", some "A", none, none])) (by decide +kernel)
  exact ⟨r, hr, of_decide_eq_true hfound, recalls_lineage hr "C"⟩

end Disinherit
