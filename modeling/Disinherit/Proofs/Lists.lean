import Mathlib.Data.List.Chain
import Mathlib.Data.List.Count
import Mathlib.Data.List.Flatten
import Mathlib.Data.List.Forall2
import Mathlib.Data.List.Induction
import Mathlib.Data.List.Pairwise
import Mathlib.Data.List.Sort
import Mathlib.Tactic.Common

/-!
# Lists

Facts about lists in general that the theory of flattening rests on. Three of them carry an
argument: the last element with a property splits a list in one way (`findRev?_eq_some_iff_append`),
which is how the declaration in effect is found; two lists of partial results are the same just if
the results are (`filterMap_eq_filterMap_iff`); and a list stays as it is when it is put in groups
just if its keys are in order (`flatMap_filter_eq_self_iff`), which is what a stable sort does to it
(`mergeSort_eq_flatMap`).
-/

namespace Disinherit

variable {α β κ : Type}

/-! ### Positions -/

/-- Two different elements of an ordered list stand in one order or the other. -/
theorem pairwise_or {R : α → α → Prop} {l : List α} (h : l.Pairwise R) {a b : α} (ha : a ∈ l)
    (hb : b ∈ l) (hne : a ≠ b) : R a b ∨ R b a := by
  have hsymm : Std.Symm fun a b => R a b ∨ R b a := ⟨fun _ _ h => h.symm⟩
  exact (h.imp (S := fun a b => R a b ∨ R b a) .inl).forall ha hb hne

/-- An element of a chain is the first one, or another one leads to it. -/
theorem head_or_prev_of_isChain {R : α → α → Prop} {l : List α} (h : l.IsChain R) {y : α}
    (hy : y ∈ l) : l.head? = some y ∨ ∃ x ∈ l, R x y := by
  induction l with
  | nil => cases hy
  | cons a l ih =>
    rcases List.mem_cons.1 hy with rfl | hy
    · exact .inl rfl
    · right
      rcases ih h.tail hy with hhead | ⟨x, hx, hxy⟩
      · exact ⟨a, List.mem_cons_self, h.rel_head? hhead⟩
      · exact ⟨x, List.mem_cons_of_mem a hx, hxy⟩

/-- A position splits a list into what is in front of it and what comes after. -/
theorem exists_append_of_getElem? {l : List α} {k : Nat} {a : α} (h : l[k]? = some a) :
    ∃ front back, l = front ++ a :: back ∧ front.length = k := by
  obtain ⟨hlt, hget⟩ := List.getElem?_eq_some_iff.1 h
  refine ⟨l.take k, l.drop (k + 1), ?_, ?_⟩
  · rw [← hget, List.getElem_cons_drop, List.take_append_drop]
  · rw [List.length_take, Nat.min_eq_left (Nat.le_of_lt hlt)]

/-- What stands in one of two lists that are related one by one has its counterpart in the other. -/
theorem exists_mem_of_forall₂ {R : α → β → Prop} {as : List α} {bs : List β} {a : α}
    (h : List.Forall₂ R as bs) (ha : a ∈ as) : ∃ b ∈ bs, R a b := by
  induction h with
  | nil => cases ha
  | cons hab _ ih =>
    rcases List.mem_cons.1 ha with rfl | ha
    · exact ⟨_, List.mem_cons_self, hab⟩
    · obtain ⟨b, hb, hab⟩ := ih ha
      exact ⟨b, List.mem_cons_of_mem _ hb, hab⟩

/-- The last element with a property splits a list in one way only. -/
theorem split_at_last {p : α → Bool} {l l' gap gap' : List α} {a b : α}
    (h : l ++ a :: gap = l' ++ b :: gap') (ha : p a = true) (hb : p b = true)
    (hgap : ∀ x ∈ gap, p x = false) (hgap' : ∀ x ∈ gap', p x = false) :
    l = l' ∧ a = b ∧ gap = gap' := by
  rcases List.append_eq_append_iff.1 h with ⟨m, hl, hr⟩ | ⟨m, hl, hr⟩
  · cases m with
    | nil =>
      obtain ⟨hab, hgaps⟩ := List.cons.inj hr
      exact ⟨by rw [hl, List.append_nil], hab, hgaps⟩
    | cons x m =>
      -- `b` would come after `a`, where nothing has the property
      have hmem : b ∈ gap := by
        rw [(List.cons.inj hr).2]
        exact List.mem_append_right _ List.mem_cons_self
      rw [hgap b hmem] at hb
      cases hb
  · cases m with
    | nil =>
      obtain ⟨hab, hgaps⟩ := List.cons.inj hr
      exact ⟨by rw [hl, List.append_nil], hab.symm, hgaps.symm⟩
    | cons x m =>
      -- likewise with `a` after `b`
      have hmem : a ∈ gap' := by
        rw [(List.cons.inj hr).2]
        exact List.mem_append_right _ List.mem_cons_self
      rw [hgap' a hmem] at ha
      cases ha

/-- Where only one element can pass a test, the number of those that pass is one or none. -/
theorem countP_eq_ite {l : List α} {p : α → Bool} {a : α} (hnodup : l.Nodup) (ha : a ∈ l)
    (honly : ∀ b ∈ l, p b = true → b = a) : l.countP p = if p a then 1 else 0 := by
  obtain ⟨front, back, rfl⟩ := List.append_of_mem ha
  -- before and after `a` there is no other `a`, and so nothing that passes
  have hother : ∀ bs : List α, a ∉ bs → (∀ b ∈ bs, b ∈ front ++ a :: back) →
      bs.countP p = 0 := by
    intro bs hbs hsub
    refine List.countP_eq_zero.2 fun b hb hp => hbs ?_
    exact honly b (hsub b hb) hp ▸ hb
  have hnodup' := List.nodup_append.1 hnodup
  have hfront : a ∉ front := fun h => hnodup'.2.2 a h a List.mem_cons_self rfl
  have hback : a ∉ back := (List.nodup_cons.1 hnodup'.2.1).1
  rw [List.countP_append, List.countP_cons, hother front hfront (by simp +contextual),
    hother back hback (by simp +contextual)]
  omega

/-! ### The last element with a property -/

section Last

variable {p q : α → Bool} {l as bs : List α} {a : α}

/-- The last element with a property: those after it do not have it. -/
theorem findRev?_eq_some_iff_append :
    l.findRev? p = some a ↔ p a = true ∧ ∃ front back, l = front ++ a :: back ∧
      ∀ b ∈ back, p b = false := by
  rw [List.findRev?_eq_find?_reverse, List.find?_eq_some_iff_append]
  refine and_congr_right fun _ => ⟨?_, ?_⟩
  · -- the first one from behind: what comes before it in the reverse comes after it in the list
    rintro ⟨as, bs, hl, has⟩
    refine ⟨bs.reverse, as.reverse, ?_, fun b hb => ?_⟩
    · rw [← List.reverse_reverse l, hl]
      simp
    · simpa using has b (List.mem_reverse.1 hb)
  · rintro ⟨front, back, rfl, hback⟩
    refine ⟨back.reverse, front.reverse, by simp, fun b hb => ?_⟩
    simp [hback b (List.mem_reverse.1 hb)]

/-- If some element has a property, there is a last one that has it. -/
theorem exists_findRev? (ha : a ∈ l) (hp : p a = true) : ∃ b, l.findRev? p = some b := by
  rw [List.findRev?_eq_find?_reverse, ← Option.isSome_iff_exists, List.find?_isSome]
  exact ⟨a, List.mem_reverse.2 ha, hp⟩

theorem mem_of_findRev? (h : l.findRev? p = some a) : a ∈ l := by
  obtain ⟨-, front, back, rfl, -⟩ := findRev?_eq_some_iff_append.1 h
  exact List.mem_append_right _ List.mem_cons_self

/-- The last element with a property is also the last with any narrower one that it has. -/
theorem findRev?_of_imp (h : l.findRev? p = some a) (hq : q a = true)
    (himp : ∀ b ∈ l, q b = true → p b = true) : l.findRev? q = some a := by
  obtain ⟨-, front, back, rfl, hback⟩ := findRev?_eq_some_iff_append.1 h
  refine findRev?_eq_some_iff_append.2 ⟨hq, front, back, rfl, fun b hb => ?_⟩
  rw [Bool.eq_false_iff]
  intro hqb
  -- an element behind `a` with `q` would have had `p` as well
  have hpb : p b = true := himp b (List.mem_append_right _ (List.mem_cons_of_mem a hb)) hqb
  exact Bool.false_ne_true ((hback b hb).symm.trans hpb)

/-- The last result comes from the last element that has one. -/
theorem getLast?_filterMap_eq_findRev? (f : α → Option β) (l : List α) :
    (l.filterMap f).getLast? = (l.findRev? fun a => (f a).isSome).bind f := by
  induction l using List.reverseRecOn with
  | nil => rfl
  | append_singleton l a ih =>
    rw [List.findRev?_eq_find?_reverse] at ih ⊢
    rw [List.filterMap_append, List.reverse_append]
    -- the last element decides, unless it is mapped to nothing
    cases h : f a with
    | none => simpa [h] using ih
    | some b => simp [h]

/-- A search from the end passes over the second part of a list and stops at the end of the
first. -/
theorem find?_reverse_append (has : ∀ a ∈ as, p a = true) (hbs : ∀ b ∈ bs, p b = false) :
    (as ++ bs).reverse.find? p = as.getLast? := by
  have hskip : bs.reverse.find? p = none :=
    List.find?_eq_none.2 fun b hb => by simp [hbs b (List.mem_reverse.1 hb)]
  rw [List.reverse_append, List.find?_append, hskip, Option.none_or, ← List.head?_reverse,
    ← List.head?_filter, List.filter_eq_self.2 fun a ha => has a (List.mem_reverse.1 ha)]

/-- A search from the front stops within the first part of a list, and passes over the second. -/
theorem find?_append_eq_head? (has : ∀ a ∈ as, p a = true) (hbs : ∀ b ∈ bs, p b = false) :
    (as ++ bs).find? p = as.head? := by
  have hskip : bs.find? p = none := List.find?_eq_none.2 fun b hb => by simp [hbs b hb]
  rw [List.find?_append, hskip, Option.or_none, ← List.head?_filter, List.filter_eq_self.2 has]

end Last

/-! ### Filters -/

section Filters

variable {p q : α → Bool} {l : List α} {a : α}

/-- If what has a property comes first, the list is cut in two by it. -/
theorem filter_append_filter_not (h : l.Pairwise fun a b => p b = true → p a = true) :
    l.filter p ++ l.filter (fun a => !p a) = l := by
  induction l with
  | nil => rfl
  | cons a l ih =>
    obtain ⟨ha, hl⟩ := List.pairwise_cons.1 h
    cases hp : p a with
    | true => simp [hp, ih hl]
    | false =>
      -- the first element does not have the property, and so none of the others has it
      have hnone : ∀ b ∈ l, p b = false := by
        intro b hb
        rw [Bool.eq_false_iff]
        intro hpb
        exact Bool.false_ne_true (hp.symm.trans (ha b hb hpb))
      have hfirst : l.filter p = [] := List.filter_eq_nil_iff.2 fun b hb => by simp [hnone b hb]
      have hrest : l.filter (fun a => !p a) = l :=
        List.filter_eq_self.2 fun b hb => by simp [hnone b hb]
      simp [hp, hfirst, hrest]

/-- Then what has the property is all that comes before the first element without it. -/
theorem takeWhile_eq_filter (h : l.Pairwise fun a b => p b = true → p a = true) :
    l.takeWhile p = l.filter p := by
  -- the rest begins with an element that does not have the property
  have hstop : (l.filter fun a => !p a).takeWhile p = [] := by
    cases hrest : l.filter fun a => !p a with
    | nil => rfl
    | cons b bs =>
      have hb : b ∈ l.filter fun a => !p a := hrest ▸ List.mem_cons_self
      exact List.takeWhile_cons_of_neg (by simpa using (List.mem_filter.1 hb).2)
  calc l.takeWhile p
      = (l.filter p ++ l.filter fun a => !p a).takeWhile p := by rw [filter_append_filter_not h]
    _ = l.filter p ++ (l.filter fun a => !p a).takeWhile p :=
        List.takeWhile_append_of_pos fun a ha => (List.mem_filter.1 ha).2
    _ = l.filter p := by rw [hstop, List.append_nil]

/-- What is filtered out before contributes nothing. -/
theorem flatMap_filter (q : α → Bool) (f : α → List β) (as : List α) :
    (as.filter q).flatMap f = as.flatMap fun a => if q a then f a else [] := by
  induction as with
  | nil => rfl
  | cons a as ih =>
    cases hq : q a with
    | true => rw [List.filter_cons_of_pos hq, List.flatMap_cons, List.flatMap_cons, ih, if_pos hq]
    | false => simpa [hq] using ih

/-- Taking out an element that is not chosen leaves the choice as it is. -/
theorem filter_eraseP_of_not (h : ∀ a, p a = true → q a = false) (l : List α) :
    (l.eraseP p).filter q = l.filter q := by
  induction l with
  | nil => rfl
  | cons a l ih =>
    cases hp : p a with
    | true =>
      rw [List.eraseP_cons_of_pos hp, List.filter_cons_of_neg (Bool.eq_false_iff.1 (h a hp))]
    | false =>
      rw [List.eraseP_cons_of_neg (Bool.eq_false_iff.1 hp), List.filter_cons, List.filter_cons, ih]

/-- Taking out an element that is chosen takes it out of the choice. -/
theorem filter_eraseP_of_imp (h : ∀ a, p a = true → q a = true) (l : List α) :
    (l.eraseP p).filter q = (l.filter q).eraseP p := by
  have hboth : (fun a => p a && q a) = p := by
    funext a
    cases hp : p a with
    | true => rw [h a hp]; rfl
    | false => rfl
  rw [List.eraseP_filter, hboth]

/-- As far as a list passes a test, it holds elements that do. -/
theorem exists_getElem?_of_lt_takeWhile {i : Nat} (h : i < (l.takeWhile p).length) :
    ∃ a, l[i]? = some a ∧ p a = true := by
  obtain ⟨rest, hrest⟩ := List.takeWhile_prefix (l := l) p
  refine ⟨(l.takeWhile p)[i], ?_, List.all_eq_true.1 List.all_takeWhile _ (List.getElem_mem h)⟩
  calc l[i]? = (l.takeWhile p ++ rest)[i]? := by rw [hrest]
    _ = (l.takeWhile p)[i]? := List.getElem?_append_left h
    _ = some (l.takeWhile p)[i] := List.getElem?_eq_getElem h

/-- What comes next does not. -/
theorem eq_false_of_getElem?_takeWhile (h : l[(l.takeWhile p).length]? = some a) :
    p a = false := by
  induction l with
  | nil => simp at h
  | cons b l ih =>
    cases hb : p b with
    | false =>
      rw [List.takeWhile_cons_of_neg (by simp [hb])] at h
      obtain rfl := Option.some.inj h
      exact hb
    | true =>
      rw [List.takeWhile_cons_of_pos hb] at h
      exact ih h

/-- Where a condition that holds of an element holds of all before it, leaving elements out and
stopping at the first that fails can be done in either order. -/
theorem takeWhile_filter_of_pairwise (h : l.Pairwise fun a b => q b = true → q a = true) :
    (l.filter p).takeWhile q = (l.takeWhile q).filter p := by
  rw [takeWhile_eq_filter h, takeWhile_eq_filter (h.filter p), List.filter_filter,
    List.filter_filter]
  exact List.filter_congr fun a _ => Bool.and_comm _ _

end Filters

/-! ### Sorting a part -/

section Sorting

variable {r : α → α → Prop} [DecidableRel r]

/-- An element is put into the rest of an ordered list where it is put into the whole. -/
theorem filter_orderedInsert [IsTrans α r] (q : α → Bool) (a : α) {l : List α} (h : l.Pairwise r) :
    (l.orderedInsert r a).filter q
      = if q a then (l.filter q).orderedInsert r a else l.filter q := by
  induction l with
  | nil =>
    rw [List.orderedInsert_nil, List.filter_cons]
    rfl
  | cons b l ih =>
    obtain ⟨hfirst, hrest⟩ := List.pairwise_cons.1 h
    by_cases hab : r a b
    · -- `a` comes first, and so it does whatever is left out
      rw [List.orderedInsert_cons_of_le r l hab, List.filter_cons]
      cases hleft : (b :: l).filter q with
      | nil => rfl
      | cons c l' =>
        have hc : c ∈ b :: l := (List.mem_filter.1 (hleft ▸ List.mem_cons_self)).1
        have hac : r a c := by
          rcases List.mem_cons.1 hc with rfl | hc
          · exact hab
          · exact IsTrans.trans _ _ _ hab (hfirst c hc)
        rw [List.orderedInsert_cons_of_le r l' hac]
    · -- `a` comes after `b`, whether `b` is left out or not
      rw [List.orderedInsert_of_not_le r l hab, List.filter_cons, List.filter_cons, ih hrest]
      cases q b with
      | false => rfl
      | true =>
        cases q a with
        | false => rfl
        | true => exact (List.orderedInsert_of_not_le r _ hab).symm

/-- Leaving out elements and sorting can be done in either order. -/
theorem filter_insertionSort [Std.Total r] [IsTrans α r] (q : α → Bool) (l : List α) :
    (l.insertionSort r).filter q = (l.filter q).insertionSort r := by
  induction l with
  | nil => rfl
  | cons a l ih =>
    rw [List.insertionSort_cons, filter_orderedInsert q a (List.pairwise_insertionSort r l), ih,
      List.filter_cons]
    cases q a with
    | false => rfl
    | true => rfl

end Sorting

/-! ### Partial maps -/

section PartialMaps

variable {f g : α → Option β} {as : List α}

theorem filterMap_cons_eq_append (f : α → Option β) (a : α) (as : List α) :
    (a :: as).filterMap f = (f a).toList ++ as.filterMap f := by
  rw [List.filterMap_cons]
  cases f a <;> rfl

/-- If one map gives nothing but what another gives too, its list is a part of the other's. -/
theorem filterMap_sublist_filterMap (hle : ∀ a ∈ as, f a = none ∨ f a = g a) :
    (as.filterMap f).Sublist (as.filterMap g) := by
  induction as with
  | nil => exact List.Sublist.refl _
  | cons a as ih =>
    rw [filterMap_cons_eq_append, filterMap_cons_eq_append]
    refine List.Sublist.append ?_ (ih fun b hb => hle b (List.mem_cons_of_mem _ hb))
    rcases hle a List.mem_cons_self with hnone | heq
    · rw [hnone]
      exact List.nil_sublist _
    · rw [heq]

/-- Then the two lists are the same only if the maps agree everywhere. -/
theorem filterMap_eq_filterMap_iff (hle : ∀ a ∈ as, f a = none ∨ f a = g a) :
    as.filterMap f = as.filterMap g ↔ ∀ a ∈ as, f a = g a := by
  refine ⟨fun h => ?_, List.filterMap_congr⟩
  induction as with
  | nil => simp
  | cons a as ih =>
    have hrest : ∀ b ∈ as, f b = none ∨ f b = g b := fun b hb => hle b (List.mem_cons_of_mem _ hb)
    rw [filterMap_cons_eq_append, filterMap_cons_eq_append] at h
    -- an element that only the second map gives would make its list longer
    have hfirst : f a = g a := by
      rcases hle a List.mem_cons_self with hnone | heq
      · have hlength := congrArg List.length h
        have hshort := (filterMap_sublist_filterMap hrest).length_le
        rw [hnone, List.length_append, List.length_append, Option.toList_none,
          List.length_nil] at hlength
        have hempty : (g a).toList = [] := List.length_eq_zero_iff.1 (by omega)
        rw [hnone, Option.toList_eq_nil_iff.1 hempty]
      · exact heq
    rw [hfirst] at h
    intro b hb
    rcases List.mem_cons.1 hb with rfl | hb
    · exact hfirst
    · exact ih hrest (List.append_cancel_left h) b hb

/-- Where a result is repeated there is a first element that does so. -/
theorem exists_first_repeated (h : ¬ (as.filterMap f).Nodup) :
    ∃ before a after b, as = before ++ a :: after ∧ f a = some b ∧ b ∈ before.filterMap f ∧
      (before.filterMap f).Nodup := by
  induction as using List.reverseRecOn with
  | nil => exact absurd List.nodup_nil h
  | append_singleton as a ih =>
    by_cases hfirst : (as.filterMap f).Nodup
    · -- then it is the last one
      cases hb : f a with
      | none => simp [hb, hfirst] at h
      | some b =>
        refine ⟨as, a, [], b, rfl, hb, ?_, hfirst⟩
        -- a new value would leave all of them different
        by_contra hnew
        refine h ?_
        rw [List.filterMap_append, List.nodup_append]
        refine ⟨hfirst, by simp [hb], ?_⟩
        rintro x hx y hy rfl
        rw [List.filterMap_cons_some hb, List.filterMap_nil, List.mem_singleton] at hy
        exact hnew (hy ▸ hx)
    · -- one of the earlier ones is a repetition
      obtain ⟨before, a', after, b, rfl, hb, hmem, hnodup⟩ := ih hfirst
      exact ⟨before, a', after ++ [a], b, by simp, hb, hmem, hnodup⟩

end PartialMaps

/-! ### Lists in groups -/

section Groups

variable [DecidableEq κ] {f : α → κ} {t : κ → Nat} {ks : List κ}

/-- Groups that are put one after the other are in the order of their keys. -/
theorem pairwise_flatMap_filter (hks : ks.Pairwise fun k k' => t k < t k') (as : List α) :
    (ks.flatMap fun k => as.filter (f · = k)).Pairwise fun a b => t (f a) ≤ t (f b) := by
  refine List.pairwise_flatMap.2 ⟨fun k _ => List.pairwise_of_forall_mem_list ?_, hks.imp ?_⟩
  · -- within a group all keys are the same
    intro a ha b hb
    have hka : f a = k := of_decide_eq_true (List.mem_filter.1 ha).2
    have hkb : f b = k := of_decide_eq_true (List.mem_filter.1 hb).2
    exact Nat.le_of_eq (congrArg t (hka.trans hkb.symm))
  · intro k k' hlt a ha b hb
    have hka : f a = k := of_decide_eq_true (List.mem_filter.1 ha).2
    have hkb : f b = k' := of_decide_eq_true (List.mem_filter.1 hb).2
    rw [hka, hkb]
    exact Nat.le_of_lt hlt

/-- A list in the order of its keys is what putting it in groups makes of it. -/
theorem flatMap_filter_eq_self (hks : ks.Pairwise fun k k' => t k < t k') {as : List α}
    (hmem : ∀ a ∈ as, f a ∈ ks) (h : as.Pairwise fun a b => t (f a) ≤ t (f b)) :
    (ks.flatMap fun k => as.filter (f · = k)) = as := by
  induction ks generalizing as with
  | nil =>
    rw [List.eq_nil_iff_forall_not_mem.2 fun a ha => List.not_mem_nil (hmem a ha)]
    rfl
  | cons k ks ih =>
    obtain ⟨hk, hks⟩ := List.pairwise_cons.1 hks
    -- the first group comes first in the list, and the others are groups of the rest
    have hfirst : as.Pairwise fun a b => decide (f b = k) = true → decide (f a = k) = true := by
      refine h.imp_of_mem fun {a b} ha hb hab hkb => ?_
      rw [decide_eq_true_eq] at hkb ⊢
      refine (List.mem_cons.1 (hmem a ha)).resolve_right fun hlater => ?_
      have hlt := hk (f a) hlater
      rw [hkb] at hab
      omega
    have hothers : (ks.flatMap fun k' => as.filter (f · = k'))
        = ks.flatMap fun k' => (as.filter fun a => !decide (f a = k)).filter (f · = k') := by
      refine List.flatMap_congr fun k' hk' => ?_
      rw [List.filter_filter]
      refine List.filter_congr fun a _ => ?_
      have hne : k' ≠ k := by
        rintro rfl
        exact Nat.lt_irrefl _ (hk k' hk')
      by_cases ha : f a = k'
      · simp [ha, hne]
      · simp [ha]
    -- what is left has keys among the others
    have hmem' : ∀ a ∈ as.filter fun a => !decide (f a = k), f a ∈ ks := by
      intro a ha
      obtain ⟨ha, hne⟩ := List.mem_filter.1 ha
      exact (List.mem_cons.1 (hmem a ha)).resolve_left (by simpa using hne)
    have hrest := ih hks hmem' (h.filter _)
    rw [List.flatMap_cons, hothers, hrest]
    exact filter_append_filter_not hfirst

/-- Putting a list in groups leaves it as it is just if it is in the order of its keys. -/
theorem flatMap_filter_eq_self_iff (hks : ks.Pairwise fun k k' => t k < t k') {as : List α}
    (hmem : ∀ a ∈ as, f a ∈ ks) :
    (ks.flatMap fun k => as.filter (f · = k)) = as ↔
      as.Pairwise fun a b => t (f a) ≤ t (f b) := by
  refine ⟨fun h => ?_, flatMap_filter_eq_self hks hmem⟩
  have hordered := pairwise_flatMap_filter (f := f) hks as
  rw [h] at hordered
  exact hordered

/-- A stable sort by the order of keys puts the groups of the keys one after the other. -/
theorem mergeSort_eq_flatMap (hks : ks.Pairwise fun k k' => t k < t k') {as : List α}
    (hmem : ∀ a ∈ as, f a ∈ ks) :
    as.mergeSort (fun a b => t (f a) ≤ t (f b)) = ks.flatMap fun k => as.filter (f · = k) := by
  have htrans : ∀ a b c, decide (t (f a) ≤ t (f b)) = true → decide (t (f b) ≤ t (f c)) = true →
      decide (t (f a) ≤ t (f c)) = true := by
    simp only [decide_eq_true_eq]
    exact fun a b c => Nat.le_trans
  have htotal : ∀ a b, (decide (t (f a) ≤ t (f b)) || decide (t (f b) ≤ t (f a))) = true := by
    simp only [Bool.or_eq_true, decide_eq_true_eq]
    exact fun a b => Nat.le_total _ _
  have hperm := as.mergeSort_perm fun a b => decide (t (f a) ≤ t (f b))
  -- a group is in order already, so that sorting keeps it as a part, and as the whole by its length
  have hgroup : ∀ k, as.filter (f · = k)
      = (as.mergeSort fun a b => t (f a) ≤ t (f b)).filter (f · = k) := by
    intro k
    have hordered :
        (as.filter (f · = k)).Pairwise fun a b => decide (t (f a) ≤ t (f b)) = true := by
      refine List.pairwise_of_forall_mem_list fun a ha b hb => ?_
      have hka : f a = k := of_decide_eq_true (List.mem_filter.1 ha).2
      have hkb : f b = k := of_decide_eq_true (List.mem_filter.1 hb).2
      rw [hka, hkb]
      exact decide_eq_true (Nat.le_refl _)
    have hsub :=
      (List.sublist_mergeSort htrans htotal hordered List.filter_sublist).filter (f · = k)
    rw [List.filter_filter, show (fun a => decide (f a = k) && decide (f a = k)) = (f · = k) from
      funext fun a => Bool.and_self _] at hsub
    exact hsub.eq_of_length (hperm.filter _).length_eq.symm
  have hsorted : (as.mergeSort fun a b => t (f a) ≤ t (f b)).Pairwise
      fun a b => t (f a) ≤ t (f b) :=
    (List.pairwise_mergeSort htrans htotal as).imp of_decide_eq_true
  calc as.mergeSort (fun a b => t (f a) ≤ t (f b))
      = ks.flatMap fun k => (as.mergeSort fun a b => t (f a) ≤ t (f b)).filter (f · = k) :=
        (flatMap_filter_eq_self hks (fun a ha => hmem a (hperm.mem_iff.1 ha)) hsorted).symm
    _ = ks.flatMap fun k => as.filter (f · = k) := List.flatMap_congr fun k _ => (hgroup k).symm

end Groups

end Disinherit
