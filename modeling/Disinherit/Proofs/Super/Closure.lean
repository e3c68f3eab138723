import Disinherit.Proofs.Lineage.History
import Disinherit.Proofs.Super.Resolution

/-!
# The names of a resolved class

Resolution replaces references by `this.` and a name, and so every such name has to be there.
`ClosedUnderNames` says that it is: each name that an edit introduces belongs to a copy or to a
method made of a constructor, of the same side as the place where it is used, and each of these
carries the edit of its own name. No declaration is copied twice, and what a copy refers to comes
from a class nearer to the base than its own.

The last part needs that a name says whose copy it is. Two copies can share a name only if they
share their property and owner, as a getter and a setter do (`NameTable.Valid.injective`).
-/

namespace Disinherit

open Progress

/-! ### What edits introduce -/

/-- The edit inserts `this.` and a name, perhaps after a parenthesis. -/
def Edit.Introduces (e : Edit) (name : String) : Prop :=
  e.text = "this." ++ name ∨ e.text = "(this." ++ name

namespace Edit.Introduces

variable {e : Edit} {name : String}

/-- A reference introduces the name of its copy and no other. -/
theorem name_eq (h : e.Introduces name) {name' : String} (he : e.text = "this." ++ name') :
    name' = name := by
  rcases h with h | h
  · exact (String.append_right_inj _).1 (he.symm.trans h)
  · have htext := congrArg String.toList (he.symm.trans h)
    simp at htext

/-- The new name of an excerpt is no reference. -/
theorem ne_marked (h : e.Introduces name) {rest : String} : e.text ≠ "_super_" ++ rest := by
  intro he
  rcases h with h | h
  · have htext := congrArg String.toList (he.symm.trans h)
    simp at htext
  · have htext := congrArg String.toList (he.symm.trans h)
    simp at htext

/-- The other texts by which constructor calls are replaced introduce nothing. -/
theorem notMem (h : e.Introduces name) : e.text ∉ [", this)", "void ", "(void ", "", "this"] := by
  -- each of them differs from the text of a reference in its first characters or ends before the
  -- dot
  have hother : ∀ t ∈ [", this)", "void ", "(void ", "", "this"],
      t ≠ "this." ++ name ∧ t ≠ "(this." ++ name := by
    intro t ht
    simp only [List.mem_cons, List.not_mem_nil, or_false] at ht
    rcases ht with rfl | rfl | rfl | rfl | rfl
    all_goals
      constructor
      all_goals
        intro h
        have htext := congrArg String.toList h
        simp at htext
  intro ht
  rcases h with h | h
  · exact (hother _ ht).1 h
  · exact (hother _ ht).2 h

end Edit.Introduces

theorem Member.text_renameEdits {m : Member} {name : String} {e : Edit}
    (he : e ∈ m.renameEdits name) : e.text = name := by
  unfold renameEdits at he
  split at he
  · rw [List.mem_singleton.1 he]
  · cases he

theorem SuperCall.text_calleeEdits {call : SuperCall} {text : String} {e : Edit}
    (he : e ∈ call.calleeEdits text) :
    e.text = text ∨ e.text = "(" ++ text ∨ e.text = ", this)" := by
  unfold calleeEdits at he
  split at he
  · obtain rfl := List.mem_singleton.1 he
    exact .inl rfl
  · rcases List.mem_pair.1 he with rfl | rfl
    · exact .inr (.inl rfl)
    · exact .inr (.inr rfl)

/-- The texts by which constructor calls are replaced. -/
theorem text_constructionEdits {source : Source} {method? : Option String} {m : Member} {e : Edit}
    (he : e ∈ constructionEdits source method? m) :
    (∃ method, method? = some method ∧ (e.text = "this." ++ method ∨ e.text = "(this." ++ method)) ∨
      e.text ∈ [", this)", "void ", "(void ", "", "this"] := by
  obtain ⟨call, -, he⟩ := List.mem_flatMap.1 he
  cases method? with
  | some method =>
    rcases SuperCall.text_calleeEdits he with ht | ht | ht
    · exact .inl ⟨method, rfl, .inl ht⟩
    · exact .inl ⟨method, rfl, .inr (by rw [ht, ← String.append_assoc]; rfl)⟩
    · exact .inr (by simp [ht])
  | none =>
    -- at the base the texts are fixed
    replace he : e ∈ call.baseCallEdits source := he
    unfold SuperCall.baseCallEdits at he
    split at he
    · rcases SuperCall.text_calleeEdits he with ht | ht | ht <;> exact .inr (by simp [ht])
    · split at he <;> exact .inr (by simp [List.mem_singleton.1 he])

/-- The edits for constructor calls introduce the name of the method that is called, if any. -/
theorem Edit.Introduces.of_mem_constructionEdits {e : Edit} {name : String} (h : e.Introduces name)
    {source : Source} {method? : Option String} {m : Member}
    (he : e ∈ constructionEdits source method? m) : method? = some name := by
  rcases text_constructionEdits he with ⟨method, hmethod, ht⟩ | ht
  · rw [hmethod]
    -- with and without the parenthesis the texts differ, and otherwise they give the name away
    rcases h with h | h <;> rcases ht with ht | ht
    all_goals
      have htext := congrArg String.toList (ht.symm.trans h)
      simp [String.toList_inj] at htext
    · rw [htext]
    · rw [htext]
  · exact absurd ht h.notMem

/-! ### What a copy is made of -/

section Lineage

variable {s : Script} {r : Registry} {target : String}

/-- What is copied is what the lookup of the name found. -/
theorem Lineage.referent?_of_verdict {l : Lineage} {m : Member} {ref : SuperReference}
    {entry : Member} (h : l.verdict m ref = .copy entry) :
    ∃ name, ref.target = .member name ∧
      l.referent? name ref.use m.identity.isStatic m.owner = some entry := by
  unfold Lineage.verdict at h
  split at h <;> try contradiction
  next name htarget =>
  split at h <;> try contradiction
  split at h <;> try contradiction
  next found hreferent =>
  obtain rfl := Verdict.copy.inj h
  exact ⟨name, htarget, hreferent⟩

/-- Whichever kind the lookup settles on, it has searched the history of that kind, and among public
members only. -/
theorem Lineage.nearestAbove?_of_verdict {l : Lineage} {m : Member} {ref : SuperReference}
    {entry : Member} (h : l.verdict m ref = .copy entry) :
    ∃ name kind, kind.onPrototype = true ∧
      l.nearestAbove? ⟨m.identity.isStatic, kind, .pub, name⟩ m.owner = some entry := by
  obtain ⟨name, -, hreferent⟩ := referent?_of_verdict h
  unfold Lineage.referent? at hreferent
  split at hreferent
  · -- an assignment asks for a setter, any other use for a method and then for a getter
    exact ⟨name, .setter, rfl, hreferent⟩
  · rcases Option.or_eq_some_iff.1 hreferent with hfound | ⟨-, hfound⟩
    · exact ⟨name, .method, rfl, hfound⟩
    · exact ⟨name, .getter, rfl, hfound⟩

/-- A reference leads to a method or accessor of a class nearer to the base, on the same side. -/
theorem verdict_eq_copy (hr : s.registry = .ok r) {m : Member} {ref : SuperReference}
    {entry : Member} (h : (r.lineage target).verdict m ref = .copy entry) :
    (∃ d ∈ r.ancestry target, entry ∈ d.members.toList) ∧ entry.kind.onPrototype = true ∧
      entry.identity.isStatic = m.identity.isStatic ∧
      (r.lineage target).Precedes entry.owner m.owner := by
  obtain ⟨name, kind, hk, hfound⟩ := Lineage.nearestAbove?_of_verdict h
  obtain ⟨hd, hident, hbefore⟩ :=
    nearestAbove?_eq_some hr (Inherited.hasHistory_of_onPrototype hk) hfound
  refine ⟨hd, ?_, by rw [hident], hbefore⟩
  rw [Member.kind, hident]
  exact hk

/-- A copy is of a method or accessor that some class of the chain declares. -/
theorem reached_declared (hr : s.registry = .ok r) {ms : List Member} {p : Progress}
    (hp : p.Valid s (r.lineage target) ms) {c : Excerpt} (hc : c ∈ p.copies) :
    s.Records c.member ∧ c.member.kind.onPrototype = true := by
  obtain ⟨m, ref, hv⟩ := hp.reached c hc
  obtain ⟨⟨d, hd, hmem⟩, hk, -⟩ := verdict_eq_copy hr hv
  exact ⟨(Script.registers_of_ancestry hr hd).records hmem, hk⟩

/-- The constructors of a lineage are declared by its classes, and none of them is static. -/
theorem constructor_declared (hr : s.registry = .ok r) {m : Member}
    (hm : m ∈ (r.lineage target).constructors) :
    s.Records m ∧ m.kind = .constructor ∧ m.identity.isStatic = false := by
  obtain ⟨hk, d, hd, hmem⟩ := mem_constructors_lineage hr hm
  have hrec := (Script.registers_of_ancestry hr hd).records hmem
  exact ⟨hrec, hk, hrec.isStatic_constructor hk⟩

/-- The edit of the name of a recorded method, accessor or constructor. -/
theorem Script.Records.mem_renameEdits {m : Member} (h : s.Records m)
    (hk : m.kind.onPrototype = true ∨ m.kind = .constructor) (name : String) :
    ∃ n, m.nameNode? = some n ∧ ⟨n.start, n.stop, name⟩ ∈ m.renameEdits name := by
  obtain ⟨n, hn⟩ := h.exists_nameNode hk
  refine ⟨n, hn, ?_⟩
  rw [Member.renameEdits, hn]
  exact List.mem_singleton_self _

/-! ### Closure -/

/-- A resolved class has all the names that its edits introduce. -/
structure ClosedUnderNames (l : Lineage) (c : Resolution) : Prop where
  /-- A name that is introduced belongs to a copy, or to a method made of a constructor, on the side
  of the member that uses it. -/
  answered : ∀ x ∈ c.excerpts, ∀ e ∈ x.edits, ∀ name, e.Introduces name →
    ∃ y ∈ c.copies ++ c.constructorCopies, y.rename = some name ∧
      y.member.identity.isStatic = x.member.identity.isStatic
  /-- Each of these replaces the node of its own name. -/
  renamed : ∀ y ∈ c.copies ++ c.constructorCopies, ∃ name n, y.rename = some name ∧
    y.member.nameNode? = some n ∧ ⟨n.start, n.stop, name⟩ ∈ y.edits
  /-- No declaration is copied twice. -/
  distinct : c.copies.Pairwise fun y z =>
    ¬ (y.member.owner = z.member.owner ∧ y.member.identity = z.member.identity)
  /-- What a copy refers to comes from a class nearer to the base. -/
  descending : ∀ y ∈ c.copies, ∀ e ∈ y.edits, ∀ name, e.Introduces name →
    ∀ z ∈ c.copies ++ c.constructorCopies, z.rename = some name →
      z.member.identity.isStatic = y.member.identity.isStatic →
      l.Precedes z.member.owner y.member.owner

variable {p : Progress} {names : List String} {c : Resolution}

/-- An edit that introduces a name is that of a reference with a copy, or that of a constructor
call. -/
theorem Rendering.introduces {l : Lineage} {x : Excerpt} (hx : Rendering s l p c x)
    (hp : p.Valid s l l.written) {e : Edit} (he : e ∈ x.edits) {name : String}
    (h : e.Introduces name) :
    (∃ ref entry, l.verdict x.member ref = .copy entry ∧ p.copyOf? entry = some name) ∨
      (x.member ∈ l.constructors ∧ ∃ y ∈ c.constructorCopies, y.rename = some name) := by
  obtain ⟨before, after, hedits, hother⟩ := hx.edits
  have hcase : e ∈ p.referenceEdits l x.member ∨ e ∈ before ++ after := by
    rw [hedits, List.mem_append, List.mem_append] at he
    rw [List.mem_append]
    tauto
  rcases hcase with he | he
  · -- an edit for a reference bears the name of a copy
    left
    obtain ⟨ref, -, hedit⟩ := List.mem_filterMap.1 he
    unfold editFor? at hedit
    split at hedit
    · next entry hv =>
      obtain ⟨name', hname', rfl⟩ := Option.map_eq_some_iff.1 hedit
      obtain rfl := h.name_eq rfl
      exact ⟨ref, entry, hv, hname'⟩
    · cases hedit
  · rcases hother e he with ⟨name', hname', hrename⟩ | ⟨hctor, previous?, hcall, hprevious⟩
    · -- a new name begins otherwise
      obtain ⟨property, hget⟩ := hx.rename name' hname'
      obtain ⟨rest, rfl⟩ := hp.names.marked _ _ hget
      exact absurd (Member.text_renameEdits hrename) h.ne_marked
    · -- an edit for a call bears the name of the constructor before
      right
      obtain rfl := h.of_mem_constructionEdits hcall
      exact ⟨hctor, hprevious.resolve_left (by simp)⟩

namespace Outcome

/-- Every name that an edit introduces belongs to a copy, or to a method made of a constructor. -/
theorem exists_introduced (hr : s.registry = .ok r) (h : Outcome s (r.lineage target) p names c)
    {x : Excerpt} (hx : x ∈ c.excerpts) {e : Edit} (he : e ∈ x.edits) {name : String}
    (hname : e.Introduces name) :
    ∃ y ∈ c.copies ++ c.constructorCopies, y.rename = some name ∧
      y.member.identity.isStatic = x.member.identity.isStatic := by
  rcases (h.rendering hx).introduces h.valid he hname with
    ⟨ref, entry, hv, hcopy⟩ | ⟨hctor, y, hy, hy'⟩
  · -- a copy is on the side of the reference that led to it
    obtain ⟨-, y, hy, hrename, -, hident⟩ := h.valid.copyOf?_eq_some hcopy
    obtain ⟨-, -, hside, -⟩ := verdict_eq_copy hr hv
    refine ⟨y, List.mem_append_left _ ?_, hrename, ?_⟩
    · rw [h.copies]
      exact hy
    · rw [hident, hside]
  · -- constructors call constructors, and those are all on the side of the instances
    refine ⟨y, List.mem_append_right _ hy, hy', ?_⟩
    rw [(constructor_declared hr (h.constructorCopy hy).1).2.2, (constructor_declared hr hctor).2.2]

/-- A copy, or a method made of a constructor, replaces the node of its own name. -/
theorem exists_renameEdit (hr : s.registry = .ok r) (h : Outcome s (r.lineage target) p names c)
    {y : Excerpt} (hy : y ∈ c.copies ++ c.constructorCopies) :
    ∃ name n, y.rename = some name ∧ y.member.nameNode? = some n ∧
      ⟨n.start, n.stop, name⟩ ∈ y.edits := by
  rcases List.mem_append.1 hy with hy | hy
  · -- both copies and constructors are methods with a name node, where the new name goes
    rw [h.copies] at hy
    obtain ⟨hrec, hk⟩ := reached_declared hr h.valid hy
    obtain ⟨name, hname, hedits⟩ := (h.finished y hy).edits
    obtain ⟨n, hn, hmem⟩ := hrec.mem_renameEdits (.inl hk) name
    refine ⟨name, n, hname, hn, ?_⟩
    rw [hedits]
    exact List.mem_append_left _ hmem
  · obtain ⟨hmem, name, hname, -, hedits⟩ := h.constructorCopy hy
    obtain ⟨hrec, hk, -⟩ := constructor_declared hr hmem
    obtain ⟨n, hn, hmem⟩ := hrec.mem_renameEdits (.inr hk) name
    exact ⟨name, n, hname, hn, hedits _ hmem⟩

theorem pairwise_copies (h : Outcome s (r.lineage target) p names c) :
    c.copies.Pairwise fun y z =>
      ¬ (y.member.owner = z.member.owner ∧ y.member.identity = z.member.identity) := by
  rw [h.copies]
  refine h.valid.distinct.imp fun {y z} hyz hsame => ?_
  rw [isCopyOf_comm, Bool.eq_false_iff, ne_eq, isCopyOf_iff] at hyz
  exact hyz hsame

/-- A copy, or a method made of a constructor, has the name that was granted to its property. -/
theorem granted_of_mem (hr : s.registry = .ok r) (h : Outcome s (r.lineage target) p names c)
    {z : Excerpt} (hz : z ∈ c.copies ++ c.constructorCopies) :
    ∃ name, z.rename = some name ∧
      p.names.granted.get? (z.member.owner, z.member.identity.property) = some name := by
  rcases List.mem_append.1 hz with hz | hz
  · rw [h.copies] at hz
    exact h.valid.renamed z hz
  · obtain ⟨hmem, name, hname, hget, -⟩ := h.constructorCopy hz
    obtain ⟨hrec, hk, -⟩ := constructor_declared hr hmem
    refine ⟨name, hname, ?_⟩
    -- constructors have one key, whatever class they are of
    rw [hrec.property_constructor hk]
    exact hget

/-- What a copy refers to comes from a class nearer to the base. -/
theorem precedes_introduced (hr : s.registry = .ok r) (h : Outcome s (r.lineage target) p names c)
    {y : Excerpt} (hy : y ∈ c.copies) {e : Edit} (he : e ∈ y.edits) {name : String}
    (hname : e.Introduces name) {z : Excerpt} (hz : z ∈ c.copies ++ c.constructorCopies)
    (hrename : z.rename = some name)
    (hside : z.member.identity.isStatic = y.member.identity.isStatic) :
    (r.lineage target).Precedes z.member.owner y.member.owner := by
  rw [h.copies] at hy
  rcases (h.rendering_of_mem_copies hy).introduces h.valid he hname with
    ⟨ref, entry, hv, hcopy⟩ | ⟨hctor, -⟩
  · obtain ⟨-, -, hside', hbefore⟩ := verdict_eq_copy hr hv
    obtain ⟨hget, -⟩ := h.valid.copyOf?_eq_some hcopy
    obtain ⟨name', hname', hget'⟩ := h.granted_of_mem hr hz
    obtain rfl := Option.some.inj (hrename.symm.trans hname')
    -- `z` need not be the copy of `entry`, but they share a name and so their class
    have hkey := h.valid.names.injective _ _ _ hget' hget (hside.trans hside'.symm)
    have howner : z.member.owner = entry.owner := (Prod.mk.inj hkey).1
    rw [howner]
    exact hbefore
  · -- a copy is never a constructor
    have hk := (reached_declared hr h.valid hy).2
    rw [(constructor_declared hr hctor).2.1] at hk
    cases hk

end Outcome

/-- **A resolved class is closed under the names that it introduces**, whatever the script and the
class. -/
theorem closedUnderNames_resolve (hr : s.registry = .ok r) (target : String) :
    ClosedUnderNames (r.lineage target) (s.resolve (r.lineage target)) := by
  cases hactive : (r.lineage target).isActive with
  | true =>
    obtain ⟨p, names, hout⟩ := exists_outcome s hactive
    constructor
    case answered => exact fun x hx e he name hname => hout.exists_introduced hr hx he hname
    case renamed => exact fun y hy => hout.exists_renameEdit hr hy
    case distinct => exact hout.pairwise_copies
    case descending =>
      exact fun y hy e he name hname z hz => hout.precedes_introduced hr hy he hname hz
  | false =>
    -- a class that stands alone has no edits, and there are no copies
    obtain ⟨hcopies, hconstructors, -, hedits⟩ := resolve_of_not_isActive (s := s) hactive
    constructor
    case answered =>
      intro x hx e he
      rw [hedits x hx] at he
      cases he
    case renamed => simp [hcopies, hconstructors]
    case distinct => simp [hcopies]
    case descending => simp [hcopies]

end Lineage

/-! ### A chain of two constructors -/

/-- Two classes `A` and `B` that extends it, both with a constructor and a method `m`, of which
those of `B` call those of `A`. -/
def pairedConstructors : Script where
  source := .ofText ("class A\x7bconstructor()\x7b\x7dm()\x7b\x7d\x7d"
    ++ "class B extends A\x7bconstructor()\x7bsuper()\x7dm()\x7bsuper.m\x7d\x7d")
  root := .sound (.other "program") none 0 82
    [.shortClass 0 7 29 [] [.shortMethod 8 8 19 23 [] [], .shortMethod 23 23 24 28 [] []],
      .shortClass 29 46 82 [.shortHeritage 37]
        [.shortMethod 47 47 58 69 [] [.shortSuperCall 61],
          .shortMethod 69 69 70 81 [] [.shortSuper 73]]]

/-- The edits of the class `B` introduce the two names that it gets from `A`. -/
theorem closedUnderNames_pairedConstructors : ∃ r, pairedConstructors.registry = .ok r ∧
    (pairedConstructors.resolve (r.lineage "B")).excerpts.map (fun x => x.edits.map (·.text))
      = [["this._super_A_constructor"], ["this._super_A_m"], ["_super_A_m"],
        ["_super_A_constructor"]] ∧
    ClosedUnderNames (r.lineage "B") (pairedConstructors.resolve (r.lineage "B")) := by
  obtain ⟨r, hr, htexts⟩ := Script.exists_registry (s := pairedConstructors)
    (p := fun r => (pairedConstructors.resolve (r.lineage "B")).excerpts.map
      (fun x => x.edits.map (·.text))
        == [["this._super_A_constructor"], ["this._super_A_m"], ["_super_A_m"],
          ["_super_A_constructor"]])
    (by decide +kernel)
  exact ⟨r, hr, beq_iff_eq.1 htexts, closedUnderNames_resolve hr "B"⟩

end Disinherit
