import Disinherit.Proofs.Super.Closure
import Disinherit.Proofs.Super.Places
import Mathlib.Data.List.Count

/-!
# Every super reference is accounted for

Resolution may replace a reference by the name of a copy, or report that it stays. `AccountsFor`
says that it does one of the two, exactly once, for every reference in everything that is written
out, and that nothing else is reported. This is so also when one member is written out both as
itself and as a copy: what becomes of a reference depends on the member alone, and the report is
given once for the place.

The places decide. In a well-spanned tree a reference has its place to itself, so that an edit of
its span is its own, and a report of its place is about it (`Script.member_eq_of_start_eq`).
-/

namespace Disinherit

open Progress

/-! ### Accounts -/

/-- The edit replaces a node by a reference to a copy. -/
def Resolution.redirects (c : Resolution) (n : Node) (e : Edit) : Bool :=
  c.copies.any fun y => y.rename.any fun name => e == ⟨n.start, n.stop, "this." ++ name⟩

/-- The number of reports of unresolved references at a place. -/
def Resolution.reportsAt (c : Resolution) (place : Position) : Nat :=
  c.diagnostics.countP fun d =>
    d.kind == .unresolvedSuperCall && d.line == (place.line : Int)
      && d.column == (place.column : Int)

/-- The reference leads to a copy. -/
def Verdict.isCopy : Verdict → Bool
  | .copy _ => true
  | _ => false

/-- Every super reference that is not a call is redirected once or reported once, and nothing else
is reported. -/
structure AccountsFor (s : Script) (c : Resolution) : Prop where
  each : ∀ x ∈ c.excerpts, ∀ site ∈ x.member.node.superSites x.member.nameNode?,
    site.node.kind ≠ .callExpression →
      (x.edits.countP (c.redirects site.node) = 1 ∧ c.reportsAt (s.position site.node) = 0) ∨
      (x.edits.countP (c.redirects site.node) = 0 ∧ c.reportsAt (s.position site.node) = 1)
  only : ∀ d ∈ c.diagnostics, d.kind = .unresolvedSuperCall →
    ∃ x ∈ c.excerpts, ∃ site ∈ x.member.node.superSites x.member.nameNode?,
      site.node.kind ≠ .callExpression ∧
        d.line = (s.position site.node).line ∧ d.column = (s.position site.node).column

theorem Resolution.redirects_iff {c : Resolution} {n : Node} {e : Edit} :
    c.redirects n e = true ↔ e.start = n.start ∧ e.stop = n.stop ∧
      ∃ y ∈ c.copies, ∃ name, y.rename = some name ∧ e.text = "this." ++ name := by
  obtain ⟨start, stop, text⟩ := e
  simp only [redirects, List.any_eq_true, Option.any_eq_true, beq_iff_eq, Edit.mk.injEq]
  constructor
  · rintro ⟨y, hy, name, hname, hstart, hstop, htext⟩
    exact ⟨hstart, hstop, y, hy, name, hname, htext⟩
  · rintro ⟨hstart, hstop, y, hy, name, hname, htext⟩
    exact ⟨y, hy, name, hname, hstart, hstop, htext⟩

/-! ### Counting -/

/-- The edits in a run over references that pass a test. -/
theorem countP_referenceEdits {l : Lineage} {p : Progress} {m : Member}
    (hm : Script.ReferencesSpan m) {r : SuperReference} (hr : r ∈ m.references) {test : Edit → Bool}
    (htest : ∀ e, test e = true → e.start = r.node.start) :
    (p.referenceEdits l m).countP test = if (p.editFor? l m r).any test then 1 else 0 := by
  -- the references are in order, and so no two of them are the same
  have hnodup : m.references.Nodup := hm.increasing.imp fun hlt heq => by
    rw [heq] at hlt
    exact Nat.lt_irrefl _ hlt
  rw [referenceEdits, List.countP_filterMap, countP_eq_ite hnodup hr]
  · cases p.editFor? l m r <;> rfl
  · -- an edit that passes starts where `r` does, and so it is the edit for `r`
    intro b hb hpass
    obtain ⟨e, he, hpass⟩ : ∃ e, p.editFor? l m b = some e ∧ test e = true := by
      cases h : p.editFor? l m b with
      | none => simp [h] at hpass
      | some e => exact ⟨e, rfl, by simpa [h] using hpass⟩
    refine hm.eq_of_start_eq hb hr ?_
    rw [← htest e hpass]
    unfold editFor? at he
    split at he
    · obtain ⟨name, -, rfl⟩ := Option.map_eq_some_iff.1 he
      rfl
    · cases he

/-- A redirected constructor call is edited where the call starts. -/
theorem start_of_mem_constructionEdits {source : Source} {method? : Option String} {m : Member}
    (hm : Script.ReferencesSpan m) {e : Edit} {name : String} (h : e.Introduces name)
    (he : e ∈ constructionEdits source method? m) :
    ∃ r ∈ m.references, r.target = .construction ∧ e.start = r.node.start := by
  -- only a call of a given method introduces a name
  obtain ⟨call, hcall, hedit⟩ := List.mem_flatMap.1 he
  obtain ⟨r, hr, hcall⟩ := List.mem_filterMap.1 hcall
  have hsome := h.of_mem_constructionEdits he
  subst hsome
  unfold SuperCall.ofReference? at hcall
  split at hcall
  · next htarget =>
    split at hcall
    · next callee arguments hcallee _ =>
      obtain rfl := Option.some.inj hcall
      refine ⟨r, hr, htarget, ?_⟩
      -- the reference is a call, and so its callee is the keyword with which it begins
      have hkind := (hm.construction r hr).1 htarget
      have hsuper : r.node.isSuperCall = true := by
        have := hm.isSuper r hr
        simpa [Node.isSuperReference, Node.isSuperMember, hkind] using this
      have hstart := ((hm.wellSpanned r hr).spansWell.call hsuper callee hcallee).1
      replace hedit : e ∈ SuperCall.calleeEdits _ ("this." ++ name) := hedit
      unfold SuperCall.calleeEdits at hedit
      split at hedit
      · rw [List.mem_singleton.1 hedit]
        exact hstart
      · rcases List.mem_pair.1 hedit with rfl | rfl
        · exact hstart
        · exact absurd (by simp) h.notMem
    · cases hcall
  · cases hcall

/-! ### Reports -/

theorem kind_of_mem_fieldOrderFindings {s : Script} {l : Lineage} {d : Diagnostic}
    (h : d ∈ fieldOrderFindings s l) : d.kind = .fieldInitializationOrder := by
  obtain ⟨m, -, hm⟩ := List.mem_filterMap.1 h
  unfold fieldOrderFinding? at hm
  split at hm
  · obtain ⟨c, -, rfl⟩ := Option.map_eq_some_iff.1 hm
    rfl
  · cases hm

theorem reportSpot_injective (s : Script) : Function.Injective (reportSpot s) := by
  intro a b h
  obtain ⟨-, hplace⟩ := Prod.mk.inj h
  obtain ⟨hline, hcolumn⟩ := Prod.mk.inj hplace
  refine s.source.position_injective ?_
  rw [Position.mk.injEq]
  exact ⟨Int.ofNat.inj hline, Int.ofNat.inj hcolumn⟩

theorem Resolution.reportsAt_eq_count (c : Resolution) (s : Script) (offset : Nat) :
    c.reportsAt (s.source.position offset) = (c.diagnostics.map spot).count
      (reportSpot s offset) := by
  rw [reportsAt, List.count, List.countP_map]
  refine List.countP_congr fun d _ => ?_
  simp [spot, reportSpot, and_assoc]

/-- A place is reported as often as it was noted, which is at most once. -/
theorem Outcome.reportsAt_eq {s : Script} {l : Lineage} {p : Progress} {names : List String}
    {c : Resolution} (h : Outcome s l p names c) (offset : Nat) :
    c.reportsAt (s.source.position offset) = if offset ∈ p.reported then 1 else 0 := by
  -- findings on fields are of another kind
  have hfields : ((fieldOrderFindings s l).map spot).count (reportSpot s offset) = 0 := by
    refine List.count_eq_zero.2 fun hmem => ?_
    obtain ⟨d, hd, hspot⟩ := List.mem_map.1 hmem
    have hkind : d.kind = .unresolvedSuperCall := (Prod.mk.inj hspot).1
    rw [kind_of_mem_fieldOrderFindings hd] at hkind
    cases hkind
  calc c.reportsAt (s.source.position offset)
      = ((p.diagnostics ++ fieldOrderFindings s l).map spot).count (reportSpot s offset) := by
        rw [c.reportsAt_eq_count, h.diagnostics]
    _ = (p.reported.map (reportSpot s)).count (reportSpot s offset) := by
        rw [List.map_append, List.count_append, hfields, h.valid.diagnostics, Nat.add_zero]
    _ = p.reported.count offset :=
        List.count_map_of_injective p.reported (reportSpot s) (reportSpot_injective s) offset
    _ = if offset ∈ p.reported then 1 else 0 := h.valid.nodup.count

/-! ### The account of a lineage -/

section Lineage

variable {s : Script} {r : Registry} {target : String} {p : Progress} {names : List String}
  {c : Resolution} {m : Member}

/-- What is written out for a class is declared by the classes of its chain. -/
theorem exists_of_renders (hr : s.registry = .ok r)
    (hp : p.Valid s (r.lineage target) (r.lineage target).written)
    (hm : p.Renders (r.lineage target).written m) :
    ∃ d ∈ r.ancestry target, m ∈ d.members.toList := by
  rcases hm with hm | ⟨x, hx, rfl⟩
  · -- a member in effect, or a constructor of the chain
    rcases List.mem_append.1 hm with hm | hm
    · exact exists_of_mem_lineage hr (List.mem_filter.1 hm).1
    · exact (mem_constructors_lineage hr hm).2
  · -- or a copy, which a reference led to
    obtain ⟨m, ref, hv⟩ := hp.reached x hx
    exact (verdict_eq_copy hr hv).1

theorem referencesSpan_of_mem (hr : s.registry = .ok r) (hroot : s.root.WellSpanned) {d : ClassDecl}
    (hd : d ∈ r.ancestry target) (hm : m ∈ d.members.toList) : Script.ReferencesSpan m := by
  have hreg := Script.registers_of_ancestry hr hd
  have hspan := (Script.statements_span hr hroot).1 d (Registry.mem_classes_of_mem_ancestry hd)
  exact (hreg.records hm).referencesSpan (hreg.span hspan hm).1

/-- Only constructor calls are left to the constructors. -/
theorem Lineage.verdict_ne_construction {l : Lineage} {ref : SuperReference}
    (h : ref.target ≠ .construction) : l.verdict m ref ≠ .construction := by
  -- every other verdict is of another form
  unfold Lineage.verdict
  split
  · next htarget => exact absurd htarget h
  · exact fun h => by cases h
  · exact fun h => by cases h
  · split
    · exact fun h => by cases h
    · split <;> exact fun h => by cases h

/-- The edits that redirect a reference in an excerpt: the one for the reference itself, if it has a
copy. -/
theorem Rendering.countP_redirects {l : Lineage} {x : Excerpt} (hx : Rendering s l p c x)
    (hp : p.Valid s l l.written) (hcopies : c.copies = p.copies)
    (hspan : Script.ReferencesSpan x.member) {ref : SuperReference}
    (href : ref ∈ x.member.references) (htarget : ref.target ≠ .construction) :
    x.edits.countP (c.redirects ref.node)
      = if (p.editFor? l x.member ref).isSome then 1 else 0 := by
  obtain ⟨before, after, hedits, hother⟩ := hx.edits
  -- neither a new name nor a constructor call is such an edit
  have hnone : ∀ e ∈ before ++ after, ¬ c.redirects ref.node e = true := by
    intro e he hredirects
    obtain ⟨hstart, -, y, -, name, -, htext⟩ := Resolution.redirects_iff.1 hredirects
    have hintro : e.Introduces name := .inl htext
    rcases hother e he with ⟨name', hname', hrename⟩ | ⟨-, previous?, hcall, -⟩
    · obtain ⟨property, hget⟩ := hx.rename name' hname'
      obtain ⟨rest, rfl⟩ := hp.names.marked _ _ hget
      exact hintro.ne_marked (Member.text_renameEdits hrename)
    · -- a call starts at a place of its own
      obtain ⟨ref', href', htarget', hstart'⟩ := start_of_mem_constructionEdits hspan hintro hcall
      have hsame := hspan.eq_of_start_eq href' href (hstart'.symm.trans hstart)
      exact htarget (hsame ▸ htarget')
  have hzero : before.countP (c.redirects ref.node) = 0 ∧
      after.countP (c.redirects ref.node) = 0 := by
    constructor
    · exact List.countP_eq_zero.2 fun e he => hnone e (List.mem_append_left _ he)
    · exact List.countP_eq_zero.2 fun e he => hnone e (List.mem_append_right _ he)
  rw [hedits, List.countP_append, List.countP_append, hzero.1, hzero.2, Nat.zero_add, Nat.add_zero,
    countP_referenceEdits hspan href fun e he => (Resolution.redirects_iff.1 he).1]
  -- the edit for the reference leads to a copy
  cases hedit : p.editFor? l x.member ref with
  | none => rfl
  | some e =>
    have hredirects : c.redirects ref.node e = true := by
      unfold editFor? at hedit
      split at hedit
      · obtain ⟨name, hname, rfl⟩ := Option.map_eq_some_iff.1 hedit
        obtain ⟨-, y, hy, hrename, -⟩ := hp.copyOf?_eq_some hname
        exact Resolution.redirects_iff.2 ⟨rfl, rfl, y, hcopies ▸ hy, name, hrename, rfl⟩
      · cases hedit
    simp [hredirects]

/-- A place is noted exactly if the reference there stays unresolved. -/
theorem mem_reported_iff (hr : s.registry = .ok r) (hroot : s.root.WellSpanned)
    (hp : p.Valid s (r.lineage target) (r.lineage target).written)
    (hm : p.Renders (r.lineage target).written m) (hsettles : p.SettlesAll (r.lineage target) m)
    {ref : SuperReference} (href : ref ∈ m.references) :
    ref.node.start ∈ p.reported ↔ ∃ why, (r.lineage target).verdict m ref = .unresolved why := by
  constructor
  · intro hreported
    obtain ⟨m', hm', ref', href', ⟨why, hv⟩, hstart⟩ := hp.origin _ hreported
    obtain ⟨d, hd, hmd⟩ := exists_of_renders hr hp hm
    obtain ⟨d', hd', hmd'⟩ := exists_of_renders hr hp hm'
    -- the note was made at the same reference of the same member
    obtain rfl := Script.member_eq_of_start_eq hr hroot hd' hd hmd' hmd href' href hstart
    have hsame := (referencesSpan_of_mem hr hroot hd hmd).eq_of_start_eq href' href hstart
    exact ⟨why, hsame ▸ hv⟩
  · rintro ⟨why, hv⟩
    -- a reference that is settled and unresolved has been noted
    have hsettled := hsettles ref href
    simp only [Settles, hv] at hsettled
    exact hsettled

/-- The account of a reference in an excerpt depends on the verdict alone. -/
theorem Outcome.account_eq (hr : s.registry = .ok r) (hroot : s.root.WellSpanned)
    (h : Outcome s (r.lineage target) p names c) {x : Excerpt} (hx : x ∈ c.excerpts)
    {ref : SuperReference} (href : ref ∈ x.member.references)
    (hkind : ref.node.kind ≠ .callExpression) :
    (x.edits.countP (c.redirects ref.node), c.reportsAt (s.position ref.node))
      = if ((r.lineage target).verdict x.member ref).isCopy then (1, 0) else (0, 1) := by
  have hrendering := h.rendering hx
  obtain ⟨d, hd, hmd⟩ := exists_of_renders hr h.valid hrendering.renders
  have hspan := referencesSpan_of_mem hr hroot hd hmd
  have htarget : ref.target ≠ .construction := mt (hspan.construction ref href).1 hkind
  -- the edits and the reports are counted apart, and both go by the verdict
  have hreported := mem_reported_iff hr hroot h.valid hrendering.renders hrendering.settles href
  rw [hrendering.countP_redirects h.valid h.copies hspan href htarget, Script.position,
    h.reportsAt_eq]
  have hsettled := hrendering.settles ref href
  cases hv : (r.lineage target).verdict x.member ref with
  | construction => exact absurd hv (Lineage.verdict_ne_construction htarget)
  | unresolved why => simp [editFor?, hv, hreported, Verdict.isCopy]
  | copy entry =>
    simp only [Settles, hv] at hsettled
    simp [editFor?, hv, hreported, hsettled, Verdict.isCopy]

/-- A reference in an excerpt is redirected there or reported, and not both. -/
theorem Outcome.redirected_or_reported (hr : s.registry = .ok r) (hroot : s.root.WellSpanned)
    (h : Outcome s (r.lineage target) p names c) {x : Excerpt} (hx : x ∈ c.excerpts)
    {ref : SuperReference} (href : ref ∈ x.member.references)
    (hkind : ref.node.kind ≠ .callExpression) :
    (x.edits.countP (c.redirects ref.node) = 1 ∧ c.reportsAt (s.position ref.node) = 0) ∨
      (x.edits.countP (c.redirects ref.node) = 0 ∧ c.reportsAt (s.position ref.node) = 1) := by
  have haccount := h.account_eq hr hroot hx href hkind
  split at haccount
  · exact .inl (Prod.mk.inj haccount)
  · exact .inr (Prod.mk.inj haccount)

/-- What is reported is a reference in an excerpt. -/
theorem Outcome.exists_reported (hr : s.registry = .ok r) (hroot : s.root.WellSpanned)
    (h : Outcome s (r.lineage target) p names c) {d : Diagnostic} (hd : d ∈ c.diagnostics)
    (hkind : d.kind = .unresolvedSuperCall) :
    ∃ x ∈ c.excerpts, ∃ site ∈ x.member.node.superSites x.member.nameNode?,
      site.node.kind ≠ .callExpression ∧
        d.line = (s.position site.node).line ∧ d.column = (s.position site.node).column := by
  rw [h.diagnostics] at hd
  rcases List.mem_append.1 hd with hd | hd
  · -- the report was noted at an offset, and the note has its reference
    have hspot : spot d ∈ p.reported.map (reportSpot s) := by
      rw [← h.valid.diagnostics]
      exact List.mem_map_of_mem hd
    obtain ⟨offset, hoffset, hspot⟩ := List.mem_map.1 hspot
    obtain ⟨-, hplace⟩ := Prod.mk.inj hspot
    obtain ⟨hline, hcolumn⟩ := Prod.mk.inj hplace
    obtain ⟨m, hm, ref, href, ⟨why, hv⟩, rfl⟩ := h.valid.origin offset hoffset
    obtain ⟨e, he, hme⟩ := exists_of_renders hr h.valid hm
    have hspan := referencesSpan_of_mem hr hroot he hme
    obtain ⟨x, hx, rfl⟩ := h.exists_excerpt (constructor_lineage r target)
      (fun m hm => (mem_constructors_lineage hr hm).1) hm
    obtain ⟨site, hsite, hnode⟩ := hspan.exists_site href
    refine ⟨x, hx, site, hsite, ?_, ?_⟩
    · -- calls are not left unresolved
      rw [hnode, ne_eq, ← hspan.construction ref href]
      intro htarget
      simp [Lineage.verdict, htarget] at hv
    · rw [hnode]
      exact ⟨hline.symm, hcolumn.symm⟩
  · rw [kind_of_mem_fieldOrderFindings hd] at hkind
    cases hkind

/-- **No super reference is dropped, and none is reported twice.** With ancestors, or something
unknown to extend, every reference is accounted for; a class that stands alone has nothing to edit
or report. -/
theorem accountsFor_resolve (hr : s.registry = .ok r) (hroot : s.root.WellSpanned)
    (target : String) :
    (1 < (r.ancestry target).length ∨ (r.lineage target).hasRoot = false →
      AccountsFor s (s.resolve (r.lineage target))) ∧
    (∀ d, r.ancestry target = [d] → d.extendsText = none →
      (∀ x ∈ (s.resolve (r.lineage target)).excerpts, x.edits = []) ∧
        (s.resolve (r.lineage target)).diagnostics = []) := by
  constructor
  · intro hactive
    have hactive : (r.lineage target).isActive = true := by
      -- either way there is something above the class, inside or outside of the script
      rcases hactive with hlong | hrootless
      · exact Bool.or_eq_true_iff.2 (.inl (decide_eq_true hlong))
      · exact Bool.or_eq_true_iff.2 (.inr (by rw [hrootless]; rfl))
    obtain ⟨p, names, hout⟩ := exists_outcome s hactive
    constructor
    case each =>
      intro x hx site hsite hkind
      obtain ⟨d, hd, hmd⟩ := exists_of_renders hr hout.valid (hout.rendering hx).renders
      obtain ⟨ref, href, hnode⟩ := (referencesSpan_of_mem hr hroot hd hmd).exists_reference hsite
      rw [← hnode] at hkind ⊢
      exact hout.redirected_or_reported hr hroot hx href hkind
    case only => exact fun d hd hkind => hout.exists_reported hr hroot hd hkind
  · intro d hchain hextends
    -- a class of its own is left alone
    have hancestry : (r.lineage target).ancestry = [d] := hchain
    have hactive : (r.lineage target).isActive = false := by
      simp [Lineage.isActive, Lineage.hasRoot, hancestry, hextends]
    obtain ⟨-, -, hdiagnostics, hedits⟩ := resolve_of_not_isActive (s := s) hactive
    exact ⟨hedits, hdiagnostics⟩

end Lineage

/-- In the class `C` one reference is redirected and another reported; the class `A` stands
alone. -/
theorem accountsFor_accessorBetween : ∃ r, accessorBetween.registry = .ok r ∧
    accessorBetween.root.WellSpanned ∧ 1 < (r.ancestry "C").length ∧
    (accessorBetween.resolve (r.lineage "C")).excerpts.map (fun x => x.edits.map (·.text))
      = [[], ["this._super_A_m"], ["_super_A_m"]] ∧
    (accessorBetween.resolve (r.lineage "C")).diagnostics.map spot
      = [(.unresolvedSuperCall, 1, 82)] ∧
    AccountsFor accessorBetween (accessorBetween.resolve (r.lineage "C")) ∧
    ∃ d, r.ancestry "A" = [d] ∧ d.extendsText = none ∧
      (accessorBetween.resolve (r.lineage "A")).diagnostics = [] := by
  obtain ⟨r, hr, htest⟩ := Script.exists_registry (s := accessorBetween)
    (p := fun r => decide (1 < (r.ancestry "C").length) &&
      (accessorBetween.resolve (r.lineage "C")).excerpts.map (fun x => x.edits.map (·.text))
        == [[], ["this._super_A_m"], ["_super_A_m"]] &&
      (accessorBetween.resolve (r.lineage "C")).diagnostics.map spot
        == [(.unresolvedSuperCall, 1, 82)] &&
      (r.ancestry "A").map (·.extendsText) == [none]) (by decide +kernel)
  simp only [Bool.and_eq_true, decide_eq_true_eq, beq_iff_eq] at htest
  obtain ⟨⟨⟨hlong, htexts⟩, hspots⟩, halone⟩ := htest
  have hroot : accessorBetween.root.WellSpanned := by decide +kernel
  obtain ⟨d, ds, hchain, hextends, hds⟩ := List.map_eq_cons_iff.1 halone
  obtain rfl := List.map_eq_nil_iff.1 hds
  exact ⟨r, hr, hroot, hlong, htexts, hspots, (accountsFor_resolve hr hroot "C").1 (.inl hlong), d,
    hchain, hextends, ((accountsFor_resolve hr hroot "A").2 d hchain hextends).2⟩

end Disinherit
