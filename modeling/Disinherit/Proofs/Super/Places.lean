import Disinherit.Proofs.Lineage.History
import Disinherit.Proofs.Text.Lines
import Disinherit.Proofs.Tree.Spans

/-!
# The place of a super reference

In a well-spanned tree the offset at which a super reference starts tells the reference and the
member it stands in: references in one member start at different places
(`Script.Records.referencesSpan`), the members of one class do not overlap, and neither do the
classes of a script. So two members of a lineage with references that start at one place are the
same (`member_eq_of_start_eq`).

A diagnostic gives line and column instead, which tell the offset again
(`Source.position_injective`).
-/

namespace Disinherit

/-! ### References in one member -/

namespace Script

variable {s : Script}

/-- Exactly the calls ask for a constructor. -/
theorem superTarget_eq_construction {n : Node} {target : SuperTarget}
    (h : s.superTarget n = .ok target) : target = .construction ↔ n.kind = .callExpression := by
  unfold superTarget at h
  split at h
  · next hk =>
    obtain rfl := Except.ok.inj h
    simp [hk]
  · next hk =>
    -- a property is a member, hidden or not known, and so no construction
    refine iff_of_false ?_ (by simp [hk])
    rintro rfl
    split at h
    · cases h
    · split at h
      · cases h
      · obtain ⟨text, -, h⟩ := Attempt.bind_eq_ok.1 h
        cases h
  · next hcall _ =>
    refine iff_of_false ?_ hcall
    rintro rfl
    split at h
    · split at h
      · obtain ⟨text, -, h⟩ := Attempt.bind_eq_ok.1 h
        cases h
      · cases h
    · cases h

/-- References are read one for each site, in order. -/
theorem readReferences_spec {ps : List Node.SuperSite} {rs : List SuperReference}
    (h : s.readReferences ps = .ok rs) :
    rs.map (fun r => (r.node, r.parent)) = ps.map (fun p => (p.node, p.parent)) ∧
      ∀ r ∈ rs, s.superTarget r.node = .ok r.target := by
  induction ps generalizing rs with
  | nil =>
    obtain rfl := Except.ok.inj h
    simp
  | cons p ps ih =>
    rw [readReferences, Attempt.bind_eq_ok] at h
    obtain ⟨target, htarget, h⟩ := h
    obtain ⟨rest, hrest, h⟩ := Attempt.bind_eq_ok.1 h
    obtain rfl := Attempt.pure_eq_ok.1 h
    -- one reference is read for each site, in order
    obtain ⟨hmap, htargets⟩ := ih hrest
    refine ⟨by simp [hmap], fun r hr => ?_⟩
    rcases List.mem_cons.1 hr with rfl | hr
    · exact htarget
    · exact htargets r hr

/-- How the references in a member lie. -/
structure ReferencesSpan (m : Member) : Prop where
  increasing : m.references.Pairwise fun a b => a.node.start < b.node.start
  within : ∀ r ∈ m.references,
    m.node.start ≤ r.node.start ∧ r.node.start < r.node.stop ∧ r.node.stop ≤ m.node.stop
  wellSpanned : ∀ r ∈ m.references, r.node.WellSpanned
  isSuper : ∀ r ∈ m.references, r.node.isSuperReference = true
  /-- Exactly the calls ask for a constructor. -/
  construction : ∀ r ∈ m.references, (r.target = .construction ↔ r.node.kind = .callExpression)
  /-- Every super reference that is found in the member is read. -/
  sites : m.references.map (fun r => (r.node, r.parent))
    = (m.node.superSites m.nameNode?).map fun p => (p.node, p.parent)

theorem Records.referencesSpan {m : Member} (h : s.Records m) (hm : m.node.WellSpanned) :
    ReferencesSpan m := by
  obtain ⟨hmap, htargets⟩ := readReferences_spec h.references
  have hsites := Node.sites_superSites hm m.node.memberName?
  -- the references are those of the sites, node for node
  have hnodes :
      m.references.map (·.node) = (m.node.superSites m.node.memberName?).map (·.node) := by
    have := congrArg (List.map Prod.fst) hmap
    simpa only [List.map_map, Function.comp_def] using this
  -- what is known of the sites can therefore be said of the references
  have hsite : ∀ r ∈ m.references, ∃ p ∈ m.node.superSites m.node.memberName?, p.node = r.node := by
    intro r hr
    have hmem : r.node ∈ m.references.map (·.node) := List.mem_map_of_mem hr
    rw [hnodes] at hmem
    exact List.mem_map.1 hmem
  constructor
  case increasing =>
    have hincreasing : (m.references.map (·.node)).Pairwise fun a b => a.start < b.start := by
      rw [hnodes]
      exact List.pairwise_map.2 hsites.increasing
    rw [List.pairwise_map] at hincreasing
    exact hincreasing
  case within =>
    intro r hr
    obtain ⟨p, hp, hpr⟩ := hsite r hr
    exact hpr ▸ hsites.within p hp
  case wellSpanned =>
    intro r hr
    obtain ⟨p, hp, hpr⟩ := hsite r hr
    exact hpr ▸ hsites.wellSpanned p hp
  case isSuper =>
    intro r hr
    obtain ⟨p, hp, hpr⟩ := hsite r hr
    exact hpr ▸ hsites.isSuper p hp
  case construction => exact fun r hr => superTarget_eq_construction (htargets r hr)
  case sites => exact hmap

/-- What is found in the member is read. -/
theorem ReferencesSpan.exists_reference {m : Member} (h : ReferencesSpan m) {site : Node.SuperSite}
    (hsite : site ∈ m.node.superSites m.nameNode?) : ∃ r ∈ m.references, r.node = site.node := by
  have hmem : (site.node, site.parent) ∈ m.references.map fun r => (r.node, r.parent) := by
    rw [h.sites]
    exact List.mem_map_of_mem (f := fun p : Node.SuperSite => (p.node, p.parent)) hsite
  obtain ⟨r, hr, heq⟩ := List.mem_map.1 hmem
  exact ⟨r, hr, (Prod.mk.inj heq).1⟩

/-- What is read is found in the member. -/
theorem ReferencesSpan.exists_site {m : Member} (h : ReferencesSpan m) {r : SuperReference}
    (hr : r ∈ m.references) : ∃ site ∈ m.node.superSites m.nameNode?, site.node = r.node := by
  have hmem : (r.node, r.parent) ∈
      (m.node.superSites m.nameNode?).map fun p => (p.node, p.parent) := by
    rw [← h.sites]
    exact List.mem_map_of_mem (f := fun r : SuperReference => (r.node, r.parent)) hr
  obtain ⟨site, hsite, heq⟩ := List.mem_map.1 hmem
  exact ⟨site, hsite, (Prod.mk.inj heq).1⟩

theorem ReferencesSpan.eq_of_start_eq {m : Member} (h : ReferencesSpan m) {a b : SuperReference}
    (ha : a ∈ m.references) (hb : b ∈ m.references) (heq : a.node.start = b.node.start) :
    a = b := by
  by_contra hne
  rcases pairwise_or h.increasing ha hb hne with hlt | hlt <;> omega

end Script

/-! ### Members of a lineage -/

namespace Node

/-- A class lies within the statement that declares it. -/
theorem WellSpanned.declaredClass {stmt cls : Node} (h : stmt.WellSpanned)
    (hcls : stmt.declaredClass? = some cls) :
    cls.WellSpanned ∧ stmt.start ≤ cls.start ∧ cls.stop ≤ stmt.stop := by
  unfold declaredClass? at hcls
  split at hcls
  · obtain rfl := Option.some.inj hcls
    exact ⟨h, Nat.le_refl _, Nat.le_refl _⟩
  · have hmem : cls ∈ stmt.children := by
      rcases Option.or_eq_some_iff.1 (Option.filter_eq_some_iff.1 hcls).1 with hc | ⟨-, hc⟩
      · exact (child?_mem hc).1
      · exact (child?_mem hc).1
    have hwithin := h.spansWell.within cls hmem
    exact ⟨h.child hmem, hwithin.1, hwithin.2.2⟩
  · cases hcls

/-- The items in the body of a class lie within it, one after the other. -/
theorem WellSpanned.bodyItems {cls : Node} (h : cls.WellSpanned) :
    (cls.bodyItems.Pairwise fun a b => a.stop ≤ b.start) ∧
      ∀ n ∈ cls.bodyItems, n.WellSpanned ∧ cls.start ≤ n.start ∧ n.stop ≤ cls.stop := by
  unfold Node.bodyItems
  split
  · next body hbody =>
    have hmem := (child?_mem hbody).1
    have hspan := h.child hmem
    have hwithin := h.spansWell.within body hmem
    refine ⟨hspan.spansWell.ordered.filter _, fun n hn => ?_⟩
    have hn := (List.mem_filter.1 hn).1
    have := hspan.spansWell.within n hn
    exact ⟨hspan.child hn, by omega, by omega⟩
  · simp

end Node

namespace Script

variable {s : Script} {r : Registry}

/-- A member lies within the statement of its class. -/
theorem Registers.span {d : ClassDecl} (hd : s.Registers d) (h : d.statement.WellSpanned)
    {m : Member} (hm : m ∈ d.members.toList) :
    m.node.WellSpanned ∧ d.statement.start ≤ m.node.start ∧ m.node.stop ≤ d.statement.stop := by
  obtain ⟨ms, hms, -⟩ := hd.declarations
  obtain ⟨hcls, hstart, hstop⟩ := h.declaredClass hd.class_eq
  -- the member is an item of the body, which is within the class, which is within the statement
  have hitem : m.node ∈ d.node.bodyItems :=
    (nodes_declarations_sublist hms).mem (List.mem_map_of_mem (hd.mem_declarations hms hm))
  obtain ⟨hspan, hstart', hstop'⟩ := hcls.bodyItems.2 _ hitem
  exact ⟨hspan, by omega, by omega⟩

/-- The members of one class do not overlap. -/
theorem Registers.disjoint {d : ClassDecl} (hd : s.Registers d) (h : d.statement.WellSpanned)
    {m m' : Member} (hm : m ∈ d.members.toList) (hm' : m' ∈ d.members.toList) (hne : m ≠ m') :
    m.node.stop ≤ m'.node.start ∨ m'.node.stop ≤ m.node.start := by
  obtain ⟨ms, hms, -⟩ := hd.declarations
  -- declarations come in the order of the body
  have hordered : ms.Pairwise fun a b => a.node.stop ≤ b.node.start :=
    List.pairwise_map.1 ((h.declaredClass hd.class_eq).1.bodyItems.1.sublist
      (nodes_declarations_sublist hms))
  exact pairwise_or hordered (hd.mem_declarations hms hm) (hd.mem_declarations hms hm') hne

/-- The statements of a registry are well spanned, and different classes do not overlap. -/
theorem statements_span (hr : s.registry = .ok r) (hroot : s.root.WellSpanned) :
    (∀ d ∈ r.classes, d.statement.WellSpanned) ∧
      r.classes.Pairwise fun d d' => d.statement.stop ≤ d'.statement.start := by
  have hsub : (r.classes.map (·.statement)).Sublist s.root.children :=
    (statements_sublist hr).trans List.filter_sublist
  refine ⟨fun d hd => hroot.child (hsub.mem (List.mem_map_of_mem hd)), ?_⟩
  exact List.pairwise_map.1 (hroot.spansWell.ordered.sublist hsub)

/-- **The place of a reference tells the member** of the lineage in which it stands. -/
theorem member_eq_of_start_eq (hr : s.registry = .ok r) (hroot : s.root.WellSpanned)
    {target : String} {d d' : ClassDecl} (hd : d ∈ r.ancestry target) (hd' : d' ∈ r.ancestry target)
    {m m' : Member} (hm : m ∈ d.members.toList) (hm' : m' ∈ d'.members.toList)
    {a b : SuperReference} (ha : a ∈ m.references) (hb : b ∈ m'.references)
    (heq : a.node.start = b.node.start) : m = m' := by
  obtain ⟨hspan, hordered⟩ := statements_span hr hroot
  have hc := Registry.mem_classes_of_mem_ancestry hd
  have hc' := Registry.mem_classes_of_mem_ancestry hd'
  have hreg := registers_of_registry hr hc
  have hreg' := registers_of_registry hr hc'
  obtain ⟨hwell, hstart, hstop⟩ := hreg.span (hspan d hc) hm
  obtain ⟨hwell', hstart', hstop'⟩ := hreg'.span (hspan d' hc') hm'
  have hwithin := ((hreg.records hm).referencesSpan hwell).within a ha
  have hwithin' := ((hreg'.records hm').referencesSpan hwell').within b hb
  -- two members or classes that do not overlap cannot both hold the place
  by_contra hne
  by_cases hsame : d = d'
  · subst hsame
    rcases hreg.disjoint (hspan d hc) hm hm' hne with hlt | hlt <;> omega
  · rcases pairwise_or hordered hc hc' hsame with hlt | hlt <;> omega

end Script

end Disinherit
