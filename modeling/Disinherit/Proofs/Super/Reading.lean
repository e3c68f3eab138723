import Disinherit.Proofs.Super.Account
import Disinherit.Proofs.Super.Chain
import Disinherit.Proofs.Tree.Nesting

/-!
# References that are read

A reference to a member by its name is read, unless an assignment writes to it or it is changed in
place. This file says exactly which of the references that no plain assignment writes to are
replaced by the name of a copy: those for which some class nearer to the base has a public method or
getter of the name, on the same side, and which do not stand directly in a compound assignment or an
increment (`rewrites_iff`). All others are reported instead.

The condition on the parent is about its kind alone. Of a plain assignment only the left side counts
(`SuperReference.use_eq_write_iff`), while a compound assignment takes either side for a change in
place (`SuperReference.use_eq_compound_iff`). So a reference on the right of `+=`, which is only
read, is reported as one that cannot be rewritten (`not_rewrites_addedReference`).
-/

namespace Disinherit

open Progress

/-! ### Sides of an assignment -/

/-- Of the children of a node, one that is not empty coincides with no other. -/
theorem Node.WellSpanned.eq_of_coincides {n a b : Node} (h : n.WellSpanned) (ha : a ∈ n.children)
    (hb : b ∈ n.children) (hwidth : b.start < b.stop) (hab : a.coincides b = true) : a = b := by
  simp only [Node.coincides, Bool.and_eq_true, beq_iff_eq] at hab
  by_contra hne
  rcases pairwise_or h.spansWell.ordered ha hb hne with hlt | hlt <;> omega

/-- The reference is what a plain assignment writes to. -/
def Node.SuperSite.IsAssigned (site : Node.SuperSite) : Prop :=
  site.parent.kind = .assignment ∧ site.parent.child? .left = some site.node

/-- The reference stands directly in a compound assignment, on either side, or in an increment. -/
def Node.SuperSite.InCompound (site : Node.SuperSite) : Prop :=
  site.parent.kind = .augmentedAssignment ∨ site.parent.kind = .update

namespace SuperReference

variable {site : Node.SuperSite} {target : SuperTarget}

/-- To be written to is to be the left side of an assignment. -/
theorem use_eq_write_iff (hparent : site.parent.WellSpanned)
    (hchild : site.node ∈ site.parent.children) (hwidth : site.node.start < site.node.stop) :
    (SuperReference.mk site.node site.parent target).use = .write ↔ site.IsAssigned := by
  unfold use Node.SuperSite.IsAssigned
  dsimp only
  split
  · next hkind =>
    rw [and_iff_right hkind]
    split
    · next left hleft =>
      rw [hleft, Option.some.injEq]
      constructor
      · -- the assigned part is told by its span, and no other child has the same one
        intro h
        split at h
        · next hsame => exact hparent.eq_of_coincides (Node.child?_mem hleft).1 hchild hwidth hsame
        · cases h
      · rintro rfl
        rw [if_pos (by simp [Node.coincides])]
    · next hleft =>
      rw [hleft]
      simp
  · next hkind => simp [hkind]
  · next hkind => simp [hkind]
  · next hkind _ _ => exact iff_of_false (fun h => by cases h) fun h => hkind h.1

/-- To be changed in place is to have such a parent. -/
theorem use_eq_compound_iff : (SuperReference.mk site.node site.parent target).use = .compound ↔
    site.InCompound := by
  unfold use Node.SuperSite.InCompound
  dsimp only
  split
  · next hkind =>
    rw [hkind]
    split
    · split <;> simp
    · simp
  · next hkind => simp [hkind]
  · next hkind => simp [hkind]
  · next haugmented hupdate =>
    exact iff_of_false (fun h => by cases h) fun h => h.elim haugmented hupdate

end SuperReference

/-- A site and what is asked for there make up a reference of the member. -/
theorem Script.Records.mem_references {s : Script} {m : Member} (h : s.Records m)
    {site : Node.SuperSite} (hsite : site ∈ m.node.superSites m.nameNode?) {target : SuperTarget}
    (htarget : s.superTarget site.node = .ok target) :
    ⟨site.node, site.parent, target⟩ ∈ m.references := by
  obtain ⟨hmap, htargets⟩ := readReferences_spec h.references
  have hmem : (site.node, site.parent) ∈ m.references.map fun r => (r.node, r.parent) := by
    rw [hmap]
    exact List.mem_map_of_mem (f := fun p : Node.SuperSite => (p.node, p.parent)) hsite
  -- some reference was read at the site, and it has the target that is read there
  obtain ⟨⟨node, parent, target'⟩, href, heq⟩ := List.mem_map.1 hmem
  obtain ⟨rfl, rfl⟩ := Prod.mk.inj heq
  obtain rfl := Except.ok.inj (htarget.symm.trans (htargets _ href))
  exact href

/-! ### What there is to read -/

/-- Some class of the chain nearer to the base than `owner` has a public method or getter of the
name, on the given side. -/
def Lineage.Offers (l : Lineage) (owner : String) (isStatic : Bool) (name : String) : Prop :=
  ∃ d ∈ l.ancestry, l.Precedes d.name owner ∧ ∃ m ∈ d.members.toList,
    m.identity = ⟨isStatic, .method, .pub, name⟩ ∨ m.identity = ⟨isStatic, .getter, .pub, name⟩

section Lineage

variable {s : Script} {r : Registry} {target name owner : String} {use : SuperUse} {isStatic : Bool}

/-- Something is found for a kind if a class nearer to the base declares it. -/
theorem isSome_nearestAbove? (hr : s.registry = .ok r) {i : Identity}
    (hi : Inherited.hasHistory i.kind = true) :
    ((r.lineage target).nearestAbove? i owner).isSome = true ↔
      ∃ d ∈ r.ancestry target, (r.lineage target).Precedes d.name owner ∧
        ∃ m ∈ d.members.toList, m.identity = i := by
  rw [Option.isSome_iff_exists]
  constructor
  · rintro ⟨m, hfound⟩
    obtain ⟨⟨d, hd, hm⟩, hident, hbefore⟩ := nearestAbove?_eq_some hr hi hfound
    rw [(Script.registers_of_ancestry hr hd).owner_eq hm] at hbefore
    exact ⟨d, hd, hbefore, m, hm, hident⟩
  · rintro ⟨d, hd, hbefore, m, hm, rfl⟩
    rw [← (Script.registers_of_ancestry hr hd).owner_eq hm] at hbefore
    exact Option.ne_none_iff_exists'.1 (nearestAbove?_ne_none hr hd hm hi hbefore)

/-- A lookup for reading finds something just if something is on offer. -/
theorem isSome_referent? (hr : s.registry = .ok r) (huse : use ≠ .write) :
    ((r.lineage target).referent? name use isStatic owner).isSome = true ↔
      (r.lineage target).Offers owner isStatic name := by
  -- all uses but assignments ask for a method first and then for a getter
  have hfound : (r.lineage target).referent? name use isStatic owner
      = ((r.lineage target).nearestAbove? ⟨isStatic, .method, .pub, name⟩ owner).or
          ((r.lineage target).nearestAbove? ⟨isStatic, .getter, .pub, name⟩ owner) := by
    cases use with
    | read => rfl
    | write => exact absurd rfl huse
    | compound => rfl
  rw [hfound, Option.isSome_or, Bool.or_eq_true, isSome_nearestAbove? hr rfl,
    isSome_nearestAbove? hr rfl]
  constructor
  · rintro (⟨d, hd, hbefore, m, hm, hident⟩ | ⟨d, hd, hbefore, m, hm, hident⟩)
    · exact ⟨d, hd, hbefore, m, hm, .inl hident⟩
    · exact ⟨d, hd, hbefore, m, hm, .inr hident⟩
  · rintro ⟨d, hd, hbefore, m, hm, hident | hident⟩
    · exact .inl ⟨d, hd, hbefore, m, hm, hident⟩
    · exact .inr ⟨d, hd, hbefore, m, hm, hident⟩

/-- The verdict on a reference by name: a copy, unless it is changed in place or nothing is
found. -/
theorem Lineage.isCopy_verdict {l : Lineage} {m : Member} {ref : SuperReference}
    (htarget : ref.target = .member name) : (l.verdict m ref).isCopy = true ↔
      ref.use ≠ .compound ∧
        (l.referent? name ref.use m.identity.isStatic m.owner).isSome = true := by
  unfold verdict
  rw [htarget]
  dsimp only
  split
  · next hcompound => simp [Verdict.isCopy, hcompound]
  · next hcompound =>
    rw [and_iff_right hcompound]
    cases l.referent? name ref.use m.identity.isStatic m.owner <;> simp [Verdict.isCopy]

/-! ### The account of a reference that is read -/

/-- In an excerpt the node is replaced by the name of a copy, once, and nothing is reported for
it. -/
def Resolution.Rewrites (c : Resolution) (s : Script) (x : Excerpt) (n : Node) : Prop :=
  x.edits.countP (c.redirects n) = 1 ∧ c.reportsAt (s.position n) = 0

/-- In an excerpt the node stays, and one report says so. -/
def Resolution.Leaves (c : Resolution) (s : Script) (x : Excerpt) (n : Node) : Prop :=
  x.edits.countP (c.redirects n) = 0 ∧ c.reportsAt (s.position n) = 1

/-- A reference in a member of the chain is a child of its parent that is not empty. -/
theorem wellSpanned_parent_of_site (hr : s.registry = .ok r) (hroot : s.root.WellSpanned)
    {d : ClassDecl} {m : Member} (hd : d ∈ r.ancestry target) (hm : m ∈ d.members.toList)
    {site : Node.SuperSite} (hsite : site ∈ m.node.superSites m.nameNode?) :
    site.parent.WellSpanned ∧ site.node ∈ site.parent.children ∧
      site.node.start < site.node.stop := by
  have hspan := (Script.statements_span hr hroot).1 d (Registry.mem_classes_of_mem_ancestry hd)
  have hnode := ((Script.registers_of_ancestry hr hd).span hspan hm).1
  obtain ⟨hparent, hchild⟩ := Node.mem_superSites hsite
  exact ⟨hnode.of_mem_preorder hparent, hchild,
    ((Node.sites_superSites hnode _).within site hsite).2.1⟩

/-- **Which references are rewritten.** A reference by name that no assignment writes to is replaced
by the name of a copy just if something is on offer for it and its parent is neither a compound
assignment nor an increment. Otherwise it is reported. -/
theorem rewrites_iff (hr : s.registry = .ok r) (hroot : s.root.WellSpanned)
    (hactive : ¬ ∃ d, r.ancestry target = [d] ∧ d.extendsText = none) {x : Excerpt}
    (hx : x ∈ (s.resolve (r.lineage target)).excerpts) {site : Node.SuperSite}
    (hsite : site ∈ x.member.node.superSites x.member.nameNode?)
    (htarget : s.superTarget site.node = .ok (.member name)) (hread : ¬ site.IsAssigned) :
    ((s.resolve (r.lineage target)).Rewrites s x site.node ↔
      ¬ site.InCompound ∧
        (r.lineage target).Offers x.member.owner x.member.identity.isStatic name) ∧
    ((s.resolve (r.lineage target)).Leaves s x site.node ↔
      (site.InCompound ∨
        ¬ (r.lineage target).Offers x.member.owner x.member.identity.isStatic name)) := by
  obtain ⟨p, names, hout⟩ :=
    exists_outcome s ((Lineage.isActive_iff (l := r.lineage target)).2 hactive)
  obtain ⟨d, hd, hmd⟩ := exists_of_renders hr hout.valid (hout.rendering hx).renders
  obtain ⟨hparent, hchild, hwidth⟩ := wellSpanned_parent_of_site hr hroot hd hmd hsite
  have href := ((Script.registers_of_ancestry hr hd).records hmd).mem_references hsite htarget
  have hkind : site.node.kind ≠ .callExpression := by
    intro hcall
    cases (Script.superTarget_eq_construction htarget).2 hcall
  -- the verdict in terms of the parent and of the chain
  have huse : (SuperReference.mk site.node site.parent (.member name)).use ≠ .write :=
    mt (SuperReference.use_eq_write_iff hparent hchild hwidth).1 hread
  have hverdict :
      ((r.lineage target).verdict x.member ⟨site.node, site.parent, .member name⟩).isCopy = true ↔
        ¬ site.InCompound ∧
          (r.lineage target).Offers x.member.owner x.member.identity.isStatic name := by
    rw [Lineage.isCopy_verdict rfl, isSome_referent? hr huse, ne_eq,
      SuperReference.use_eq_compound_iff]
  have hleft : site.InCompound ∨
      ¬ (r.lineage target).Offers x.member.owner x.member.identity.isStatic name ↔
        ¬ ((r.lineage target).verdict x.member
          ⟨site.node, site.parent, .member name⟩).isCopy = true := by
    rw [hverdict, not_and_or, not_not]
  rw [← hverdict, hleft, Resolution.Rewrites, Resolution.Leaves]
  -- the reference is accounted for in one of two ways, and the verdict says in which
  have haccount := hout.account_eq hr hroot hx href hkind
  split at haccount
  · next hcopy =>
    obtain ⟨hedits, hreports⟩ := Prod.mk.inj haccount
    simp [hcopy, hedits, hreports]
  · next hcopy =>
    obtain ⟨hedits, hreports⟩ := Prod.mk.inj haccount
    simp [hcopy, hedits, hreports]

end Lineage

/-- The statement `t+=super.x` for names of one letter. -/
def Node.shortAddition (start : Nat) : Node :=
  .sound .expressionStatement none start (start + 10)
    [.sound .augmentedAssignment none start (start + 10)
      [.sound .identifier (some .left) start (start + 1) [],
        .sound .memberExpression (some (.other "right")) (start + 3) (start + 10)
          [.sound .superKeyword (some .object) (start + 3) (start + 8) [],
            .sound .propertyIdentifier (some .property) (start + 9) (start + 10) []]]]

/-- A class `A` with a getter `m`, and a class `B` that extends it, whose method `f` adds `super.m`
to something and whose method `g` just reads it. -/
def addedReference : Script where
  source := .ofText ("class A\x7bget m()\x7b\x7d\x7d"
    ++ "class B extends A\x7bf()\x7bt+=super.m\x7dg()\x7bsuper.m\x7d\x7d")
  root := .sound (.other "program") none 0 64
    [.shortClass 0 7 18 []
        [.shortMethod 8 12 13 17 [⟨.getToken, none, false, false, false, 8, 11, []⟩] []],
      .shortClass 18 35 64 [.shortHeritage 26]
        [.shortMethod 36 36 37 51 [] [.shortAddition 40],
          .shortMethod 51 51 52 63 [] [.shortSuper 55]]]

/-- The reference in `g` is rewritten. -/
theorem rewrites_addedReference : ∃ r, addedReference.registry = .ok r ∧
    ∃ x ∈ (addedReference.resolve (r.lineage "B")).excerpts,
      ∃ site ∈ x.member.node.superSites x.member.nameNode?,
        x.member.name = "g" ∧ addedReference.superTarget site.node = .ok (.member "m") ∧
          (addedReference.resolve (r.lineage "B")).Rewrites addedReference x site.node := by
  obtain ⟨r, hr, htest⟩ := Script.exists_registry (s := addedReference)
    (p := fun r => (r.ancestry "B").length == 2 &&
      (addedReference.resolve (r.lineage "B")).excerpts.any fun x => x.member.name == "g" &&
        (((r.lineage "B").referent? "m" .read x.member.identity.isStatic x.member.owner).isSome &&
          (x.member.node.superSites x.member.nameNode?).any fun site =>
            site.parent.kind == .expressionStatement &&
              (addedReference.superTarget site.node).toOption.any (· == .member "m")))
    (by decide +kernel)
  obtain ⟨hlength, htest⟩ := Bool.and_eq_true_iff.1 htest
  obtain ⟨x, hx, htest⟩ := List.any_eq_true.1 htest
  obtain ⟨hname, htest⟩ := Bool.and_eq_true_iff.1 htest
  obtain ⟨hsome, htest⟩ := Bool.and_eq_true_iff.1 htest
  obtain ⟨site, hsite, htest⟩ := List.any_eq_true.1 htest
  obtain ⟨hkind, htarget⟩ := Bool.and_eq_true_iff.1 htest
  obtain ⟨t, ht, hmember⟩ := Attempt.exists_ok htarget
  obtain rfl := beq_iff_eq.1 hmember
  rw [beq_iff_eq] at hlength hkind
  have hroot : addedReference.root.WellSpanned := by decide +kernel
  have hactive : ¬ ∃ d, r.ancestry "B" = [d] ∧ d.extendsText = none := by
    rintro ⟨d, hchain, -⟩
    rw [hchain] at hlength
    cases hlength
  have hread : ¬ site.IsAssigned := fun h => by cases hkind.symm.trans h.1
  have hplain : ¬ site.InCompound := by
    rintro (h | h)
    · cases hkind.symm.trans h
    · cases hkind.symm.trans h
  exact ⟨r, hr, x, hx, site, hsite, beq_iff_eq.1 hname, ht,
    (rewrites_iff hr hroot hactive hx hsite ht hread).1.2
      ⟨hplain, (isSome_referent? hr (by decide)).1 hsome⟩⟩

/-- The reference in `f` stands on the right of a compound assignment. It is not written to and
there is a getter for it, but it is not rewritten. -/
theorem not_rewrites_addedReference : ∃ r, addedReference.registry = .ok r ∧
    ∃ x ∈ (addedReference.resolve (r.lineage "B")).excerpts,
      ∃ site ∈ x.member.node.superSites x.member.nameNode?,
        addedReference.superTarget site.node = .ok (.member "m") ∧
          site.parent.child? .left ≠ some site.node ∧ site.parent.kind ≠ .update ∧
          (r.lineage "B").Offers x.member.owner x.member.identity.isStatic "m" ∧
          ¬ (addedReference.resolve (r.lineage "B")).Rewrites addedReference x site.node := by
  obtain ⟨r, hr, htest⟩ := Script.exists_registry (s := addedReference)
    (p := fun r => (addedReference.resolve (r.lineage "B")).excerpts.any fun x =>
      ((r.lineage "B").referent? "m" .read x.member.identity.isStatic x.member.owner).isSome &&
        (x.member.node.superSites x.member.nameNode?).any fun site =>
          site.parent.kind == .augmentedAssignment &&
            ((site.parent.child? .left).map (·.start) != some site.node.start &&
              ((addedReference.resolve (r.lineage "B")).reportsAt
                (addedReference.position site.node) == 1 &&
                (addedReference.superTarget site.node).toOption.any (· == .member "m"))))
    (by decide +kernel)
  obtain ⟨x, hx, htest⟩ := List.any_eq_true.1 htest
  obtain ⟨hsome, htest⟩ := Bool.and_eq_true_iff.1 htest
  obtain ⟨site, hsite, htest⟩ := List.any_eq_true.1 htest
  obtain ⟨hkind, htest⟩ := Bool.and_eq_true_iff.1 htest
  obtain ⟨hleft, htest⟩ := Bool.and_eq_true_iff.1 htest
  obtain ⟨hreport, htarget⟩ := Bool.and_eq_true_iff.1 htest
  obtain ⟨t, ht, hmember⟩ := Attempt.exists_ok htarget
  obtain rfl := beq_iff_eq.1 hmember
  rw [beq_iff_eq] at hkind hreport
  refine ⟨r, hr, x, hx, site, hsite, ht, ?_, ?_, (isSome_referent? hr (by decide)).1 hsome, ?_⟩
  · -- the site starts behind the assigned part
    intro h
    rw [h] at hleft
    simp at hleft
  · rw [hkind]
    decide
  · -- the report is there
    rintro ⟨-, hnone⟩
    cases hreport.symm.trans hnone

end Disinherit
