import Disinherit.Proofs.Layout.Moves
import Disinherit.Proofs.Super.Account
import Disinherit.Proofs.Super.Overlap

/-!
# No edit gets lost

When an excerpt is written out, `Edit.applied` drops edits that overlap others without a word. In a
script that is spelled as the grammar has it, resolution gives no occasion for that (`KeepsEdits`).
All edits of an excerpt lie within its member. Two of them are apart, or one lies within a call that
is taken away at the base of the chain, and is dropped with good reason. All others are applied,
together with any edits that move lines, and what is written is the member with these edits made at
once.

The edits of different references were compared in `Edit.AtSite.apart_or_inside`. What is left is
the edit of the name, which is another child of the member than those that are searched for
references, and the bookkeeping: an excerpt has no edits besides the name, those of its references,
and in a constructor those of its calls (`Outcome.exists_consists`).
-/

namespace Disinherit

open Progress Node

/-! ### Edits that agree -/

/-- The edit takes away a call of the excerpt, which is the first constructor of the chain. -/
def Excerpt.Takes (s : Source) (l : Lineage) (x : Excerpt) (e : Edit) : Prop :=
  l.constructors.head? = some x.member ∧ ∃ call ∈ x.member.superCalls, call.Takes s e

/-- Two edits are apart, or one of them lies within a call that is taken away. -/
def Excerpt.Agree (s : Source) (l : Lineage) (x : Excerpt) (a b : Edit) : Prop :=
  a.Apart b ∨ (a.Inside b ∧ x.Takes s l b) ∨ (b.Inside a ∧ x.Takes s l a)

theorem Excerpt.Agree.symm {s : Source} {l : Lineage} {x : Excerpt} {a b : Edit}
    (h : x.Agree s l a b) : x.Agree s l b a := by
  rcases h with h | h | h
  · exact .inl h.symm
  · exact .inr (.inr h)
  · exact .inr (.inl h)

/-- Nothing is lost when an excerpt is written out. -/
structure KeepsEdits (s : Script) (l : Lineage) (x : Excerpt) : Prop where
  within : ∀ e ∈ x.edits,
    x.member.node.start ≤ e.start ∧ e.start ≤ e.stop ∧ e.stop ≤ x.member.node.stop
  agree : x.edits.Pairwise (x.Agree s.source l)
  /-- Whatever the indentation, the edits that are applied are all but those within a call that is
  taken away. -/
  applied : ∀ indent,
    s.render x.member.node x.edits indent
      = s.woven x.member.node (s.appliedEdits x.member.node x.edits indent) ∧
    ∀ e ∈ x.edits, (∀ f ∈ x.edits, x.Takes s.source l f → ¬ e.Inside f) →
      e ∈ s.appliedEdits x.member.node x.edits indent
  /-- The text is that of the member with the applied edits made at once. -/
  substituted : ∀ indent text, s.render x.member.node x.edits indent = .ok text →
    Text.encode text = s.source.substituted x.member.node.start x.member.node.stop
      (s.appliedEdits x.member.node x.edits indent)

/-- Edits that lie within the member and agree are applied. -/
theorem KeepsEdits.of_agree {s : Script} {l : Lineage} {x : Excerpt}
    (hwithin : ∀ e ∈ x.edits,
      x.member.node.start ≤ e.start ∧ e.start ≤ e.stop ∧ e.stop ≤ x.member.node.stop)
    (hagree : x.edits.Pairwise (x.Agree s.source l)) : KeepsEdits s l x where
  within := hwithin
  agree := hagree
  applied indent := by
    refine ⟨s.render_eq_woven x.member.node x.edits indent, fun e he hfree => ?_⟩
    obtain ⟨hstart, hle, hstop⟩ := hwithin e he
    refine Edit.mem_applied (List.mem_append_left _ he) hstart hle hstop fun a ha => ?_
    rcases List.mem_append.1 ha with ha | ha
    · -- among the edits of the excerpt, `e` yields only to one that takes a call away around it
      by_cases hae : a = e
      · exact .inl hae
      · right
        have hpair : x.Agree s.source l a e := by
          rcases pairwise_or hagree ha he hae with h | h
          · exact h
          · exact h.symm
        rcases hpair with hapart | ⟨hinside, -⟩ | ⟨hinside, htakes⟩
        · exact .inl hapart
        · exact .inr hinside
        · exact absurd hinside (hfree a ha htakes)
    · -- an edit that moves a line is apart from all others
      exact .inr (.inl (Script.clears_of_mem_shiftEdits he ha).apart.symm)
  substituted _ _ htext := Script.encode_of_render (fun e he => (hwithin e he).2.1) htext

/-! ### The edits of a member -/

section Member

variable {s : Script} {l : Lineage} {p : Progress} {x : Excerpt}

/-- A reference that asks for a member by name gives the name in its text. -/
theorem Script.namesMember_of_superTarget {n : Node} {name : String}
    (h : s.superTarget n = .ok (.member name)) (hn : n.isSuperReference = true) :
    n.namesMember = true := by
  -- a call of `super` itself is a construction and names no member
  have hcall : n.kind ≠ .callExpression := by
    intro hk
    have := (superTarget_eq_construction h).2 hk
    cases this
  have hmember : n.isSuperMember = true := by
    rcases Bool.or_eq_true_iff.1 hn with hmember | hsuper
    · exact hmember
    · simp [isSuperCall, hcall] at hsuper
  -- the name is after the dot or in an index that is a literal
  unfold superTarget at h
  split at h
  · cases h
  · next hk => simp [namesMember, hmember, hk]
  · split at h
    · next index hindex =>
      split at h
      · next hliteral => simp [namesMember, hmember, hindex, hliteral]
      · cases h
    · cases h

namespace Script.Records

variable {m : Member}

theorem stands (h : s.Records m) (hnode : m.node.WellSpelled s.source) {ref : SuperReference}
    (href : ref ∈ m.references) : ref.site.Stands m.node := by
  obtain ⟨hparent, hchild⟩ := mem_superSites (h.site_mem href)
  exact ⟨hparent, hchild, (h.referencesSpan hnode.wellSpanned).isSuper ref href⟩

/-- The edit of a reference that leads to a copy. -/
theorem atSite_of_editFor? (h : s.Records m) (hnode : m.node.WellSpelled s.source)
    {ref : SuperReference} (href : ref ∈ m.references) {e : Edit} (he : p.editFor? l m ref = some e)
    (base : Prop) : e.AtSite s.source base ref.site := by
  unfold editFor? at he
  split at he
  · next entry hverdict =>
    obtain ⟨name, -, rfl⟩ := Option.map_eq_some_iff.1 he
    obtain ⟨member, htarget, -⟩ := Lineage.referent?_of_verdict hverdict
    have hread := (readReferences_spec h.references).2 ref href
    rw [htarget] at hread
    exact .named _ (namesMember_of_superTarget hread (h.stands hnode href).isSuper)
  · cases he

end Script.Records

/-- The edits of a call. They take it away only if there is no method to call. -/
theorem SuperCall.atSite_of_mem_edits {source : Source} {site : SuperSite} {call : SuperCall}
    (hcall : SuperCall.at? site = some call) {method? : Option String} {e : Edit}
    (he : e ∈ call.edits source method?) : e.AtSite source (method? = none) site := by
  -- whatever text takes the place of the keyword, a second edit comes where the arguments start
  have hcallee : ∀ text, e ∈ call.calleeEdits text → e.AtSite source (method? = none) site := by
    intro text he
    unfold calleeEdits at he
    split at he
    · obtain rfl := List.mem_singleton.1 he
      exact .callee text hcall
    · rcases List.mem_pair.1 he with rfl | rfl
      · exact .callee _ hcall
      · exact .suffix _ hcall
  cases method? with
  | some method => exact hcallee _ he
  | none =>
    replace he : e ∈ call.baseCallEdits source := he
    unfold baseCallEdits at he
    split at he
    · exact hcallee _ he
    · split at he
      · next stmt hstmt =>
        refine .taken rfl hcall ?_
        rw [Takes, hstmt]
        exact List.mem_singleton.1 he
      · next hstmt =>
        refine .taken rfl hcall ?_
        rw [Takes, hstmt]
        exact List.mem_singleton.1 he

/-- The edits of one call are apart. -/
theorem SuperCall.pairwise_edits {source : Source} {root : Node} (hroot : root.WellSpelled source)
    {site : SuperSite} (hsite : site.Stands root) {call : SuperCall}
    (hcall : SuperCall.at? site = some call) (method? : Option String) :
    (call.edits source method?).Pairwise Edit.Apart := by
  have hcallee : ∀ text, (call.calleeEdits text).Pairwise Edit.Apart := by
    intro text
    unfold calleeEdits
    split
    · exact List.pairwise_singleton _ _
    · -- what is added comes after the keyword
      obtain ⟨-, hnode, hfound, -⟩ := at?_eq_some hcall
      have hstop := ((hroot.of_mem_preorder hsite.mem).callee (hsite.isSuperCall hcall) hfound).2.1
      rw [hnode]
      exact List.pairwise_pair.2 (.inl hstop)
  cases method? with
  | some method => exact hcallee _
  | none =>
    show (call.baseCallEdits source).Pairwise Edit.Apart
    unfold baseCallEdits
    split
    · exact hcallee _
    · split
      · exact List.pairwise_singleton _ _
      · exact List.pairwise_singleton _ _

/-- Edits of different references in a member agree. -/
theorem Excerpt.agree_of_ne (hrec : s.Records x.member) (hnode : x.member.node.WellSpelled s.source)
    {ref ref' : SuperReference} (href : ref ∈ x.member.references)
    (href' : ref' ∈ x.member.references) (hne : ref ≠ ref') {a b : Edit}
    (ha : a.AtSite s.source (l.constructors.head? = some x.member) ref.site)
    (hb : b.AtSite s.source (l.constructors.head? = some x.member) ref'.site) :
    x.Agree s.source l a b := by
  -- the comparison of two references wants the one that starts earlier first
  have hstands := hrec.stands hnode href
  have hstands' := hrec.stands hnode href'
  have hcalls : ∀ {ref call}, ref ∈ x.member.references → SuperCall.at? ref.site = some call →
      call ∈ x.member.superCalls := fun href hcall =>
    List.mem_filterMap.2 ⟨_, hrec.site_mem href, hcall⟩
  rcases Nat.lt_trichotomy ref.node.start ref'.node.start with hlt | heq | hgt
  · rcases ha.apart_or_inside hnode hstands hstands' hlt (hb.liesAt hnode hstands') with
      hapart | ⟨hinside, hbase, call, hcall, htakes⟩
    · exact .inl hapart
    · exact .inr (.inr ⟨hinside, hbase, call, hcalls href hcall, htakes⟩)
  · -- no two references start in the same place
    exact absurd ((hrec.referencesSpan hnode.wellSpanned).eq_of_start_eq href href' heq) hne
  · rcases hb.apart_or_inside hnode hstands' hstands hgt (ha.liesAt hnode hstands) with
      hapart | ⟨hinside, hbase, call, hcall, htakes⟩
    · exact .inl hapart.symm
    · exact .inr (.inl ⟨hinside, hbase, call, hcalls href' hcall, htakes⟩)

theorem pairwise_referenceEdits (hrec : s.Records x.member)
    (hnode : x.member.node.WellSpelled s.source) :
    (p.referenceEdits l x.member).Pairwise (x.Agree s.source l) := by
  have hspan := hrec.referencesSpan hnode.wellSpanned
  refine List.pairwise_filterMap.2 (hspan.increasing.imp_of_mem ?_)
  intro ref ref' href href' hlt a ha b hb
  have hne : ref ≠ ref' := by
    rintro rfl
    omega
  exact x.agree_of_ne hrec hnode href href' hne (hrec.atSite_of_editFor? hnode href ha _)
    (hrec.atSite_of_editFor? hnode href' hb _)

theorem pairwise_constructionEdits (hrec : s.Records x.member)
    (hnode : x.member.node.WellSpelled s.source) {method? : Option String}
    (hbase : method? = none → l.constructors.head? = some x.member) :
    (constructionEdits s.source method? x.member).Pairwise (x.Agree s.source l) := by
  have hspan := hrec.referencesSpan hnode.wellSpanned
  have hfound : ∀ {ref call}, ref ∈ x.member.references → SuperCall.ofReference? ref = some call →
      SuperCall.at? ref.site = some call := fun href hcall =>
    (SuperCall.ofReference?_eq_at? (hrec.target_eq_construction href)).symm.trans hcall
  refine List.pairwise_flatMap.2 ⟨fun call hcall => ?_, ?_⟩
  · -- the edits of one call are apart
    obtain ⟨ref, href, hcall⟩ := List.mem_filterMap.1 hcall
    have hapart := SuperCall.pairwise_edits hnode (hrec.stands hnode href) (hfound href hcall)
    exact (hapart method?).imp .inl
  · -- those of two calls agree, as those of any two references do
    refine List.pairwise_filterMap.2 (hspan.increasing.imp_of_mem ?_)
    intro ref ref' href href' hlt call hcall call' hcall' a ha b hb
    have hne : ref ≠ ref' := by
      rintro rfl
      omega
    exact x.agree_of_ne hrec hnode href href' hne
      ((SuperCall.atSite_of_mem_edits (hfound href hcall) ha).imp hbase)
      ((SuperCall.atSite_of_mem_edits (hfound href' hcall') hb).imp hbase)

/-- The name of a method is apart from the edits of its references: it is another child of the
method. -/
theorem apart_name (hrec : s.Records x.member) (hnode : x.member.node.WellSpelled s.source)
    (hmethod : x.member.node.kind = .methodDefinition) {n : Node}
    (hname : x.member.nameNode? = some n) {ref : SuperReference} (href : ref ∈ x.member.references)
    {base : Prop} {e : Edit} (he : e.LiesAt s.source base ref.site) (text : String) :
    (⟨n.start, n.stop, text⟩ : Edit).Apart e := by
  have hchild : x.member.node.child? .name = some n := by
    rw [Member.nameNode?, memberName?, hmethod] at hname
    exact hname
  -- the name is shown in the text, so that it has a first and a last byte that are no blanks
  have hshows : s.source.Shows n :=
    (hnode.spelled _ (mem_preorder_self _)).name hmethod n hchild
  have hsite := hrec.site_mem href
  rw [hname] at hsite
  -- the reference was found in another child than the name
  obtain ⟨c, hc, hne, hfound⟩ := exists_child_of_mem_superSites hsite
  have hbelow : ref.node ∈ c.preorder := by
    rcases hfound with ⟨-, hself⟩ | ⟨hparent, hnode⟩
    · rw [← hself]
      exact mem_preorder_self _
    · exact mem_preorder_trans (mem_preorder_of_mem_children hnode) hparent
  have hwithin := (hnode.wellSpanned.child hc).within_preorder hbelow
  rcases pairwise_or hnode.wellSpanned.spansWell.ordered (child?_mem hchild).1 hc hne.symm with
    hlt | hlt
  · left
    -- the name comes first, and no edit reaches back over its last byte
    have hpos := hshows.pos
    have hstart : n.stop - 1 < ref.site.node.start := by
      show n.stop - 1 < ref.node.start
      omega
    have := he.lt_start hshows.last hstart
    show n.stop ≤ e.start
    omega
  · right
    refine he.stop_le hshows.first (show ref.node.stop ≤ n.start by omega) fun hk => ?_
    -- a statement is not the method itself, and so it stands in the same child
    rcases hfound with ⟨hself, -⟩ | ⟨hparent, -⟩
    · rw [hself, hmethod] at hk
      cases hk
    · exact Nat.le_trans ((hnode.wellSpanned.child hc).within_preorder hparent).2 hlt

/-- The edits of an excerpt, in some order: its new name, the edits for its references and those for
its calls. -/
structure Excerpt.Consists (s : Script) (l : Lineage) (p : Progress) (x : Excerpt)
    (renames calls : List Edit) : Prop where
  perm : x.edits.Perm (renames ++ (p.referenceEdits l x.member ++ calls))
  /-- Only methods are renamed. -/
  renames : renames = [] ∨ x.member.node.kind = .methodDefinition ∧
    ∃ name, renames = x.member.renameEdits name
  /-- Only the first constructor has no method to call. -/
  calls : calls = [] ∨ ∃ method?, calls = constructionEdits s.source method? x.member ∧
    (method? = none → l.constructors.head? = some x.member)

namespace Excerpt.Consists

variable {renames calls : List Edit} {e : Edit}

theorem exists_name (h : x.Consists s l p renames calls) (he : e ∈ renames) :
    x.member.node.kind = .methodDefinition ∧
      ∃ n text, x.member.nameNode? = some n ∧ e = ⟨n.start, n.stop, text⟩ := by
  rcases h.renames with rfl | ⟨hmethod, name, rfl⟩
  · cases he
  · unfold Member.renameEdits at he
    split at he
    · next n hn => exact ⟨hmethod, n, name, hn, List.mem_singleton.1 he⟩
    · cases he

/-- The edit for a call belongs to a reference that asks for a constructor. -/
theorem exists_call (h : x.Consists s l p renames calls) (hrec : s.Records x.member)
    (he : e ∈ calls) :
    ∃ ref ∈ x.member.references, ref.target = .construction ∧
      e.AtSite s.source (l.constructors.head? = some x.member) ref.site := by
  rcases h.calls with rfl | ⟨method?, rfl, hbase⟩
  · cases he
  · obtain ⟨call, hcall, he⟩ := List.mem_flatMap.1 he
    obtain ⟨ref, href, hcall⟩ := List.mem_filterMap.1 hcall
    have htarget := hrec.target_eq_construction href
    rw [SuperCall.ofReference?_eq_at? htarget] at hcall
    refine ⟨ref, href, htarget.2 (SuperCall.at?_eq_some hcall).1, ?_⟩
    exact (SuperCall.atSite_of_mem_edits hcall he).imp hbase

theorem exists_reference (h : x.Consists s l p renames calls) (hrec : s.Records x.member)
    (hnode : x.member.node.WellSpelled s.source) (he : e ∈ p.referenceEdits l x.member ++ calls) :
    ∃ ref ∈ x.member.references,
      e.AtSite s.source (l.constructors.head? = some x.member) ref.site := by
  rcases List.mem_append.1 he with he | he
  · obtain ⟨ref, href, he⟩ := List.mem_filterMap.1 he
    exact ⟨ref, href, hrec.atSite_of_editFor? hnode href he _⟩
  · obtain ⟨ref, href, -, hat⟩ := h.exists_call hrec he
    exact ⟨ref, href, hat⟩

theorem within (h : x.Consists s l p renames calls) (hrec : s.Records x.member)
    (hnode : x.member.node.WellSpelled s.source)
    (hkind : l.constructors.head? = some x.member → x.member.node.kind = .methodDefinition)
    (he : e ∈ x.edits) :
    x.member.node.start ≤ e.start ∧ e.start ≤ e.stop ∧ e.stop ≤ x.member.node.stop := by
  rcases List.mem_append.1 (h.perm.mem_iff.1 he) with he | he
  · -- a new name takes the place of the old one
    obtain ⟨hmethod, n, text, hn, rfl⟩ := h.exists_name he
    rw [Member.nameNode?, memberName?, hmethod] at hn
    exact hnode.wellSpanned.spansWell.within n (child?_mem hn).1
  · -- the others are at references, or at a statement if the constructor is the base
    obtain ⟨ref, href, hat⟩ := h.exists_reference hrec hnode he
    have hstands := hrec.stands hnode href
    have hlies := hat.liesAt hnode hstands
    obtain ⟨hstart, hstop⟩ := hlies.within hnode hstands hkind
    exact ⟨hstart, hlies.le hnode hstands, hstop⟩

theorem pairwise_renames (h : x.Consists s l p renames calls) :
    renames.Pairwise (x.Agree s.source l) := by
  rcases h.renames with rfl | ⟨-, name, rfl⟩
  · exact .nil
  · unfold Member.renameEdits
    split
    · exact List.pairwise_singleton _ _
    · exact .nil

/-- Any two edits agree: those of one list among themselves, and those of different lists with each
other. -/
theorem agree (h : x.Consists s l p renames calls) (hrec : s.Records x.member)
    (hnode : x.member.node.WellSpelled s.source) : x.edits.Pairwise (x.Agree s.source l) := by
  refine (h.perm.pairwise_iff Excerpt.Agree.symm).2
    (List.pairwise_append.2 ⟨h.pairwise_renames,
      List.pairwise_append.2 ⟨pairwise_referenceEdits hrec hnode, ?_, ?_⟩, ?_⟩)
  · -- two calls of the constructor
    rcases h.calls with rfl | ⟨method?, rfl, hbase⟩
    · exact .nil
    · exact pairwise_constructionEdits hrec hnode hbase
  · -- a reference that leads to a copy asks for no constructor
    intro a ha b hb
    obtain ⟨ref, href, ha⟩ := List.mem_filterMap.1 ha
    obtain ⟨ref', href', htarget, hat⟩ := h.exists_call hrec hb
    refine x.agree_of_ne hrec hnode href href' ?_ (hrec.atSite_of_editFor? hnode href ha _) hat
    rintro rfl
    rw [editFor?, Lineage.verdict, htarget] at ha
    cases ha
  · -- the name is no part of a reference, whichever of the two lists its edit is in
    intro a ha b hb
    obtain ⟨hmethod, n, text, hn, rfl⟩ := h.exists_name ha
    obtain ⟨ref, href, hat⟩ := h.exists_reference hrec hnode hb
    have hlies := hat.liesAt hnode (hrec.stands hnode href)
    exact .inl (apart_name hrec hnode hmethod hn href hlies text)

end Excerpt.Consists

end Member

/-! ### Resolved classes -/

section Lineage

variable {s : Script} {r : Registry} {target : String} {p : Progress} {names : List String}
  {c : Resolution} {x : Excerpt}

/-- The node of a member belongs to the tree of its script. -/
theorem mem_preorder_of_mem_ancestry (hr : s.registry = .ok r) {d : ClassDecl}
    (hd : d ∈ r.ancestry target) {m : Member} (hm : m ∈ d.members.toList) :
    m.node ∈ s.root.preorder := by
  have hreg := Script.registers_of_ancestry hr hd
  have hclass := Registry.mem_classes_of_mem_ancestry hd
  -- from the tree to the statement, the class, its body and the member
  have hstmt : d.statement ∈ s.root.children :=
    (List.mem_filter.1 ((Script.statements_sublist hr).mem (List.mem_map_of_mem hclass))).1
  obtain ⟨ms, hms, -⟩ := hreg.declarations
  have hitem : m.node ∈ d.node.bodyItems :=
    (Script.nodes_declarations_sublist hms).mem (List.mem_map_of_mem (hreg.mem_declarations hms hm))
  refine mem_preorder_trans ?_ (mem_preorder_of_mem_children hstmt)
  exact mem_preorder_trans (mem_preorder_of_mem_bodyItems hitem)
    (mem_preorder_of_declaredClass hreg.class_eq)

namespace Outcome

/-- An excerpt has no other edits than these. -/
theorem exists_consists (hr : s.registry = .ok r) (h : Outcome s (r.lineage target) p names c)
    (hx : x ∈ c.excerpts) : ∃ renames calls, x.Consists s (r.lineage target) p renames calls := by
  rcases h.mem_cases hx with ⟨m, -, hk, rfl⟩ | hx | hx
  · -- a member has the edits of its references
    refine ⟨[], [], ?_, .inl rfl, .inl rfl⟩
    simp [memberExcerpt, hk]
  · -- a copy has a new name besides
    obtain ⟨hrec, hk⟩ := reached_declared hr h.valid hx
    obtain ⟨name, -, hedits⟩ := (h.finished x hx).edits
    refine ⟨x.member.renameEdits name, [], ?_, .inr ⟨hrec.node_kind (.inl hk), name, rfl⟩, .inl rfl⟩
    rw [hedits, List.append_nil]
  · -- a constructor may have both
    obtain ⟨hrec, hk, -⟩ := constructor_declared hr
      (List.of_mem_zip (mem_of_mem_chainExcerpts hx)).1
    obtain ⟨previous?, hedits, hprevious⟩ := edits_of_mem_chainExcerpts hx
    refine ⟨(x.rename.map x.member.renameEdits).getD [],
      constructionEdits s.source previous? x.member, ?_, ?_, .inr ⟨previous?, rfl, fun hnone => ?_⟩⟩
    · rw [hedits]
      exact List.perm_append_comm
    · cases x.rename with
      | none => exact .inl rfl
      | some name => exact .inr ⟨hrec.node_kind (.inr hk), name, rfl⟩
    · -- only the first constructor has nothing to call
      rcases hprevious with ⟨-, hhead⟩ | ⟨y, hy, hname⟩
      · rw [← h.map_member_chain, List.head?_map, hhead]
        rfl
      · rw [← h.constructorCopies] at hy
        obtain ⟨-, name, hsome, -⟩ := h.constructorCopy hy
        rw [hname, hnone] at hsome
        cases hsome

theorem keepsEdits (hr : s.registry = .ok r) (hroot : s.root.WellSpelled s.source)
    (h : Outcome s (r.lineage target) p names c) (hx : x ∈ c.excerpts) :
    KeepsEdits s (r.lineage target) x := by
  obtain ⟨d, hd, hm⟩ := exists_of_renders hr h.valid (h.rendering hx).renders
  have hrec := (Script.registers_of_ancestry hr hd).records hm
  have hnode := hroot.of_mem_preorder (mem_preorder_of_mem_ancestry hr hd hm)
  obtain ⟨renames, calls, hconsists⟩ := h.exists_consists hr hx
  refine .of_agree (fun e he => hconsists.within hrec hnode (fun hhead => ?_) he)
    (hconsists.agree hrec hnode)
  exact hrec.node_kind (.inr (constructor_declared hr (List.mem_of_head? hhead)).2.1)

end Outcome

/-- **No edit of a resolved class gets lost**, in every script that is spelled as the grammar has
it. -/
theorem keepsEdits_resolve (hr : s.registry = .ok r) (hroot : s.root.WellSpelled s.source)
    (target : String) :
    ∀ x ∈ (s.resolve (r.lineage target)).excerpts, KeepsEdits s (r.lineage target) x := by
  intro x hx
  cases hactive : (r.lineage target).isActive with
  | true =>
    obtain ⟨p, names, h⟩ := exists_outcome s hactive
    exact h.keepsEdits hr hroot hx
  | false =>
    -- a class that stands alone has no edits
    have hedits := (resolve_of_not_isActive hactive).2.2.2 x hx
    refine .of_agree ?_ ?_
    · rw [hedits]
      simp
    · rw [hedits]
      exact .nil

end Lineage

/-! ### A reference in the arguments of a call -/

/-- A class `A` with a method `m`, and a class `B` that extends it. Its constructor, the first of
the chain, consists of `super(...super.m);` and of `super.m`. -/
def referenceInArguments : Script where
  source := .ofText ("class A\x7bm()\x7b\x7d\x7d"
    ++ "class B extends A\x7bconstructor()\x7bsuper(...super.m);super.m\x7d\x7d")
  root := .sound (.other "program") none 0 73
    [.shortClass 0 7 14 [] [.shortMethod 8 8 9 13 [] []],
      .shortClass 14 31 73 [.shortHeritage 22]
        [.shortMethod 32 32 43 72 []
          [.sound .expressionStatement none 46 64
            [.sound .callExpression none 46 63
              [.sound .superKeyword (some .function) 46 51 [],
                .sound (.other "arguments") (some .arguments) 51 63
                  [.sound .spreadElement none 52 62
                    [.sound .memberExpression none 55 62
                      [.sound .superKeyword (some .object) 55 60 [],
                        .sound .propertyIdentifier (some .property) 61 62 []]]]]],
            .shortSuper 64]]]

/-- In the constructor the first reference goes with the statement that is taken away, and the
second is replaced. -/
theorem keepsEdits_referenceInArguments : ∃ r, referenceInArguments.registry = .ok r ∧
    referenceInArguments.root.WellSpelled referenceInArguments.source ∧
    (referenceInArguments.resolve (r.lineage "B")).constructor.map (fun x =>
        (x.edits, referenceInArguments.appliedEdits x.member.node x.edits ""))
      = some ([⟨55, 62, "this._super_A_m"⟩, ⟨64, 71, "this._super_A_m"⟩, ⟨46, 64, ""⟩],
        [⟨46, 64, ""⟩, ⟨64, 71, "this._super_A_m"⟩]) ∧
    ∀ x ∈ (referenceInArguments.resolve (r.lineage "B")).excerpts,
      KeepsEdits referenceInArguments (r.lineage "B") x := by
  obtain ⟨r, hr, htest⟩ := Script.exists_registry (s := referenceInArguments)
    (p := fun r => (referenceInArguments.resolve (r.lineage "B")).constructor.map (fun x =>
        (x.edits, referenceInArguments.appliedEdits x.member.node x.edits ""))
      == some ([⟨55, 62, "this._super_A_m"⟩, ⟨64, 71, "this._super_A_m"⟩, ⟨46, 64, ""⟩],
        [⟨46, 64, ""⟩, ⟨64, 71, "this._super_A_m"⟩])) (by decide +kernel)
  have hroot : referenceInArguments.root.WellSpelled referenceInArguments.source :=
    ⟨by decide +kernel, by decide +kernel⟩
  exact ⟨r, hr, hroot, beq_iff_eq.1 htest, keepsEdits_resolve hr hroot "B"⟩

end Disinherit
