import Disinherit.Proofs.Super.Chain
import Disinherit.Proofs.Text.Splice
import Disinherit.Proofs.Tree.Spelling

/-!
# Edits of different references

A super reference is edited in one of four ways (`Edit.AtSite`): it is replaced as a whole by the
name of a copy, its keyword is replaced, something is added after it, or at the base of the chain
the call is taken away, perhaps with its statement. References may stand in the arguments of others,
and the cut for a statement takes in blanks of its line, so that edits of different references could
get in each other's way.

`Edit.AtSite.apart_or_inside` is the comparison of two references, of which the first starts
earlier: their edits are apart, or the first reference is a call that is taken away and the edit of
the second lies within that. All it needs to know of the second edit is where it lies
(`Edit.LiesAt`), because nothing but blanks separates it from its reference: it stays behind
whatever shows before the reference (`LiesAt.lt_start`), and within every node that encloses the
reference (`LiesAt.stop_le_of_below`).
-/

namespace Disinherit

open Node

/-! ### Edits at a reference -/

/-- A call that is taken away leaves `this`, or nothing if it is a statement. -/
def SuperCall.Takes (s : Source) (call : SuperCall) (e : Edit) : Prop :=
  match call.statement? with
  | some stmt =>
    e = ⟨(s.removalRange stmt.start stmt.stop).1, (s.removalRange stmt.start stmt.stop).2, ""⟩
  | none => e = ⟨call.node.start, call.node.stop, "this"⟩

/-- The shapes that the edit of a super reference can have. Calls are taken away only if `base`
holds. -/
inductive Edit.AtSite (s : Source) (base : Prop) (p : SuperSite) : Edit → Prop where
  | named (text : String) : p.node.namesMember = true →
    AtSite s base p ⟨p.node.start, p.node.stop, text⟩
  | callee {call : SuperCall} (text : String) : SuperCall.at? p = some call →
    AtSite s base p ⟨call.callee.start, call.callee.stop, text⟩
  | suffix {call : SuperCall} (text : String) : SuperCall.at? p = some call →
    AtSite s base p ⟨call.node.stop, call.node.stop, text⟩
  | taken {call : SuperCall} {e : Edit} : base → SuperCall.at? p = some call → call.Takes s e →
    AtSite s base p e

/-- What a call that was found consists of. -/
theorem SuperCall.at?_eq_some {p : SuperSite} {call : SuperCall} (h : at? p = some call) :
    p.node.kind = .callExpression ∧ call.node = p.node ∧
      p.node.child? .function = some call.callee ∧
      call.statement? = if p.parent.kind = .expressionStatement then some p.parent else none := by
  unfold at? at h
  split at h
  · next hk =>
    split at h
    · next callee arguments hcallee _ =>
      obtain rfl := Option.some.inj h
      exact ⟨hk, rfl, hcallee, rfl⟩
    · cases h
  · cases h

/-- A call is taken away with its statement, or else alone. -/
theorem SuperCall.Takes.cases {s : Source} {p : SuperSite} {call : SuperCall} {e : Edit}
    (hcall : at? p = some call) (h : call.Takes s e) :
    (p.parent.kind = .expressionStatement ∧
      s.Removes p.parent.start p.parent.stop (e.start, e.stop)) ∨
    (e.start = p.node.start ∧ e.stop = p.node.stop) := by
  obtain ⟨-, hnode, -, hstmt⟩ := at?_eq_some hcall
  unfold Takes at h
  by_cases hk : p.parent.kind = .expressionStatement
  · -- a call that is a statement goes with the statement
    rw [if_pos hk] at hstmt
    rw [hstmt] at h
    left
    refine ⟨hk, ?_⟩
    rw [h]
    exact s.removes_removalRange _ _
  · -- any other is replaced where it is
    rw [if_neg hk] at hstmt
    rw [hstmt] at h
    right
    rw [h, hnode]
    exact ⟨rfl, rfl⟩

/-- A reference stands in a tree, and is a child of the node that is given as its parent. -/
structure Node.SuperSite.Stands (root : Node) (p : SuperSite) : Prop where
  parent : p.parent ∈ root.preorder
  child : p.node ∈ p.parent.children
  isSuper : p.node.isSuperReference = true

/-- An edit lies at a reference: within it, or as the cut of a statement that begins with it.
Statements are cut out only if `base` holds. -/
def Edit.LiesAt (s : Source) (base : Prop) (p : SuperSite) (e : Edit) : Prop :=
  (p.node.start ≤ e.start ∧ e.start ≤ e.stop ∧ e.stop ≤ p.node.stop) ∨
    (base ∧ p.parent.kind = .expressionStatement ∧ p.parent.start = p.node.start ∧
      s.Removes p.parent.start p.parent.stop (e.start, e.stop))

section Tree

variable {s : Source} {root : Node} {base : Prop} {p q : SuperSite} {e f : Edit}

namespace Node.SuperSite.Stands

theorem mem (h : p.Stands root) : p.node ∈ root.preorder :=
  mem_preorder_trans (mem_preorder_of_mem_children h.child) h.parent

theorem shows (h : p.Stands root) (hroot : root.WellSpelled s) : s.Shows p.node :=
  (hroot.spelled _ h.mem).shows (.inr (.inl h.isSuper))

theorem isSuperCall (h : p.Stands root) {call : SuperCall} (hcall : SuperCall.at? p = some call) :
    p.node.isSuperCall = true :=
  isSuperCall_of_kind h.isSuper (SuperCall.at?_eq_some hcall).1

/-- The statement of a call shows, and it begins with the call. -/
theorem statement (h : p.Stands root) (hroot : root.WellSpelled s) {call : SuperCall}
    (hcall : SuperCall.at? p = some call) (hk : p.parent.kind = .expressionStatement) :
    s.Shows p.parent ∧ p.parent.start = p.node.start :=
  have hspelled := hroot.spelled _ h.parent
  ⟨hspelled.shows (.inr (.inr hk)), hspelled.leads hk _ h.child (h.isSuperCall hcall)⟩

/-- What starts later and is not behind the end of a node is below it. -/
theorem below (hroot : root.WellSpelled s) (hq : q.Stands root) {n : Node} (hn : n ∈ root.preorder)
    (hstart : n.start < q.node.start) (hstop : ¬ n.stop ≤ q.node.start) : q.node.Below n :=
  hroot.wellSpanned.below_of_overlap hn hq.mem hstart (by omega)
    (by have := (hq.shows hroot).pos; omega)

end Node.SuperSite.Stands

/-! ### Where an edit lies -/

/-- Whatever its shape, an edit lies at its reference. -/
theorem Edit.AtSite.liesAt (hroot : root.WellSpelled s) (hp : p.Stands root)
    (h : e.AtSite s base p) : e.LiesAt s base p := by
  have hpos := (hp.shows hroot).pos
  cases h with
  | named text hnamed => exact .inl ⟨Nat.le_refl _, Nat.le_of_lt hpos, Nat.le_refl _⟩
  | callee text hcall =>
    have hfound := (SuperCall.at?_eq_some hcall).2.2.1
    obtain ⟨hstart, hstop, hshows, -⟩ :=
      (hroot.of_mem_preorder hp.mem).callee (hp.isSuperCall hcall) hfound
    exact .inl ⟨Nat.le_of_eq hstart.symm, Nat.le_of_lt hshows.pos, hstop⟩
  | suffix text hcall =>
    rw [(SuperCall.at?_eq_some hcall).2.1]
    exact .inl ⟨Nat.le_of_lt hpos, Nat.le_refl _, Nat.le_refl _⟩
  | taken hbase hcall htakes =>
    -- a statement may be cut out with the blanks around it, and then more than the call
    rcases htakes.cases hcall with ⟨hk, hcut⟩ | ⟨hstart, hstop⟩
    · exact .inr ⟨hbase, hk, (hp.statement hroot hcall hk).2, hcut⟩
    · left
      omega

namespace Edit.LiesAt

theorem le (hroot : root.WellSpelled s) (hp : p.Stands root) (h : e.LiesAt s base p) :
    e.start ≤ e.stop := by
  rcases h with ⟨-, hle, -⟩ | ⟨-, hk, -, hcut⟩
  · exact hle
  · -- the cut goes around the statement, which has some width
    have hshows := (hroot.spelled _ hp.parent).shows (.inr (.inr hk))
    have := hshows.pos
    have := hshows.stop_le_size
    have hstart : e.start ≤ p.parent.start := hcut.start_le
    have hstop : min p.parent.stop s.size ≤ e.stop := hcut.le_stop
    omega

/-- The edit stays behind whatever shows before the reference. -/
theorem lt_start (h : e.LiesAt s base p) {offset : Nat} (hshows : s.ShowsAt offset)
    (hlt : offset < p.node.start) : offset < e.start := by
  rcases h with ⟨hstart, -⟩ | ⟨-, -, hstart, hcut⟩
  · omega
  · exact hcut.lt_start hshows (by omega)

/-- The edit stays in front of whatever shows after the reference and its statement. -/
theorem stop_le (h : e.LiesAt s base p) {offset : Nat} (hshows : s.ShowsAt offset)
    (hnode : p.node.stop ≤ offset)
    (hparent : p.parent.kind = .expressionStatement → p.parent.stop ≤ offset) :
    e.stop ≤ offset := by
  rcases h with ⟨-, -, hstop⟩ | ⟨-, hk, -, hcut⟩
  · omega
  · exact hcut.stop_le hshows (hparent hk)

/-- The edit is not reached by the cut of a statement before the reference. -/
theorem le_start_of_removes (hroot : root.WellSpelled s) (hp : p.Stands root)
    (h : e.LiesAt s base p) {stmt : Node} {cut : Nat × Nat}
    (hcut : s.Removes stmt.start stmt.stop cut) (hstmt : s.Shows stmt)
    (hle : stmt.stop ≤ p.node.start) : cut.2 ≤ e.start := by
  rcases h with ⟨hstart, -⟩ | ⟨-, hk, hstart, hcut'⟩
  · have := hcut.stop_le (hp.shows hroot).first hle
    omega
  · -- two cuts one after the other
    have hshows := (hroot.spelled _ hp.parent).shows (.inr (.inr hk))
    exact hcut.stop_le_start hcut' hstmt.last hstmt.pos hshows.first (by omega)

/-- The edit ends within every node around the reference that can hold statements only in bodies. -/
theorem stop_le_of_below (hroot : root.WellSpelled s) (hp : p.Stands root) (h : e.LiesAt s base p)
    {n : Node} (hn : n ∈ root.preorder) (hbodies : n.enclosesBodies = true)
    (hbelow : p.node.Below n) (hlt : n.start < p.node.start) : e.stop ≤ n.stop := by
  have hwithin := (hroot.wellSpanned.of_mem_preorder hn).within_preorder hbelow.mem_preorder
  have hpos := (hp.shows hroot).pos
  rcases h with ⟨-, -, hstop⟩ | ⟨-, hk, hstart, hcut⟩
  · -- the node of the reference is within `n`
    omega
  · -- the statement is below the node as well, and something of the node shows after it
    have hstmt := (hroot.spelled _ hp.parent).shows (.inr (.inr hk))
    have hstmtpos := hstmt.pos
    obtain ⟨c, hc, hmem⟩ : p.parent.Below n :=
      hroot.wellSpanned.below_of_overlap hn hp.parent (by omega) (by omega) (by omega)
    obtain ⟨-, offset, hge, hlt', hshows⟩ := (hroot.spelled n hn).body hbodies c hc p.parent hmem hk
    have : e.stop ≤ offset := hcut.stop_le hshows hge
    omega

/-- The edit lies within a tree, which is a method if statements are cut out. -/
theorem within (hroot : root.WellSpelled s) (hp : p.Stands root) (h : e.LiesAt s base p)
    (hmethod : base → root.kind = .methodDefinition) :
    root.start ≤ e.start ∧ e.stop ≤ root.stop := by
  rcases h with ⟨hstart, -, hstop⟩ | ⟨hbase, hk, hstart, hcut⟩
  · -- what lies at the reference is within the root along with it
    have := hroot.wellSpanned.within_preorder hp.mem
    omega
  · -- the statement stands in the body, and the rest of the method shows on both sides of it
    have hkind := hmethod hbase
    have hbodies : root.enclosesBodies = true := by simp [enclosesBodies, hkind]
    have hne : p.parent ≠ root := by
      intro heq
      rw [heq, hkind] at hk
      cases hk
    obtain ⟨c, hc, hmem⟩ := (mem_preorder_iff.1 hp.parent).resolve_left hne
    obtain ⟨⟨offset, hge, hlt, hshows⟩, offset', hge', hlt', hshows'⟩ :=
      (hroot.spelled root (mem_preorder_self root)).body hbodies c hc p.parent hmem hk
    have hleft : offset < e.start := hcut.lt_start hshows hlt
    have hright : e.stop ≤ offset' := hcut.stop_le hshows' hge'
    omega

end Edit.LiesAt

theorem Edit.AtSite.imp {base' : Prop} (h : e.AtSite s base p) (himp : base → base') :
    e.AtSite s base' p := by
  cases h with
  | named text hnamed => exact .named text hnamed
  | callee text hcall => exact .callee text hcall
  | suffix text hcall => exact .suffix text hcall
  | taken hbase hcall htakes => exact .taken (himp hbase) hcall htakes

/-! ### Two references -/

namespace Edit.LiesAt

/-- When a node is replaced as a whole, the edit of a later reference is behind it or within it. -/
theorem behind_or_within (hroot : root.WellSpelled s) (hq : q.Stands root) (hf : f.LiesAt s base q)
    {n : Node} (hn : n ∈ root.preorder) (hbodies : n.enclosesBodies = true) (hshows : s.Shows n)
    (hlt : n.start < q.node.start) : n.stop ≤ f.start ∨ (n.start < f.start ∧ f.stop ≤ n.stop) := by
  by_cases hstop : n.stop ≤ q.node.start
  · -- the reference comes after `n`, and no edit for it reaches back over what shows at the end
    left
    have hpos := hshows.pos
    have := hf.lt_start hshows.last (by omega)
    omega
  · -- the reference is below `n`
    right
    have hbelow := hq.below hroot hn hlt hstop
    exact ⟨hf.lt_start hshows.first hlt, hf.stop_le_of_below hroot hq hn hbodies hbelow hlt⟩

/-- When a statement is cut out, the edit of a later reference is apart from the cut or inside
it. -/
theorem apart_or_inside_cut (hroot : root.WellSpelled s) (hq : q.Stands root)
    (hf : f.LiesAt s base q) {stmt : Node} (hstmt : stmt ∈ root.preorder)
    (hk : stmt.kind = .expressionStatement) (hlt : stmt.start < q.node.start)
    (hcut : s.Removes stmt.start stmt.stop (e.start, e.stop)) : e.Apart f ∨ f.Inside e := by
  have hshows := (hroot.spelled _ hstmt).shows (.inr (.inr hk))
  by_cases hstop : stmt.stop ≤ q.node.start
  · -- blanks after the statement are cut out too, but what follows them stays
    exact .inl (.inl (hf.le_start_of_removes hroot hq hcut hshows hstop))
  · -- the reference is below the statement, and so its edits are cut out with it
    right
    have hbodies : stmt.enclosesBodies = true := by simp [enclosesBodies, hk]
    have hfirst := hf.lt_start hshows.first hlt
    have hlast := hf.stop_le_of_below hroot hq hstmt hbodies (hq.below hroot hstmt hlt hstop) hlt
    have hsize := hshows.stop_le_size
    have hleft : e.start ≤ stmt.start := hcut.start_le
    have hright : min stmt.stop s.size ≤ e.stop := hcut.le_stop
    exact ⟨by omega, by omega⟩

end Edit.LiesAt

/-- **Edits of two references** are apart, or the edit of the later one lies within a call that is
taken away at the base of the chain. -/
theorem Edit.AtSite.apart_or_inside (hroot : root.WellSpelled s) (hp : p.Stands root)
    (hq : q.Stands root) (hlt : p.node.start < q.node.start) (he : e.AtSite s base p)
    (hf : f.LiesAt s base q) :
    e.Apart f ∨ (f.Inside e ∧ base ∧ ∃ call, SuperCall.at? p = some call ∧ call.Takes s e) := by
  have hshows := hp.shows hroot
  have hpos := hshows.pos
  -- a call as a whole: the edit of `q` is behind it or within it
  have hwhole : ∀ {call}, SuperCall.at? p = some call →
      p.node.stop ≤ f.start ∨ (p.node.start < f.start ∧ f.stop ≤ p.node.stop) := by
    intro call hcall
    refine hf.behind_or_within hroot hq hp.mem ?_ hshows hlt
    rw [enclosesBodies, hp.isSuperCall hcall, Bool.or_true]
  cases he with
  | named text hnamed =>
    -- the later reference cannot stand within a name
    have hstop : p.node.stop ≤ q.node.start := by
      by_contra hstop
      obtain ⟨c, hc, hmem⟩ := hq.below hroot hp.mem hlt hstop
      have hnone := (hroot.spelled _ hp.mem).named hnamed c hc q.node hmem
      rw [hq.isSuper] at hnone
      cases hnone
    have := hf.lt_start hshows.last (by omega)
    exact .inl (.inl (show p.node.stop ≤ f.start by omega))
  | @callee call text hcall =>
    -- nor within the keyword, which has no parts
    have hfound := (SuperCall.at?_eq_some hcall).2.2.1
    obtain ⟨hstart, -, hkeyword, hchildren⟩ :=
      (hroot.of_mem_preorder hp.mem).callee (hp.isSuperCall hcall) hfound
    have hcallee : call.callee ∈ root.preorder :=
      mem_preorder_trans (mem_preorder_of_mem_children (child?_mem hfound).1) hp.mem
    have hstop : call.callee.stop ≤ q.node.start := by
      by_contra hstop
      obtain ⟨c, hc, -⟩ := hq.below hroot hcallee (by omega) hstop
      rw [hchildren] at hc
      cases hc
    have hkeypos := hkeyword.pos
    have := hf.lt_start hkeyword.last (by omega)
    exact .inl (.inl (show call.callee.stop ≤ f.start by omega))
  | @suffix call text hcall =>
    -- what is added behind the call has no width
    rw [(SuperCall.at?_eq_some hcall).2.1]
    rcases hwhole hcall with hbehind | ⟨-, hwithin⟩
    · exact .inl (.inl hbehind)
    · exact .inl (.inr hwithin)
  | @taken call _ hbase hcall htakes =>
    have hcase : e.Apart f ∨ f.Inside e := by
      -- only an edit that takes the call away can have others inside
      rcases htakes.cases hcall with ⟨hk, hcut⟩ | ⟨hstart, hstop⟩
      · have hlt' : p.parent.start < q.node.start := by
          rw [(hp.statement hroot hcall hk).2]
          exact hlt
        exact hf.apart_or_inside_cut hroot hq hp.parent hk hlt' hcut
      · unfold Apart Inside
        rw [hstart, hstop]
        exact (hwhole hcall).imp_left .inl
    exact hcase.imp_right fun hinside => ⟨hinside, hbase, call, hcall, htakes⟩

end Tree

end Disinherit
