import Disinherit.Proofs.Class.Regrouping
import Disinherit.Proofs.Compile.Reading
import Disinherit.Proofs.Members.Flat
import Mathlib.Data.List.Flatten
import Mathlib.Data.List.Perm.Subperm

/-!
# What becomes of a class body

The body of a class is a list of members, comments and other items. `Script.membersOf` reads it once
from top to bottom and remembers the last member, the comments that wait for the next one, and
whether the last member has its trailing comment. This file says what the result is in terms of the
body alone.

An `Item` is an item of the body together with what comes before and after it, so that equal nodes
at different places are told apart. A comment trails a member (`Script.trails`) if it is the first
comment after it, no other member comes in between, and it starts on the row where the member ends.
Every other comment is loose (`Script.isLoose`) and leads the next member. `Script.Describes` says
that a member is what stands at a place, with the comments that belong there.

`ReadUpTo` is the invariant of the reader, with one lemma for each kind of item; `Reads.describes`
is the run. Which of the declarations are kept depends on their identities only (`Script.isLast`),
and those that are kept are stored as the flat list of them would be (`holds_ofDeclarations`).
`gathers_membersOf` puts both together.
-/

namespace Disinherit

/-! ### Places -/

/-- An item of a list of nodes, with what comes before it and what comes after. -/
structure Item where
  before : List Node
  node : Node
  after : List Node

namespace Item

/-- The places of a list that follows `before`, in order. -/
def allFrom (before : List Node) : List Node → List Item
  | [] => []
  | n :: ns => ⟨before, n, ns⟩ :: allFrom (before ++ [n]) ns

/-- The places of a list, in order. -/
def all (items : List Node) : List Item :=
  allFrom [] items

theorem mem_allFrom {p : Item} {items : List Node} : ∀ {before : List Node},
    p ∈ allFrom before items ↔ ∃ gap, p.before = before ++ gap ∧
      items = gap ++ p.node :: p.after := by
  induction items with
  | nil => simp [allFrom]
  | cons n items ih =>
    -- the first place has nothing read after `before`, any other one has read `n` too
    intro before
    rw [allFrom, List.mem_cons, ih]
    constructor
    · rintro (rfl | ⟨gap, hbefore, rfl⟩)
      · exact ⟨[], (List.append_nil _).symm, rfl⟩
      · exact ⟨n :: gap, by rw [hbefore, List.append_assoc]; rfl, rfl⟩
    · rintro ⟨gap, hbefore, hitems⟩
      cases gap with
      | nil =>
        obtain ⟨rfl, rfl⟩ := List.cons.inj hitems
        rw [List.append_nil] at hbefore
        subst hbefore
        exact .inl rfl
      | cons x gap =>
        obtain ⟨rfl, rfl⟩ := List.cons.inj hitems
        exact .inr ⟨gap, by rw [hbefore, List.append_assoc]; rfl, rfl⟩

/-- A place is a way of cutting the list in two around one item. -/
theorem mem_all {p : Item} {items : List Node} :
    p ∈ all items ↔ items = p.before ++ p.node :: p.after := by
  rw [all, mem_allFrom]
  constructor
  · rintro ⟨gap, hbefore, hitems⟩
    rw [hbefore]
    exact hitems
  · exact fun h => ⟨p.before, rfl, h⟩

/-- One more item comes after all places that were there, and makes a new one. -/
theorem allFrom_concat (before items : List Node) (n : Node) :
    allFrom before (items ++ [n])
      = (allFrom before items).map (fun p => { p with after := p.after ++ [n] })
        ++ [⟨before ++ items, n, []⟩] := by
  induction items generalizing before with
  | nil => simp [allFrom]
  | cons x items ih => simp [allFrom, ih]

theorem all_concat (items : List Node) (n : Node) :
    all (items ++ [n])
      = (all items).map (fun p => { p with after := p.after ++ [n] }) ++ [⟨items, n, []⟩] :=
  allFrom_concat [] items n

end Item

/-! ### Comments and members of a body -/

/-- The station at which members with an identity are written. -/
def Identity.station (i : Identity) : Option Category :=
  if i.kind = .constructor then none else some i.category

namespace Script

variable (s : Script)

/-- The node declares a member. -/
def isMember (n : Node) : Bool :=
  s.declares (fun _ => true) n

/-- The comment `c` trails the member `n`, where `gap` is what stands between them: it is the first
comment after the member, no other member comes before it, and it starts on the row where the member
ends. -/
def trails (n : Node) (gap : List Node) (c : Node) : Bool :=
  s.isMember n && c.kind == .comment && gap.all (fun x => x.kind != .comment && !s.isMember x)
    && s.source.row c.start == s.source.row n.stop

/-- A comment that waits for the next member: it trails none, and no member has come since. -/
def isLoose (c : Item) : Bool :=
  c.node.kind == .comment && !c.after.any s.isMember
    && !(Item.all c.before).any fun p => s.trails p.node p.after c.node

/-- The comments that wait for the next member after `before`, in order. -/
def looseIn (before : List Node) : List Node :=
  ((Item.all before).filter s.isLoose).map (·.node)

/-- What is declared at the place is a static block, or nothing after it declares the same
identity. -/
def isLast (p : Item) : Bool :=
  s.declares (fun i => i.kind == .staticBlock || !p.after.any (s.declares (· == i))) p.node

/-- The member is what stands at the place, with the comments that belong to it. -/
structure Describes (owner : String) (p : Item) (m : Member) : Prop where
  node : m.node = p.node
  owner : m.owner = owner
  identity : s.identity? p.node = .ok (some m.identity)
  /-- Its trailing comment is the one that trails it. -/
  trailing : ∀ c, m.trailing = some c ↔ ∃ gap rest, p.after = gap ++ c :: rest ∧
    s.trails p.node gap c = true
  /-- Its leading comments are those between it and the member before it that trail none, in
  order. -/
  leading : m.leading = s.looseIn p.before

variable {s}

/-! ### The trailing comment of a member -/

theorem isMember_of_identity? {n : Node} {i : Identity} (h : s.identity? n = .ok (some i)) :
    s.isMember n = true :=
  declares_of_identity? h

theorem not_isMember_of_comment {n : Node} (h : n.kind = .comment) : s.isMember n = false :=
  not_declares_of_identity? (identity?_of_comment h)

theorem trails_iff {n c : Node} {gap : List Node} :
    s.trails n gap c = true ↔ s.isMember n = true ∧ c.kind = .comment ∧
      (∀ x ∈ gap, x.kind ≠ .comment ∧ s.isMember x = false) ∧
      s.source.row c.start = s.source.row n.stop := by
  simp [trails, and_assoc]

/-- What is first after a member, comments and members alone considered. -/
def trailingIn (s : Script) (n : Node) (after : List Node) : Option Node :=
  (after.find? fun x => x.kind == .comment || s.isMember x).filter fun c =>
    c.kind == .comment && s.source.row c.start == s.source.row n.stop

theorem trailingIn_eq_some_iff {n c : Node} {after : List Node} (hn : s.isMember n = true) :
    s.trailingIn n after = some c ↔ ∃ gap rest, after = gap ++ c :: rest ∧
      s.trails n gap c = true := by
  rw [trailingIn, Option.filter_eq_some_iff, List.find?_eq_some_iff_append]
  constructor
  · rintro ⟨⟨-, gap, rest, hafter, hgap⟩, hc⟩
    obtain ⟨hcomment, hrow⟩ := Bool.and_eq_true_iff.1 hc
    refine ⟨gap, rest, hafter,
      trails_iff.2 ⟨hn, beq_iff_eq.1 hcomment, fun x hx => ?_, beq_iff_eq.1 hrow⟩⟩
    simpa using hgap x hx
  · rintro ⟨gap, rest, hafter, htrails⟩
    obtain ⟨-, hcomment, hgap, hrow⟩ := trails_iff.1 htrails
    refine ⟨⟨by simp [hcomment], gap, rest, hafter, fun x hx => ?_⟩, by simp [hcomment, hrow]⟩
    simpa using hgap x hx

/-- What comes later is of no interest once there was a comment. -/
theorem trailingIn_append_of_comment {n : Node} {gap rest : List Node}
    (h : ∃ x ∈ gap, x.kind = .comment) : s.trailingIn n (gap ++ rest) = s.trailingIn n gap := by
  obtain ⟨x, hx, hcomment⟩ := h
  -- the search stops within `gap`, at this comment or earlier
  have hsome : (gap.find? fun x => x.kind == .comment || s.isMember x).isSome := by
    rw [List.find?_isSome]
    exact ⟨x, hx, by simp [hcomment]⟩
  rw [trailingIn, trailingIn, List.find?_append, Option.or_of_isSome hsome]

/-- Before there was any comment or member, all depends on what comes later. -/
theorem trailingIn_append_of_quiet {n : Node} {gap rest : List Node}
    (hgap : ∀ x ∈ gap, s.isMember x = false) (hquiet : ∀ x ∈ gap, x.kind ≠ .comment) :
    s.trailingIn n (gap ++ rest) = s.trailingIn n rest := by
  have hnone : gap.find? (fun x => x.kind == .comment || s.isMember x) = none := by
    rw [List.find?_eq_none]
    intro x hx
    simp [hgap x hx, hquiet x hx]
  rw [trailingIn, trailingIn, List.find?_append, hnone, Option.none_or]

/-! ### The comments that wait -/

/-- A comment is not loose any more once a member has come. -/
theorem isLoose_extend (p : Item) (x : Node) :
    s.isLoose { p with after := p.after ++ [x] } = (s.isLoose p && !s.isMember x) := by
  simp only [isLoose, List.any_append, List.any_cons, List.any_nil, Bool.or_false, Bool.not_or]
  cases s.isMember x <;> simp

/-- One more item: the comments that wait are the same as long as it is no member, and it may join
them. -/
theorem looseIn_concat (before : List Node) (x : Node) :
    s.looseIn (before ++ [x]) = (if s.isMember x then [] else s.looseIn before)
      ++ if s.isLoose ⟨before, x, []⟩ then [x] else [] := by
  rw [looseIn, Item.all_concat, List.filter_append, List.map_append, List.filter_map, List.map_map]
  congr 1
  · -- the places that were there: each of them has one more item behind it
    have hsame : (s.isLoose ∘ fun p : Item => { p with after := p.after ++ [x] })
        = fun p => s.isLoose p && !s.isMember x := funext fun p => isLoose_extend p x
    rw [hsame]
    cases s.isMember x with
    | true => simp
    | false =>
      simp only [Bool.not_false, Bool.and_true]
      rfl
  · -- the new place
    cases h : s.isLoose ⟨before, x, []⟩ <;> simp [h]

theorem looseIn_member {before : List Node} {x : Node} (hx : s.isMember x = true) :
    s.looseIn (before ++ [x]) = [] := by
  -- a member is no comment, and so it does not wait itself
  have hcomment : x.kind ≠ .comment := by
    intro hk
    rw [not_isMember_of_comment hk] at hx
    cases hx
  have hloose : s.isLoose ⟨before, x, []⟩ = false := by simp [isLoose, hcomment]
  rw [looseIn_concat, hx, hloose]
  rfl

theorem looseIn_other {before : List Node} {x : Node} (hx : s.isMember x = false)
    (hk : x.kind ≠ .comment) : s.looseIn (before ++ [x]) = s.looseIn before := by
  have hloose : s.isLoose ⟨before, x, []⟩ = false := by simp [isLoose, hk]
  rw [looseIn_concat, hx, hloose]
  exact List.append_nil _

theorem looseIn_comment {before : List Node} {x : Node} (hk : x.kind = .comment) :
    s.looseIn (before ++ [x]) = s.looseIn before
      ++ if (Item.all before).any (fun p => s.trails p.node p.after x) then [] else [x] := by
  have hloose : s.isLoose ⟨before, x, []⟩ = !(Item.all before).any fun p =>
      s.trails p.node p.after x := by
    simp [isLoose, hk]
  rw [looseIn_concat, not_isMember_of_comment hk, hloose]
  cases (Item.all before).any fun p => s.trails p.node p.after x <;> rfl

/-- Only the last member can be trailed. -/
theorem any_trails {l gap : List Node} {n x : Node} (hn : s.isMember n = true)
    (hgap : ∀ y ∈ gap, s.isMember y = false) :
    (Item.all (l ++ n :: gap)).any (fun p => s.trails p.node p.after x) = s.trails n gap x := by
  rw [Bool.eq_iff_iff, List.any_eq_true]
  constructor
  · rintro ⟨p, hp, htrails⟩
    obtain ⟨hmember, -, hafter, -⟩ := trails_iff.1 htrails
    -- the member that is trailed is the last one, for no other comes after it
    obtain ⟨-, hnode, hgaps⟩ := split_at_last (Item.mem_all.1 hp) hn hmember hgap fun y hy =>
      (hafter y hy).2
    rw [hnode, hgaps]
    exact htrails
  · exact fun h => ⟨⟨l, n, gap⟩, Item.mem_all.2 rfl, h⟩

theorem not_any_trails {before : List Node} {x : Node} (h : ∀ y ∈ before, s.isMember y = false) :
    (Item.all before).any (fun p => s.trails p.node p.after x) = false := by
  rw [List.any_eq_false]
  intro p hp htrails
  have hmem : p.node ∈ before := by
    rw [Item.mem_all.1 hp]
    exact List.mem_append_right _ List.mem_cons_self
  have hmember := (trails_iff.1 htrails).1
  rw [h p.node hmem] at hmember
  cases hmember

/-! ### Reading a body -/

/-- What is known when a body has been read up to some point, the last member being `n` with `gap`
after it. As far as one can tell by then, `m` is what stands at `n`, and `waiting` are the comments
that wait. -/
structure ReadUpTo (s : Script) (owner : String) (l : List Node) (n : Node) (gap : List Node)
    (m : Member) (waiting : List Node) : Prop where
  memberless : ∀ x ∈ gap, s.isMember x = false
  described : s.Describes owner ⟨l, n, gap⟩ m
  waiting_eq : waiting = s.looseIn (l ++ n :: gap)
  /-- No comment has come since the member just if none is with it and none waits. -/
  quiet : m.trailing = none ∧ waiting = [] ↔ ∀ x ∈ gap, x.kind ≠ .comment

namespace ReadUpTo

variable {owner : String} {l gap waiting : List Node} {n x : Node} {m : Member}

theorem isMember (h : ReadUpTo s owner l n gap m waiting) : s.isMember n = true :=
  isMember_of_identity? h.described.identity

theorem trailing_eq (h : ReadUpTo s owner l n gap m waiting) : m.trailing = s.trailingIn n gap :=
  Option.ext fun c => (h.described.trailing c).trans (trailingIn_eq_some_iff h.isMember).symm

/-- The member is also what stands at `n` when more of the body is known, if its trailing comment is
the same there. -/
theorem describes (h : ReadUpTo s owner l n gap m waiting) {after : List Node} {t : Option Node}
    (ht : t = s.trailingIn n after) : s.Describes owner ⟨l, n, after⟩ { m with trailing := t } where
  node := h.described.node
  owner := h.described.owner
  identity := h.described.identity
  trailing c := by
    rw [ht]
    exact trailingIn_eq_some_iff h.isMember
  leading := h.described.leading

/-- The rest of a body brings no other trailing comment if a comment has come, or comes no more. -/
theorem trailingIn_append (h : ReadUpTo s owner l n gap m waiting) {rest : List Node}
    (hrest : (∀ y ∈ gap, y.kind ≠ .comment) → s.trailingIn n rest = none) :
    m.trailing = s.trailingIn n (gap ++ rest) := by
  rw [h.trailing_eq]
  by_cases hquiet : ∀ y ∈ gap, y.kind ≠ .comment
  · -- no comment so far, and by `hrest` none that could trail comes now
    rw [trailingIn_append_of_quiet h.memberless hquiet, hrest hquiet, ← h.trailing_eq]
    exact (h.quiet.2 hquiet).1
  · -- the first comment has come already, and it has decided the matter
    push Not at hquiet
    rw [trailingIn_append_of_comment hquiet]

/-- A member begins a new stretch. -/
theorem start {before : List Node} (hwaiting : waiting = s.looseIn before)
    (h : s.member? owner waiting n = .ok (some m)) : ReadUpTo s owner before n [] m [] where
  memberless := by simp
  described := by
    obtain ⟨howner, hnode, hrec⟩ := member?_spec h
    obtain ⟨hleading, htrailing⟩ := member?_comments h
    refine ⟨hnode, howner, hnode ▸ hrec.identity, fun c => ?_, hleading.trans hwaiting⟩
    -- nothing has come after the member, so there is nothing to trail it
    rw [htrailing]
    simp
  waiting_eq :=
    (looseIn_member (isMember_of_identity?
      ((member?_spec h).2.1 ▸ (member?_spec h).2.2.identity))).symm
  quiet := by simp [(member?_comments h).2]

/-- What the reader asks about a comment is whether it trails the last member. -/
theorem trailed?_eq (h : ReadUpTo s owner l n gap m waiting) (hx : x.kind = .comment) :
    s.trailed? (some m) waiting x = if s.trails n gap x then some m else none := by
  -- by `quiet` the reader's three questions are those that `trails` asks about the gap
  have hcond : (m.trailing.isNone && waiting.isEmpty
      && s.source.row x.start == s.source.row m.node.stop)
      = s.trails n gap x := by
    rw [Bool.eq_iff_iff, trails_iff, Bool.and_eq_true, Bool.and_eq_true, Option.isNone_iff_eq_none,
      List.isEmpty_iff, beq_iff_eq, h.quiet, h.described.node]
    constructor
    · rintro ⟨hquiet, hrow⟩
      exact ⟨h.isMember, hx, fun y hy => ⟨hquiet y hy, h.memberless y hy⟩, hrow⟩
    · rintro ⟨-, -, hgap, hrow⟩
      exact ⟨fun y hy => (hgap y hy).1, hrow⟩
  rw [trailed?, Option.filter_some, hcond]

theorem not_isMember_concat (h : ReadUpTo s owner l n gap m waiting) (hx : s.isMember x = false) :
    ∀ y ∈ gap ++ [x], s.isMember y = false := by
  intro y hy
  rcases List.mem_append.1 hy with hy | hy
  · exact h.memberless y hy
  · rw [List.mem_singleton.1 hy]
    exact hx

/-- A comment that trails the member is given to it. -/
theorem trailed (h : ReadUpTo s owner l n gap m waiting) (hx : s.trails n gap x = true) :
    ReadUpTo s owner l n (gap ++ [x]) { m with trailing := some x } waiting where
  memberless := h.not_isMember_concat (not_isMember_of_comment (trails_iff.1 hx).2.1)
  described := h.describes ((trailingIn_eq_some_iff h.isMember).2 ⟨gap, [], rfl, hx⟩).symm
  waiting_eq := by
    rw [← List.cons_append, ← List.append_assoc, looseIn_comment (trails_iff.1 hx).2.1,
      any_trails h.isMember h.memberless, if_pos hx, List.append_nil]
    exact h.waiting_eq
  quiet := by simp [(trails_iff.1 hx).2.1]

/-- A comment that does not trail the member waits. -/
theorem wait (h : ReadUpTo s owner l n gap m waiting) (hk : x.kind = .comment)
    (hx : s.trails n gap x = false) :
    ReadUpTo s owner l n (gap ++ [x]) m (waiting ++ [x]) where
  memberless := h.not_isMember_concat (not_isMember_of_comment hk)
  described := by
    refine h.describes (h.trailingIn_append fun hquiet => ?_)
    -- the comment is on another row than the end of the member
    have hrow : ¬ s.source.row x.start = s.source.row n.stop := fun hrow =>
      Bool.eq_false_iff.1 hx (trails_iff.2 ⟨h.isMember, hk,
        fun y hy => ⟨hquiet y hy, h.memberless y hy⟩, hrow⟩)
    simp [trailingIn, hk, hrow]
  waiting_eq := by
    rw [← List.cons_append, ← List.append_assoc, looseIn_comment hk,
      any_trails h.isMember h.memberless, hx, ← h.waiting_eq]
    rfl
  quiet := by simp [hk]

/-- Any other item is passed over. -/
theorem pass (h : ReadUpTo s owner l n gap m waiting) (hk : x.kind ≠ .comment)
    (hx : s.isMember x = false) :
    ReadUpTo s owner l n (gap ++ [x]) m waiting where
  memberless := h.not_isMember_concat hx
  described := h.describes (h.trailingIn_append fun _ => by simp [trailingIn, hk, hx])
  waiting_eq := by
    rw [← List.cons_append, ← List.append_assoc, looseIn_other hx hk]
    exact h.waiting_eq
  quiet := by
    -- an item that is no comment does not break the silence
    rw [h.quiet]
    refine ⟨fun hquiet y hy => ?_, fun hquiet y hy => hquiet y (List.mem_append_left _ hy)⟩
    rcases List.mem_append.1 hy with hy | hy
    · exact hquiet y hy
    · rw [List.mem_singleton.1 hy]
      exact hk

end ReadUpTo

/-- The members of a body that follows `before`, in order. -/
def memberItems (s : Script) (before items : List Node) : List Item :=
  (Item.allFrom before items).filter fun p => s.isMember p.node

theorem memberItems_cons {before items : List Node} {x : Node} (hx : s.isMember x = true) :
    s.memberItems before (x :: items) = ⟨before, x, items⟩ :: s.memberItems (before ++ [x]) items :=
  List.filter_cons_of_pos hx

theorem memberItems_cons_of_not {before items : List Node} {x : Node} (hx : s.isMember x = false) :
    s.memberItems before (x :: items) = s.memberItems (before ++ [x]) items :=
  List.filter_cons_of_neg (Bool.eq_false_iff.1 hx)

/-- The rest of a body after some member: that member is complete, and each that follows is what
stands at its place. -/
theorem ReadUpTo.describes_of_reads {owner : String} {last : Option Member}
    {waiting items : List Node} {ds : List Member} (hds : s.Reads owner last waiting items ds) :
    ∀ {l gap : List Node} {n : Node} {m : Member},
      last = some m → ReadUpTo s owner l n gap m waiting →
      List.Forall₂ (s.Describes owner)
        (⟨l, n, gap ++ items⟩ :: s.memberItems (l ++ n :: gap) items) ds := by
  -- an item goes over from what is to be read to what has been read
  have hafter : ∀ (gap items : List Node) (x : Node), gap ++ x :: items = gap ++ [x] ++ items := by
    simp
  have hbefore : ∀ (l gap : List Node) (n x : Node),
      l ++ n :: gap ++ [x] = l ++ n :: (gap ++ [x]) := by simp
  induction hds with
  | done =>
    -- the body ends, and what is known of the last member is all there is
    rintro l gap n m rfl h
    rw [List.append_nil]
    exact .cons h.described .nil
  | @trails _ _ _ x _ _ hk hm _ ih =>
    rintro l gap n m rfl h
    -- the reader gives the comment to the member, and `trails` agrees
    rw [h.trailed?_eq hk] at hm
    rw [memberItems_cons_of_not (not_isMember_of_comment hk), hafter, hbefore]
    cases hx : s.trails n gap x with
    | true =>
      rw [hx] at hm
      obtain rfl := Option.some.inj hm
      exact ih rfl (h.trailed hx)
    | false =>
      rw [hx] at hm
      cases hm
  | @waits _ _ _ x _ hk hm _ ih =>
    rintro l gap n m rfl h
    -- the reader does not, and `trails` agrees again
    rw [h.trailed?_eq hk] at hm
    rw [memberItems_cons_of_not (not_isMember_of_comment hk), hafter, hbefore]
    cases hx : s.trails n gap x with
    | true =>
      rw [hx] at hm
      cases hm
    | false => exact ih rfl (h.wait hk hx)
  | passes hk hm _ ih =>
    rintro l gap n m rfl h
    have hx := not_declares_of_identity? (p := fun _ => true) (identity?_of_member?_eq_none hm)
    rw [memberItems_cons_of_not hx, hafter, hbefore]
    exact ih rfl (h.pass hk hx)
  | @declares _ _ items x _ _ hk hm _ ih =>
    rintro l gap n m rfl h
    have hnext := ReadUpTo.start h.waiting_eq hm
    rw [memberItems_cons hnext.isMember]
    -- nothing after another member can trail this one
    have hnone : s.trailingIn n (x :: items) = none := by simp [trailingIn, hk, hnext.isMember]
    have hmember := h.describes (h.trailingIn_append fun _ => hnone)
    exact .cons hmember (ih rfl hnext)

/-- **Each declaration is what stands at its place.** So long as no member has come, all comments
wait. -/
theorem Reads.describes {owner : String} {last : Option Member} {waiting items : List Node}
    {ds : List Member} (hds : s.Reads owner last waiting items ds) :
    ∀ {before : List Node}, last = none → (∀ y ∈ before, s.isMember y = false) →
      waiting = s.looseIn before →
      List.Forall₂ (s.Describes owner) (s.memberItems before items) ds := by
  have hconcat : ∀ {before : List Node} {x : Node}, (∀ y ∈ before, s.isMember y = false) →
      s.isMember x = false → ∀ y ∈ before ++ [x], s.isMember y = false := by
    intro before x hbefore hx y hy
    rcases List.mem_append.1 hy with hy | hy
    · exact hbefore y hy
    · rw [List.mem_singleton.1 hy]
      exact hx
  induction hds with
  | done =>
    rintro before rfl _ _
    exact .nil
  | trails _ hm _ _ =>
    -- there is no member yet that the comment could trail
    rintro before rfl _ _
    cases hm
  | waits hk _ _ ih =>
    rintro before rfl hbefore hwaiting
    have hx := not_isMember_of_comment (s := s) hk
    rw [memberItems_cons_of_not hx]
    -- it waits, since there is nothing that it could trail
    refine ih rfl (hconcat hbefore hx) ?_
    rw [looseIn_comment hk, not_any_trails hbefore, hwaiting]
    rfl
  | passes hk hm _ ih =>
    rintro before rfl hbefore hwaiting
    have hx := not_declares_of_identity? (p := fun _ => true) (identity?_of_member?_eq_none hm)
    rw [memberItems_cons_of_not hx]
    exact ih rfl (hconcat hbefore hx) (hwaiting.trans (looseIn_other hx hk).symm)
  | declares _ hm hrest _ =>
    rintro before rfl hbefore hwaiting
    -- from the first member on the other invariant takes over
    have hfirst := ReadUpTo.start hwaiting hm
    rw [memberItems_cons hfirst.isMember]
    exact ReadUpTo.describes_of_reads hrest rfl hfirst

/-! ### The declarations that are kept -/

/-- The identity of the member that a node declares. -/
def declared? (s : Script) (n : Node) : Option Identity :=
  match s.identity? n with
  | .ok i? => i?
  | .error _ => none

theorem declares_eq_any (p : Identity → Bool) (n : Node) :
    s.declares p n = (s.declared? n).any p := by
  unfold declares declared?
  cases s.identity? n with
  | error e => rfl
  | ok i? => cases i? <;> rfl

theorem Describes.declared?_eq {owner : String} {p : Item} {m : Member}
    (h : s.Describes owner p m) : s.declared? p.node = some m.identity := by
  rw [declared?, h.identity]

theorem Describes.declares_eq {owner : String} {p : Item} {m : Member} (h : s.Describes owner p m)
    (q : Identity → Bool) : s.declares q p.node = q m.identity :=
  declares_of_identity? h.identity

/-- The identities of the members that stand in a body are those that its items declare. -/
theorem map_identity_of_describes {owner : String} (items : List Node) :
    ∀ {before : List Node} {ds : List Member},
    List.Forall₂ (s.Describes owner) (s.memberItems before items) ds →
    ds.map (·.identity) = items.filterMap s.declared? := by
  induction items with
  | nil =>
    intro before ds h
    rw [List.forall₂_nil_left_iff.1 h]
    rfl
  | cons x items ih =>
    intro before ds h
    cases hx : s.isMember x with
    | true =>
      -- a member, and so the first of the descriptions is for it
      rw [memberItems_cons hx] at h
      cases h with
      | cons hm hrest =>
        have hident : s.declared? x = _ := hm.declared?_eq
        rw [List.map_cons, List.filterMap_cons_some hident, ih hrest]
    | false =>
      -- no member, and so nothing is declared
      rw [memberItems_cons_of_not hx] at h
      have hnone : s.declared? x = none := by
        rw [isMember, declares_eq_any] at hx
        cases hi : s.declared? x with
        | none => rfl
        | some i => rw [hi] at hx; cases hx
      rw [List.filterMap_cons_none hnone, ih h]

/-- A declaration makes room for no later one just if it is a static block or the last of its
identity. -/
theorem isLast_eq {owner : String} {before items : List Node} {x : Node} {m : Member}
    {ds : List Member} (hm : s.Describes owner ⟨before, x, items⟩ m)
    (h : List.Forall₂ (s.Describes owner) (s.memberItems (before ++ [x]) items) ds) :
    s.isLast ⟨before, x, items⟩ = !ds.any m.yieldsTo := by
  -- being declared again is a matter of identities, which are the same on both sides
  have hlater : (∃ b ∈ ds, m.identity = b.identity) ↔
      ∃ y ∈ items, s.declared? y = some m.identity := by
    have hmem : m.identity ∈ ds.map (·.identity) ↔ m.identity ∈ items.filterMap s.declared? := by
      rw [map_identity_of_describes items h]
    rw [List.mem_map, List.mem_filterMap] at hmem
    simpa only [eq_comm] using hmem
  rw [Bool.eq_iff_iff, isLast, hm.declares_eq, Bool.or_eq_true, beq_iff_eq, Bool.not_eq_true',
    Bool.not_eq_true', ← Bool.not_eq_true, ← Bool.not_eq_true, List.any_eq_true, List.any_eq_true]
  simp only [Member.yieldsTo_iff, declares_eq_any, Option.any_eq_true, beq_iff_eq, exists_eq_right]
  rw [← hlater]
  -- static blocks make room for nothing, whatever comes later
  by_cases hk : m.kind = .staticBlock
  · simp [hk, show m.identity.kind = .staticBlock from hk]
  · simp [hk, show ¬ m.identity.kind = .staticBlock from hk]

/-- The declarations that stand are those at the last places of their identities. -/
theorem forall₂_standing {owner : String} (items : List Node) :
    ∀ {before : List Node} {ds : List Member},
    List.Forall₂ (s.Describes owner) (s.memberItems before items) ds →
    List.Forall₂ (s.Describes owner) ((Item.allFrom before items).filter s.isLast)
      (standing ds) := by
  induction items with
  | nil =>
    intro before ds h
    rw [List.forall₂_nil_left_iff.1 h]
    exact .nil
  | cons x items ih =>
    intro before ds h
    cases hx : s.isMember x with
    | true =>
      rw [memberItems_cons hx] at h
      cases h with
      | @cons _ m _ ds hm hrest =>
        -- the place is kept just if the declaration stands
        rw [Item.allFrom, List.filter_cons, isLast_eq hm hrest, standing]
        cases ds.any m.yieldsTo with
        | true => exact ih hrest
        | false => exact .cons hm (ih hrest)
    | false =>
      rw [memberItems_cons_of_not hx] at h
      -- what declares nothing is not the last declaration of anything
      have hnot : s.isLast ⟨before, x, items⟩ = false := by
        rw [isMember, declares_eq_any] at hx
        rw [isLast, declares_eq_any]
        cases hi : s.declared? x with
        | none => rfl
        | some i => rw [hi] at hx; cases hx
      rw [Item.allFrom, List.filter_cons_of_neg (Bool.eq_false_iff.1 hnot)]
      exact ih h

end Script

/-- Of declarations that make room for each other only the last one stands. -/
theorem standing_eq_getLast? {ms : List Member} (h : ∀ a ∈ ms, ∀ b ∈ ms, a.yieldsTo b = true) :
    standing ms = ms.getLast?.toList := by
  induction ms with
  | nil => rfl
  | cons m ms ih =>
    cases ms with
    | nil => rfl
    | cons b ms =>
      -- the first makes room for the second, so that it does not stand
      have hany : (b :: ms).any m.yieldsTo = true :=
        List.any_eq_true.2 ⟨b, List.mem_cons_self, h m List.mem_cons_self b (by simp)⟩
      rw [standing, hany, if_pos rfl, List.getLast?_cons_cons]
      exact ih fun a ha c hc => h a (List.mem_cons_of_mem m ha) c (List.mem_cons_of_mem m hc)

/-- The members of a class are stored as the list of the declarations that stand. -/
theorem Members.holds_ofDeclarations {ds : List Member}
    (h : ∀ a ∈ ds, ∀ b ∈ ds, a.kind = .constructor → b.kind = .constructor →
      a.identity = b.identity) :
    (ofDeclarations ds).Holds (standing ds) := by
  intro k
  cases k with
  | some c =>
    show (ofDeclarations ds).inCategory c = _
    rw [inCategory_ofDeclarations]
    exact List.filter_congr fun m _ => fits_eq_station c m
  | none =>
    -- all constructors have one identity, so that each makes room for the next
    have hstands : standing (ds.filter (·.kind = .constructor))
        = (ds.filter (·.kind = .constructor)).getLast?.toList := by
      refine standing_eq_getLast? fun a ha b hb => ?_
      obtain ⟨ha, hka⟩ := List.mem_filter.1 ha
      obtain ⟨hb, hkb⟩ := List.mem_filter.1 hb
      have hka := of_decide_eq_true hka
      refine Member.yieldsTo_iff.2 ⟨fun hblock => ?_, h a ha b hb hka (of_decide_eq_true hkb)⟩
      rw [hblock] at hka
      cases hka
    show (ofDeclarations ds).constructor.toList = _
    rw [constructor_ofDeclarations, ← hstands,
      standing_filter fun a b hab => by rw [Member.kind, Member.kind, hab]]
    exact List.filter_congr fun m _ => decide_eq_decide.2 station_eq_none_iff.symm

namespace Script

/-- What the members of a class are, told by the items of its body. -/
structure Gathers (s : Script) (owner : String) (items : List Node) (ms : Members) : Prop where
  /-- At each station stand, in the order of the body, the static blocks and for every other
  identity its last declaration, each with its comments. -/
  kept : ∀ k, List.Forall₂ (s.Describes owner)
    (((Item.all items).filter s.isLast).filter fun p => s.declares (·.station == k) p.node)
    (ms.atStation k)
  /-- No comment of the body is held twice. -/
  heldOnce : (ms.toList.flatMap Member.comments).Subperm (items.filter (·.kind = .comment))
  /-- A comment that trails no member is a leading comment of the next one, if that is kept. -/
  placed : ∀ c ∈ Item.all items, c.node.kind = .comment →
    (¬ ∃ p ∈ Item.all c.before, s.trails p.node p.after c.node = true) →
    ∀ gap n rest, c.after = gap ++ n :: rest → (∀ x ∈ gap, s.isMember x = false) →
      s.isLast ⟨c.before ++ c.node :: gap, n, rest⟩ = true →
      ∃ m ∈ ms.toList, s.Describes owner ⟨c.before ++ c.node :: gap, n, rest⟩ m ∧ c.node ∈ m.leading

variable {s : Script} {owner : String} {items : List Node} {cls : Node}

/-- A comment that trails no member waits for the next one. -/
theorem mem_looseIn {before gap : List Node} {c : Node} (hk : c.kind = .comment)
    (htrails : ¬ ∃ p ∈ Item.all before, s.trails p.node p.after c = true)
    (hgap : ∀ x ∈ gap, s.isMember x = false) : c ∈ s.looseIn (before ++ c :: gap) := by
  have hloose : s.isLoose ⟨before, c, gap⟩ = true := by
    rw [isLoose, Bool.and_eq_true, Bool.and_eq_true, beq_iff_eq, Bool.not_eq_true',
      Bool.not_eq_true', List.any_eq_false, List.any_eq_false]
    exact ⟨⟨hk, fun x hx => Bool.eq_false_iff.1 (hgap x hx)⟩,
      fun p hp htrail => htrails ⟨p, hp, htrail⟩⟩
  exact List.mem_map.2 ⟨_, List.mem_filter.2 ⟨Item.mem_all.2 rfl, hloose⟩, rfl⟩

/-- The declarations that are kept, station by station. -/
theorem forall₂_atStation {ds : List Member} {ms : Members}
    (h : List.Forall₂ (s.Describes owner) (s.memberItems [] items) ds)
    (hms : ms.Holds (standing ds)) (k : Option Category) :
    List.Forall₂ (s.Describes owner)
      (((Item.all items).filter s.isLast).filter fun p => s.declares (·.station == k) p.node)
      (ms.atStation k) := by
  rw [hms k]
  refine List.rel_filter (fun p m hm => ?_) (forall₂_standing items h)
  show s.declares _ p.node = true ↔ decide (m.station = k) = true
  rw [hm.declares_eq, beq_iff_eq, decide_eq_true_iff]
  exact Iff.rfl

/-- What is declared last of its identity is a member of the class. -/
theorem exists_describes_of_isLast {ms : Members}
    (h : ∀ k, List.Forall₂ (s.Describes owner)
      (((Item.all items).filter s.isLast).filter fun p => s.declares (·.station == k) p.node)
      (ms.atStation k))
    {p : Item} (hp : p ∈ Item.all items) (hlast : s.isLast p = true) :
    ∃ m ∈ ms.toList, s.Describes owner p m := by
  -- what is declared at the place tells the station
  obtain ⟨i, hi, -⟩ := (Option.any_eq_true _ _).1 ((declares_eq_any _ p.node).symm.trans hlast)
  have hstation : s.declares (·.station == i.station) p.node = true := by
    rw [declares_eq_any, hi]
    exact beq_self_eq_true _
  have hmem : p ∈ ((Item.all items).filter s.isLast).filter fun p =>
      s.declares (·.station == i.station) p.node :=
    List.mem_filter.2 ⟨List.mem_filter.2 ⟨hp, hlast⟩, hstation⟩
  obtain ⟨m, hm, hdescribes⟩ := exists_mem_of_forall₂ (h i.station) hmem
  refine ⟨m, ?_, hdescribes⟩
  rw [Members.toList_eq_flatMap]
  exact List.mem_flatMap.2 ⟨i.station, mem_stations _, hm⟩

/-- The constructors of a body have one identity. -/
theorem identity_eq_of_constructor {ds : List Member} (h : s.declarations owner items = .ok ds) :
    ∀ a ∈ ds, ∀ b ∈ ds, a.kind = .constructor → b.kind = .constructor →
      a.identity = b.identity := by
  intro a ha b hb hka hkb
  refine Identity.eq_of_property (hka.trans hkb.symm) ?_
  rw [(records_of_mem_declarations h ha).property_constructor hka,
    (records_of_mem_declarations h hb).property_constructor hkb]

/-- The declarations of a body describe the items that are members. -/
theorem describes_declarations {ds : List Member} (h : s.declarations owner items = .ok ds) :
    List.Forall₂ (s.Describes owner) (s.memberItems [] items) ds :=
  (declarations_eq_ok_iff.1 h).describes rfl (by simp) rfl

theorem gathers_ofDeclarations {ds : List Member} (h : s.declarations owner items = .ok ds) :
    s.Gathers owner items (.ofDeclarations ds) := by
  have hdescribes := describes_declarations h
  have hholds := Members.holds_ofDeclarations (identity_eq_of_constructor h)
  have hkept := forall₂_atStation hdescribes hholds
  refine ⟨hkept, ?_, ?_⟩
  · -- the order of writing is one of the declarations that stand, and these are among all of them
    have hperm : (Members.ofDeclarations ds).toList.Perm (standing ds) := by
      rw [hholds.toList_eq]
      exact List.mergeSort_perm _ _
    have hsub : ((standing ds).flatMap Member.comments).Sublist
        (items.filter (·.kind = .comment)) :=
      ((standing_sublist ds).flatMap _).trans (declarations_eq_ok_iff.1 h).comments_sublist
    exact (hperm.flatMap_right _).subperm.trans hsub.subperm
  · intro c hc hk htrails gap n rest hafter hgap hlast
    -- the place of the next member, as one of the places of the body
    have hitem : (⟨c.before ++ c.node :: gap, n, rest⟩ : Item) ∈ Item.all items := by
      rw [Item.mem_all, Item.mem_all.1 hc, hafter]
      simp
    obtain ⟨m, hm, hdesc⟩ := exists_describes_of_isLast hkept hitem hlast
    refine ⟨m, hm, hdesc, ?_⟩
    rw [hdesc.leading]
    exact mem_looseIn hk htrails hgap

/-- **No declaration and no comment between members is lost.** The members of a class are, at each
station and in the order of the body, its static blocks and the last declarations of all other
identities. Each has as trailing comment the one that trails it, and as leading comments all others
since the member before. -/
theorem gathers_membersOf (h : cls.OnBoundaries s.source) (owner : String) :
    ∃ ms, s.membersOf cls owner = .ok ms ∧ s.Gathers owner cls.bodyItems ms := by
  obtain ⟨ms, hms⟩ := succeeds_membersOf h owner
  obtain ⟨ds, hds, he⟩ := Attempt.bind_eq_ok.1 hms
  obtain rfl := Attempt.pure_eq_ok.1 he
  exact ⟨_, hms, gathers_ofDeclarations hds⟩

end Script

/-- A class with the method `m`, a static block on the same line, and on the next line `m` again,
with comments around all of them. -/
def Node.commentedBody : Node :=
  .shortClass 0 7 58 []
    [.sound .comment none 8 13 [], .shortMethod 13 13 14 18 [] [], .sound .comment none 18 23 [],
      .sound .comment none 23 28 [], .sound .staticBlock none 28 36 [],
      .sound .comment none 37 42 [],
      .shortMethod 42 42 43 47 [] [], .sound .comment none 47 52 [], .sound .comment none 52 57 []]

/-- The text of that class. -/
def commentedBody : Script where
  source :=
    .ofText "class A\x7b/*a*/m()\x7b\x7d/*b*//*c*/static\x7b\x7d\n/*d*/m()\x7b\x7d/*e*//*f*/\x7d"
  root := .sound (.other "program") none 0 58 [.commentedBody]

/-- The first `m` goes with its comments. The static block keeps the one before it; the one on the
next line goes to the second `m`, which is trailed by the next. -/
theorem gathers_commentedBody : Node.commentedBody.OnBoundaries commentedBody.source ∧
    ∃ ms, commentedBody.membersOf .commentedBody "A" = .ok ms ∧
      commentedBody.Gathers "A" Node.commentedBody.bodyItems ms ∧
      ms.toList.map (fun m => (m.node.start, m.leading.map (·.start), m.trailing.map (·.start)))
        = [(28, [23], none), (42, [37], some 47)] := by
  have hbounds : Node.commentedBody.OnBoundaries commentedBody.source := by decide +kernel
  obtain ⟨ms, hms, hgathers⟩ := Script.gathers_membersOf hbounds "A"
  obtain ⟨ms', hms', htest⟩ := Attempt.exists_ok (x := commentedBody.membersOf .commentedBody "A")
    (p := fun ms => ms.toList.map
      (fun m => (m.node.start, m.leading.map (·.start), m.trailing.map (·.start)))
      == [(28, [23], none), (42, [37], some 47)]) (by decide +kernel)
  obtain rfl := Except.ok.inj (hms.symm.trans hms')
  exact ⟨hbounds, ms, hms, hgathers, beq_iff_eq.1 htest⟩

end Disinherit
