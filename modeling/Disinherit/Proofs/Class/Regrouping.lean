import Disinherit.Proofs.Lineage.Coexistence
import Disinherit.Proofs.Members.Stations

/-!
# The last declaration of a property

Methods and accessors of one name define one property, and when a class is evaluated the last of
them in its body wins. A class is not written out in the order of its body, however: its members are
grouped by category. This file says which declaration of a property comes to stand last that way, in
terms of the body alone.

Of the declarations that make room for each other the last one stays (`getLast?_standing`), and
within a category the order of the body is kept, so that the question is about two groups. The
accessors of an instance are written before its methods and those of the class after its static
methods; `Identity.isClosing` tells the members of the second group. Hence the last declaration of
the closing group is written last, wherever it stands in the body, and only a property without such
a declaration ends with its last one (`endsWith_lastDeclared_iff`).
-/

namespace Disinherit

/-! ### The two groups of a property -/

namespace Identity

/-- A method or an accessor of the property. -/
def defines (k : PropertyKey) (i : Identity) : Bool :=
  i.kind.onPrototype && i.property == k

/-- Of the methods and accessors of a property those that are written last. -/
def isClosing (i : Identity) : Bool :=
  if i.isStatic then i.kind != .method else i.kind == .method

/-- A method or an accessor of the property that is, or is not, among those written last. -/
def definesIn (k : PropertyKey) (closing : Bool) (i : Identity) : Bool :=
  i.defines k && i.isClosing == closing

variable {k : PropertyKey} {i : Identity} {closing : Bool}

theorem defines_iff : i.defines k = true ↔ i.kind.onPrototype = true ∧ i.property = k := by
  rw [defines, Bool.and_eq_true, beq_iff_eq]

theorem definesIn_iff :
    i.definesIn k closing = true ↔ i.defines k = true ∧ i.isClosing = closing := by
  rw [definesIn, Bool.and_eq_true, beq_iff_eq]

end Identity

/-- The category of a group: accessors close the properties of a class, and methods those of an
instance. -/
def PropertyKey.category (k : PropertyKey) (closing : Bool) : Category :=
  (Identity.mk k.isStatic (if closing = k.isStatic then .getter else .method) k.visibility
    k.name).category

namespace Identity

variable {k : PropertyKey} {i : Identity} {closing : Bool}

theorem category_of_definesIn (h : i.definesIn k closing = true) :
    i.category = k.category closing := by
  obtain ⟨hdefines, rfl⟩ := definesIn_iff.1 h
  obtain ⟨hproto, rfl⟩ := defines_iff.1 hdefines
  obtain ⟨isStatic, kind, visibility, name⟩ := i
  cases kind with
  | method => cases isStatic <;> cases visibility <;> rfl
  | getter => cases isStatic <;> rfl
  | setter => cases isStatic <;> rfl
  | field => cases hproto
  | constructor => cases hproto
  | staticBlock => cases hproto

end Identity

/-- The closing group of a property has the later turn. -/
theorem PropertyKey.idxOf_category_lt (k : PropertyKey) :
    stations.idxOf (some (k.category false)) < stations.idxOf (some (k.category true)) := by
  obtain ⟨isStatic, visibility, name⟩ := k
  cases isStatic <;> cases visibility <;> exact of_decide_eq_true rfl

namespace Member

variable {k : PropertyKey} {m : Member} {closing : Bool}

theorem fits_of_definesIn (h : m.identity.definesIn k closing = true) :
    Members.fits (k.category closing) m = true := by
  obtain ⟨hproto, -⟩ := Identity.defines_iff.1 (Identity.definesIn_iff.1 h).1
  exact Members.fits_iff.2 ⟨MemberKind.ne_constructor_of_onPrototype hproto,
    Identity.category_of_definesIn h⟩

theorem turn_of_definesIn (h : m.identity.definesIn k closing = true) :
    m.turn = stations.idxOf (some (k.category closing)) := by
  have hstation : m.station = some (k.category closing) :=
    of_decide_eq_true ((Members.fits_eq_station _ m).symm.trans (fits_of_definesIn h))
  rw [turn, hstation]

end Member

/-! ### What is left of the declarations -/

/-- The last declaration of all makes room for nothing. -/
theorem getLast?_standing (ms : List Member) : (standing ms).getLast? = ms.getLast? := by
  induction ms with
  | nil => rfl
  | cons m ms ih =>
    rw [standing]
    cases hany : ms.any m.yieldsTo with
    | true =>
      -- `m` makes room for something, which comes after it
      obtain ⟨b, hb, -⟩ := List.any_eq_true.1 hany
      have hne : ms ≠ [] := List.ne_nil_of_mem hb
      rw [if_pos rfl, ih, List.getLast?_cons_of_ne_nil hne]
    | false => rw [if_neg Bool.false_ne_true, List.getLast?_cons, List.getLast?_cons, ih]

namespace Members

/-- Within one category the last declaration of a kind is also the last that is written. -/
theorem getLast?_filter_ofDeclarations {p : Identity → Bool} {c : Category}
    (hp : ∀ m : Member, p m.identity = true → fits c m = true) (ds : List Member) :
    ((ofDeclarations ds).toList.filter fun m => p m.identity).getLast?
      = (ds.filter fun m => p m.identity).getLast? := by
  -- only this category is of interest, and there the declarations stand in their order
  have hcat : ∀ ms : List Member,
      (ms.filter (fits c)).filter (fun m => p m.identity) = ms.filter fun m => p m.identity := by
    intro ms
    rw [List.filter_filter]
    refine List.filter_congr fun m _ => ?_
    cases hm : p m.identity with
    | true => exact hp m hm
    | false => rfl
  have hidentity : ∀ a b : Member, a.identity = b.identity → p a.identity = p b.identity :=
    fun a b h => congrArg p h
  calc ((ofDeclarations ds).toList.filter fun m => p m.identity).getLast?
      = (((ofDeclarations ds).inCategory c).filter fun m => p m.identity).getLast? := by
        rw [← (filed_ofDeclarations ds).filter_fits c, hcat]
    _ = (standing (ds.filter fun m => p m.identity)).getLast? := by
        rw [inCategory_ofDeclarations, hcat, standing_filter hidentity]
    _ = (ds.filter fun m => p m.identity).getLast? := getLast?_standing _

/-- Of the methods and accessors of a property the closing group is written last. -/
theorem Filed.filter_defines {ms : Members} (h : ms.Filed) (k : PropertyKey) :
    (ms.toList.filter fun m => m.identity.defines k)
      = (ms.toList.filter fun m => m.identity.definesIn k false)
        ++ ms.toList.filter fun m => m.identity.definesIn k true := by
  have hopening : (ms.toList.filter fun m => m.identity.defines k).Pairwise
      fun a b => (!b.identity.isClosing) = true → (!a.identity.isClosing) = true := by
    refine (h.pairwise_turn.filter _).imp_of_mem fun {a b} ha hb hturn hopen => ?_
    have hda := (List.mem_filter.1 ha).2
    have hdb := (List.mem_filter.1 hb).2
    cases hclosing : a.identity.isClosing with
    | false => rfl
    | true =>
      -- the turn of `a` would be later than that of `b`
      have hta := Member.turn_of_definesIn (Identity.definesIn_iff.2 ⟨hda, hclosing⟩)
      rw [Bool.not_eq_true'] at hopen
      have htb := Member.turn_of_definesIn (Identity.definesIn_iff.2 ⟨hdb, hopen⟩)
      have hlt := k.idxOf_category_lt
      omega
  -- now the list falls into the two groups, in this order
  rw [← filter_append_filter_not hopening, List.filter_filter, List.filter_filter]
  congr 1
  · refine List.filter_congr fun m _ => ?_
    rw [Identity.definesIn, Bool.and_comm]
    cases m.identity.isClosing <;> rfl
  · refine List.filter_congr fun m _ => ?_
    rw [Identity.definesIn, Bool.and_comm, Bool.not_not]
    cases m.identity.isClosing <;> rfl

/-- What is written last of a property is its last closing declaration, or else its last one. -/
theorem getLast?_filter_defines (ds : List Member) (k : PropertyKey) :
    ((ofDeclarations ds).toList.filter fun m => m.identity.defines k).getLast?
      = (ds.filter fun m => m.identity.definesIn k true).getLast?.or
          (ds.filter fun m => m.identity.definesIn k false).getLast? := by
  rw [(filed_ofDeclarations ds).filter_defines, List.getLast?_append,
    getLast?_filter_ofDeclarations fun m hm => Member.fits_of_definesIn hm,
    getLast?_filter_ofDeclarations fun m hm => Member.fits_of_definesIn hm]

end Members

/-! ### The body of a class -/

namespace Script

variable {s : Script}

/-- The node declares a member with such an identity. -/
def declares (s : Script) (p : Identity → Bool) (n : Node) : Bool :=
  match s.identity? n with
  | .ok (some i) => p i
  | _ => false

theorem declares_of_identity? {p : Identity → Bool} {n : Node} {i : Identity}
    (h : s.identity? n = .ok (some i)) : s.declares p n = p i := by
  rw [declares, h]

theorem not_declares_of_identity? {p : Identity → Bool} {n : Node} (h : s.identity? n = .ok none) :
    s.declares p n = false := by
  rw [declares, h]

theorem identity?_of_comment {n : Node} (h : n.kind = .comment) : s.identity? n = .ok none := by
  rw [identity?, h]

theorem identity?_of_member?_eq_none {owner : String} {leading : List Node} {n : Node}
    (h : s.member? owner leading n = .ok none) : s.identity? n = .ok none := by
  rw [member?, Attempt.bind_eq_ok] at h
  obtain ⟨i?, hi, h⟩ := h
  cases i? with
  | none => exact hi
  | some i =>
    -- with an identity there would have been a member
    obtain ⟨refs, -, h⟩ := Attempt.bind_eq_ok.1 h
    cases Attempt.pure_eq_ok.1 h

/-- Reading the rest of a body passes over no declaration. -/
theorem Reads.map_node {owner : String} {last : Option Member} {waiting items : List Node}
    {ms : List Member} (h : s.Reads owner last waiting items ms) (p : Identity → Bool) :
    (ms.filter fun m => p m.identity).map (·.node)
      = (last.toList.filter fun m => p m.identity).map (·.node)
        ++ items.filter (s.declares p) := by
  induction h with
  | done => rw [List.filter_nil, List.append_nil]
  | @trails _ _ _ _ m _ hk hm _ ih =>
    -- a comment declares nothing, and the member that it belongs to stays what it is
    have hno := not_declares_of_identity? (p := p) (identity?_of_comment (s := s) hk)
    rw [List.filter_cons_of_neg (Bool.eq_false_iff.1 hno)]
    obtain rfl := trailed?_eq_some hm
    rw [ih]
    congr 1
    cases hp : p m.identity <;> simp [hp]
  | waits hk _ _ ih =>
    have hno := not_declares_of_identity? (p := p) (identity?_of_comment (s := s) hk)
    rw [List.filter_cons_of_neg (Bool.eq_false_iff.1 hno)]
    exact ih
  | passes _ hm _ ih =>
    have hno := not_declares_of_identity? (p := p) (identity?_of_member?_eq_none hm)
    rw [List.filter_cons_of_neg (Bool.eq_false_iff.1 hno)]
    exact ih
  | @declares _ _ _ _ m _ _ hm _ ih =>
    -- the declaration counts on both sides, or on neither
    obtain ⟨-, rfl, hrec⟩ := member?_spec hm
    have hdeclares : s.declares p m.node = p m.identity := declares_of_identity? hrec.identity
    rw [List.filter_append, List.map_append, ih, List.filter_cons, hdeclares]
    cases hp : p m.identity <;> simp [hp]

/-- The declarations of a kind are made by the nodes of the body that declare such members. -/
theorem map_node_declarations {owner : String} {items : List Node} {ds : List Member}
    (h : s.declarations owner items = .ok ds) (p : Identity → Bool) :
    (ds.filter fun m => p m.identity).map (·.node) = items.filter (s.declares p) :=
  (declarations_eq_ok_iff.1 h).map_node p

end Script

/-- The last that is written of the methods and accessors of a property is the declaration at that
node. -/
def Members.EndsWith (ms : Members) (k : PropertyKey) (n : Node) : Prop :=
  (ms.toList.findRev? (·.identity.defines k)).map (·.node) = some n

section Body

variable {s : Script} {cls n : Node} {owner : String} {ms : Members} {k : PropertyKey}

/-- The end of a property as it is written, told by the body. -/
theorem map_node_findRev?_membersOf (h : s.membersOf cls owner = .ok ms) (k : PropertyKey) :
    (ms.toList.findRev? (·.identity.defines k)).map (·.node)
      = (cls.bodyItems.findRev? (s.declares (·.definesIn k true))).or
          (cls.bodyItems.findRev? (s.declares (·.definesIn k false))) := by
  obtain ⟨ds, hds, hms⟩ := Attempt.bind_eq_ok.1 h
  obtain rfl := Attempt.pure_eq_ok.1 hms
  have hnodes := Script.map_node_declarations hds
  -- the last one in each of the groups, as declarations and as nodes
  simp only [List.findRev?_eq_find?_reverse, ← List.getLast?_filter]
  rw [← hnodes, ← hnodes, List.getLast?_map, List.getLast?_map, ← Option.map_or]
  exact congrArg _ (Members.getLast?_filter_defines ds k)

/-- The last declaration of a property in the body is among the members. -/
theorem exists_mem_of_lastDeclared (h : s.membersOf cls owner = .ok ms)
    (hlast : cls.bodyItems.findRev? (s.declares (·.defines k)) = some n) :
    ∃ m ∈ ms.toList, m.node = n ∧ m.identity.defines k = true := by
  obtain ⟨ds, hds, hms⟩ := Attempt.bind_eq_ok.1 h
  obtain rfl := Attempt.pure_eq_ok.1 hms
  rw [List.findRev?_eq_find?_reverse, ← List.getLast?_filter, ← Script.map_node_declarations hds,
    List.getLast?_map] at hlast
  obtain ⟨m, hm, rfl⟩ := Option.map_eq_some_iff.1 hlast
  have hdefines : m.identity.defines k = true := (List.mem_filter.1 (List.mem_of_getLast? hm)).2
  -- it makes room for none of the declarations of the property, and so for none at all
  rw [← getLast?_standing, standing_filter fun a b hab => congrArg (Identity.defines k) hab] at hm
  have hstands : m ∈ standing ds := (List.mem_filter.1 (List.mem_of_getLast? hm)).1
  refine ⟨m, ?_, rfl, hdefines⟩
  refine Members.mem_toList.2 (.inl ⟨m.identity.category, ?_⟩)
  rw [Members.inCategory_ofDeclarations]
  have hproto := (Identity.defines_iff.1 hdefines).1
  exact List.mem_filter.2
    ⟨hstands, Members.fits_iff.2 ⟨MemberKind.ne_constructor_of_onPrototype hproto, rfl⟩⟩

/-- A node that declares something of a property does so in one of its groups. -/
theorem Script.declares_defines_iff {k : PropertyKey} :
    s.declares (·.defines k) n = true ↔
      s.declares (·.definesIn k true) n = true ∨ s.declares (·.definesIn k false) n = true := by
  unfold declares
  split
  · next i _ =>
    rw [Identity.definesIn_iff, Identity.definesIn_iff, ← and_or_left]
    cases i.isClosing <;> simp
  · simp

/-- **Which declaration of a property is written last.** It is the last of the closing group, if
that has any, and otherwise the last declaration `n`, which is kept in either case. So `n` stays the
last just if it closes the property itself, or nothing in the body does. -/
theorem endsWith_lastDeclared_iff (h : s.membersOf cls owner = .ok ms)
    (hlast : cls.bodyItems.findRev? (s.declares (·.defines k)) = some n) :
    (∃ m ∈ ms.toList, m.node = n ∧ m.identity.defines k = true) ∧
      ms.EndsWith k ((cls.bodyItems.findRev? (s.declares (·.definesIn k true))).getD n) ∧
      (ms.EndsWith k n ↔
        ((∃ n' ∈ cls.bodyItems, s.declares (·.definesIn k true) n' = true) →
          s.declares (·.definesIn k true) n = true)) := by
  refine ⟨exists_mem_of_lastDeclared h hlast, ?_⟩
  have hdeclares := (findRev?_eq_some_iff_append.1 hlast).1
  unfold Members.EndsWith
  rw [map_node_findRev?_membersOf h k]
  cases hclosing : cls.bodyItems.findRev? (s.declares (·.definesIn k true)) with
  | none =>
    have hno : ∀ n' ∈ cls.bodyItems, ¬ s.declares (·.definesIn k true) n' = true := by
      intro n' hn' hdef
      obtain ⟨n'', hn''⟩ := exists_findRev? hn' hdef
      cases hclosing.symm.trans hn''
    -- without a closing declaration, the last one is the last of the other group
    have hopening := (Script.declares_defines_iff.1 hdeclares).resolve_left
      (hno n (mem_of_findRev? hlast))
    have hend := findRev?_of_imp hlast hopening fun b _ hb =>
      Script.declares_defines_iff.2 (.inr hb)
    rw [hend]
    exact ⟨rfl, fun _ ⟨n', hn', hdef⟩ => absurd hdef (hno n' hn'), fun _ => rfl⟩
  | some n' =>
    have hdef := (findRev?_eq_some_iff_append.1 hclosing).1
    refine ⟨rfl, fun heq _ => ?_, fun himp => ?_⟩
    · -- the group that is written last ends with `n'`
      obtain rfl : n' = n := Option.some.inj heq
      exact hdef
    · -- `n` is in that group itself, and no later declaration of the property is
      have hself := himp ⟨n', mem_of_findRev? hclosing, hdef⟩
      have hend := findRev?_of_imp hlast hself fun b _ hb => Script.declares_defines_iff.2 (.inl hb)
      rw [← hclosing, hend]
      rfl

end Body

/-- A class with a method and after it a getter of the same name. -/
def Node.getterAfterMethod : Node :=
  .shortClass 0 7 23 [] [.shortMethod 8 8 9 13 [] [], .shortMethod 13 17 18 22 [.getWord 13] []]

/-- A class with a getter and after it a method of the same name. -/
def Node.methodAfterGetter : Node :=
  .shortClass 23 30 46 [] [.shortMethod 31 35 36 40 [.getWord 31] [],
    .shortMethod 40 40 41 45 [] []]

/-- Both orders of a method and a getter. -/
def bothOrders : Script where
  source :=
    .ofText ("class A\x7bm()\x7b\x7dget m()\x7b\x7d\x7d"
      ++ "class B\x7bget m()\x7b\x7dm()\x7b\x7d\x7d")
  root := .sound (.other "program") none 0 46 [.getterAfterMethod, .methodAfterGetter]

/-- The method that comes after the getter is the last of its property, and it is written last. -/
theorem endsWith_methodAfterGetter : ∃ ms n,
    bothOrders.membersOf .methodAfterGetter "B" = .ok ms ∧
    Node.methodAfterGetter.bodyItems.findRev? (bothOrders.declares (·.defines ⟨false, .pub, "m"⟩))
      = some n ∧
    n.start = 40 ∧ ms.toList.length = 2 ∧ ms.EndsWith ⟨false, .pub, "m"⟩ n := by
  obtain ⟨ms, hms, hlength⟩ := Attempt.exists_ok (x := bothOrders.membersOf .methodAfterGetter "B")
    (p := fun ms => ms.toList.length == 2) (by decide +kernel)
  obtain ⟨n, hlast, htest⟩ := (Option.any_eq_true
    (fun n => n.start == 40 && bothOrders.declares (·.definesIn ⟨false, .pub, "m"⟩ true) n)
    (Node.methodAfterGetter.bodyItems.findRev?
      (bothOrders.declares (·.defines ⟨false, .pub, "m"⟩)))).1 (by decide +kernel)
  obtain ⟨hstart, hcloses⟩ := Bool.and_eq_true_iff.1 htest
  exact ⟨ms, n, hms, hlast, beq_iff_eq.1 hstart, beq_iff_eq.1 hlength,
    (endsWith_lastDeclared_iff hms hlast).2.2.2 fun _ => hcloses⟩

/-- The getter that comes after the method is the last of its property, but the method is written
last. -/
theorem not_endsWith_getterAfterMethod : ∃ ms n,
    bothOrders.membersOf .getterAfterMethod "A" = .ok ms ∧
    Node.getterAfterMethod.bodyItems.findRev? (bothOrders.declares (·.defines ⟨false, .pub, "m"⟩))
      = some n ∧
    ¬ ms.EndsWith ⟨false, .pub, "m"⟩ n := by
  obtain ⟨ms, hms, hwritten⟩ := Attempt.exists_ok (x := bothOrders.membersOf .getterAfterMethod "A")
    (p := fun ms => (ms.toList.findRev? (·.identity.defines ⟨false, .pub, "m"⟩)).map (·.node.start)
      == some 8) (by decide +kernel)
  obtain ⟨n, hlast, hstart⟩ := (Option.any_eq_true (fun n => n.start == 13)
    (Node.getterAfterMethod.bodyItems.findRev?
      (bothOrders.declares (·.defines ⟨false, .pub, "m"⟩)))).1 (by decide +kernel)
  refine ⟨ms, n, hms, hlast, fun hends => ?_⟩
  -- the two nodes start at different places
  have hstarts := congrArg (Option.map (·.start)) hends
  rw [Option.map_map, Option.map_some, beq_iff_eq.1 hstart] at hstarts
  exact absurd ((beq_iff_eq.1 hwritten).symm.trans hstarts) (by decide)

end Disinherit
