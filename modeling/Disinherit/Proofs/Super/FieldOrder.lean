import Disinherit.Proofs.Super.Account
import Disinherit.Proofs.Super.Chain
import Disinherit.Proofs.Super.Scan

/-!
# Fields that are initialized early

In a chain of classes the constructor of an ancestor runs before the fields of a class get their
initial values. In the flattened class it runs after them. A field whose initial value reads `this`
may therefore see another object than it used to, and resolution warns of it.

An initial value can read `this` in two ways: the word stands in it, or it refers to `super` and the
reference is replaced by `this` and the name of a copy. `WarnsOfOrder` asks for a warning in both
cases. The check that is made looks at the text before any replacement, and so it knows only the
first. `orderWarnings_resolve` says what follows: the warnings are exactly those for the fields with
the word, and they are all that is wanted just if no field is left whose initial value has a
replaced reference alone.

What is read at once is the same for both (`Node.evaluated`). That the list of warnings is right as
a whole is compared field by field, because the list that is given is never longer than the one that
is wanted (`filterMap_eq_filterMap_iff`).
-/

namespace Disinherit

open Progress

/-! ### What is evaluated at once -/

namespace Node

mutual

/-- A node and what is below it, each node before its children, without functions, classes and arrow
functions. -/
def evaluated : Node → List Node
  | n@⟨kind, _, _, _, _, _, _, children⟩ =>
    if kind.isScope || kind == .arrowFunction then [] else n :: evaluatedAll children

/-- The nodes of several trees, without functions, classes and arrow functions. -/
def evaluatedAll : List Node → List Node
  | [] => []
  | n :: ns => n.evaluated ++ evaluatedAll ns

end

theorem evaluatedAll_eq_flatMap (ns : List Node) : evaluatedAll ns = ns.flatMap evaluated := by
  induction ns with
  | nil => rfl
  | cons n ns ih => rw [evaluatedAll, ih, List.flatMap_cons]

theorem evaluated_eq (n : Node) : n.evaluated
    = if n.kind.isScope || n.kind == .arrowFunction then []
      else n :: n.children.flatMap evaluated := by
  rw [← evaluatedAll_eq_flatMap]
  cases n
  rfl

theorem anyEvaluatesThis_eq_any (ns : List Node) : anyEvaluatesThis ns = ns.any evaluatesThis := by
  induction ns with
  | nil => rfl
  | cons n ns ih => rw [anyEvaluatesThis, ih, List.any_cons]

theorem evaluatesThis_eq (n : Node) : n.evaluatesThis
    = if n.kind = .thisKeyword then true
      else if n.kind.isScope || n.kind == .arrowFunction then false
      else n.children.any evaluatesThis := by
  rw [← anyEvaluatesThis_eq_any]
  cases n
  rfl

/-- The search for `this` comes to all that is evaluated at once, and to nothing else. -/
theorem evaluatesThis_eq_any (n : Node) :
    n.evaluatesThis = n.evaluated.any (·.kind == .thisKeyword) := by
  induction n using childInduction with
  | step n ih =>
    rw [evaluatesThis_eq, evaluated_eq]
    by_cases hthis : n.kind = .thisKeyword
    · -- the word itself is neither a function nor a class
      simp [hthis, Kind.isScope]
    · cases hlater : n.kind.isScope || n.kind == .arrowFunction with
      | true => simp [hthis]
      | false =>
        -- neither looks into functions; elsewhere both go on to all children
        have hself : (n.kind == .thisKeyword) = false := beq_eq_false_iff_ne.2 hthis
        simp only [if_neg hthis, Bool.false_eq_true, if_false, List.any_cons, hself, Bool.false_or,
          List.any_flatMap]
        rw [Bool.eq_iff_iff, List.any_eq_true, List.any_eq_true]
        exact exists_congr fun c => and_congr_right fun hc => by rw [ih c hc]

end Node

namespace Member

/-- A field of the instances. -/
def isInstanceField (m : Member) : Bool :=
  m.kind == .field && !m.identity.isStatic

/-- What is evaluated at once when a field gets its initial value. -/
def initialization (m : Member) : List Node :=
  (m.node.child? .value).toList.flatMap Node.evaluated

/-- The word `this` is evaluated when the field gets its initial value. -/
def readsThis (m : Member) : Bool :=
  m.initialization.any (·.kind == .thisKeyword)

/-- A node is evaluated when the field gets its initial value. -/
def evaluates (m : Member) (n : Node) : Bool :=
  m.initialization.any (·.coincides n)

theorem isEagerField_eq (m : Member) : m.isEagerField = (m.isInstanceField && m.readsThis) := by
  unfold isEagerField isInstanceField readsThis initialization
  cases m.node.child? .value with
  | none => rfl
  | some value => simp [Node.evaluatesThis_eq_any]

end Member

/-! ### The first constructor of a chain -/

/-- The most distant constructor of the classes in front of `owner`. -/
def firstConstructor? (chain : List ClassDecl) (owner : String) : Option Member :=
  (chain.takeWhile (·.name != owner)).findSome? (·.members.constructor)

section Chain

variable {s : Script} {r : Registry} {target : String} {above below : List ClassDecl}
    {d : ClassDecl}

/-- The classes in front of a class are those that come before its name. -/
theorem takeWhile_name_ne (hchain : r.ancestry target = above ++ d :: below) :
    (r.ancestry target).takeWhile (·.name != d.name) = above := by
  have hnodup := r.nodup_ancestry target
  rw [hchain, List.map_append, List.map_cons] at hnodup
  -- names occur once in an ancestry, so that none above `d` is its name
  have hnew : ∀ e ∈ above, (e.name != d.name) = true := fun e he => bne_iff_ne.2 fun heq =>
    (List.nodup_append.1 hnodup).2.2 e.name (List.mem_map_of_mem he) d.name List.mem_cons_self heq
  rw [hchain, List.takeWhile_append_of_pos hnew, List.takeWhile_cons_of_neg (by simp),
    List.append_nil]

/-- **The constructor that used to run first** is the most distant of those in front of the field's
class. -/
theorem earlierConstructor?_eq (hr : s.registry = .ok r) {m : Member} (hd : d ∈ r.ancestry target)
    (hm : m ∈ d.members.toList) :
    earlierConstructor? (r.lineage target) m = firstConstructor? (r.ancestry target) m.owner := by
  obtain ⟨above, below, hchain⟩ := List.append_of_mem hd
  have hreg : ∀ e ∈ above ++ d :: below, s.Registers e := fun e he =>
    Script.registers_of_ancestry hr (hchain ▸ he)
  have howner : ∀ e ∈ above ++ d :: below, ∀ c, e.members.constructor = some c → c.owner = e.name :=
    fun e he c hc => (hreg e he).owner_eq (Members.mem_toList.2 (.inr hc))
  have hname : m.owner = d.name := (Script.registers_of_ancestry hr hd).owner_eq hm
  rw [hname, firstConstructor?, takeWhile_name_ne hchain, ← List.head?_filterMap,
    earlierConstructor?, hname, generation?_eq hchain]
  -- the class splits the constructors as it splits the chain
  simp only [constructors_lineage hr, hchain, List.filterMap_append]
  apply find?_append_eq_head?
  · intro c hc
    obtain ⟨e, he, hc⟩ := List.mem_filterMap.1 hc
    rw [howner e (List.mem_append_left _ he) c hc]
    exact isBefore_of_mem_above hchain he
  · intro c hc
    obtain ⟨e, he, hc⟩ := List.mem_filterMap.1 hc
    rw [howner e (List.mem_append_right _ he) c hc]
    exact isBefore_of_mem_below hchain he

end Chain

/-! ### Warnings -/

/-- The warning about a field, given whether its initial value reads `this`. There is one if a class
in front of its own has a constructor, and it names the first of these. -/
def Script.orderWarning? (s : Script) (chain : List ClassDecl) (target : String) (reads : Bool)
    (m : Member) : Option Diagnostic :=
  if m.isInstanceField && reads then
    (firstConstructor? chain m.owner).map fun base =>
      .located (s.position m.node) .fieldInitializationOrder [target, m.owner, base.owner]
        ("initializer of " ++ m.label ++ " reads this and now runs before " ++ base.owner
          ++ ".constructor")
  else none

/-- The initial value of a field reads `this` as it is written out: the word is evaluated, or a
super reference that is replaced by `this` and the name of a copy. -/
def Resolution.readsThis (c : Resolution) (x : Excerpt) : Bool :=
  x.member.readsThis || (x.member.node.superSites x.member.nameNode?).any fun site =>
    x.member.evaluates site.node && x.edits.any (c.redirects site.node)

/-- One warning for each field whose initial value reads `this` as it is written out. -/
def Resolution.orderWarnings (s : Script) (chain : List ClassDecl) (c : Resolution) :
    List Diagnostic :=
  c.members.filterMap fun x => s.orderWarning? chain c.target (c.readsThis x) x.member

/-- There is one warning for each field whose initial value now reads `this` too early, and no
other. -/
def WarnsOfOrder (s : Script) (chain : List ClassDecl) (c : Resolution) : Prop :=
  Diagnostic.ofKind .fieldInitializationOrder c.diagnostics = c.orderWarnings s chain

/-- A reference is evaluated when the field gets its initial value, and it leads to a copy. -/
def Lineage.ReadsCopy (l : Lineage) (m : Member) : Prop :=
  ∃ ref ∈ m.references, m.evaluates ref.node = true ∧ (l.verdict m ref).isCopy = true

namespace Script

variable {s : Script} {r : Registry} {target : String}

theorem orderWarning?_of_not_reads (chain : List ClassDecl) (m : Member) :
    s.orderWarning? chain target false m = none := by
  rw [orderWarning?, Bool.and_false, if_neg Bool.false_ne_true]

theorem orderWarning?_of_firstConstructor? {chain : List ClassDecl} {m : Member} {reads : Bool}
    (h : firstConstructor? chain m.owner = none) : s.orderWarning? chain target reads m = none := by
  rw [orderWarning?, h, Option.map_none, ite_self]

/-- Whether the initial value reads `this` matters for an instance field below a constructor, and
for no other member. -/
theorem orderWarning?_eq_iff {chain : List ClassDecl} {m : Member} {reads reads' : Bool}
    (hle : reads = true → reads' = true) :
    s.orderWarning? chain target reads m = s.orderWarning? chain target reads' m ↔
      (m.isInstanceField = true → (firstConstructor? chain m.owner).isSome = true → reads' = true →
        reads = true) := by
  cases reads with
  | true => simp [hle rfl]
  | false =>
    cases reads' with
    | false => simp
    | true =>
      -- only the second reads `this`, and it makes a warning unless something else forbids
      rw [orderWarning?_of_not_reads, orderWarning?, Bool.and_true]
      cases m.isInstanceField with
      | false => simp
      | true => cases firstConstructor? chain m.owner <;> simp

/-- A class that is alone in its chain has no constructor in front of it. -/
theorem firstConstructor?_of_alone (hr : s.registry = .ok r) {d : ClassDecl}
    (halone : r.ancestry target = [d]) {m : Member} (hm : m ∈ (r.lineage target).members.toList) :
    firstConstructor? (r.ancestry target) m.owner = none := by
  obtain ⟨e, he, hme⟩ := exists_of_mem_lineage hr hm
  have howner := (registers_of_ancestry hr he).owner_eq hme
  rw [halone, List.mem_singleton] at he
  -- nothing comes before the only class of the chain
  rw [firstConstructor?, howner, he,
    takeWhile_name_ne (show r.ancestry target = [] ++ d :: [] from halone)]
  rfl

/-- The findings on fields are the warnings about the word `this`. -/
theorem fieldOrderFindings_eq (hr : s.registry = .ok r) : fieldOrderFindings s (r.lineage target)
    = (r.lineage target).members.toList.filterMap fun m =>
        s.orderWarning? (r.ancestry target) target m.readsThis m := by
  refine List.filterMap_congr fun m hm => ?_
  obtain ⟨d, hd, hmd⟩ := exists_of_mem_lineage hr hm
  rw [fieldOrderFinding?, orderWarning?, m.isEagerField_eq, earlierConstructor?_eq hr hd hmd]
  rfl

end Script

section Lineage

variable {s : Script} {r : Registry} {target : String} {p : Progress} {names : List String}
  {c : Resolution}

/-- Resolution itself reports unresolved references only. -/
theorem Outcome.ofKind_diagnostics {l : Lineage} (h : Outcome s l p names c) :
    Diagnostic.ofKind .fieldInitializationOrder c.diagnostics = fieldOrderFindings s l := by
  -- all that was reported on the way is of the other kind
  have hreports : p.diagnostics.filter (·.kind == .fieldInitializationOrder) = [] := by
    refine List.filter_eq_nil_iff.2 fun d hd hkind => ?_
    have hspot : spot d ∈ p.reported.map (reportSpot s) := by
      rw [← h.valid.diagnostics]
      exact List.mem_map_of_mem hd
    obtain ⟨offset, -, hspot⟩ := List.mem_map.1 hspot
    have hother : DiagnosticKind.unresolvedSuperCall = d.kind := (Prod.mk.inj hspot).1
    rw [← hother] at hkind
    cases hkind
  rw [Diagnostic.ofKind, h.diagnostics, List.filter_append, hreports, List.nil_append]
  exact List.filter_eq_self.2 fun d hd => beq_iff_eq.2 (kind_of_mem_fieldOrderFindings hd)

/-- A reference in a member is redirected there exactly if it leads to a copy. -/
theorem Outcome.any_redirects_iff {l : Lineage} (h : Outcome s l p names c) {m : Member}
    (hspan : Script.ReferencesSpan m) (hsettles : p.SettlesAll l m) {ref : SuperReference}
    (href : ref ∈ m.references) :
    (p.referenceEdits l m).any (c.redirects ref.node) = true ↔ (l.verdict m ref).isCopy = true := by
  constructor
  · intro hany
    obtain ⟨e, he, hredirects⟩ := List.any_eq_true.1 hany
    obtain ⟨ref', href', hedit⟩ := List.mem_filterMap.1 he
    unfold editFor? at hedit
    split at hedit
    · next entry hv =>
      obtain ⟨name, -, rfl⟩ := Option.map_eq_some_iff.1 hedit
      -- the edit starts where `ref` does, and so it is the edit for `ref`
      have hsame := hspan.eq_of_start_eq href' href (Resolution.redirects_iff.1 hredirects).1
      rw [← hsame, hv]
      rfl
    · cases hedit
  · intro hcopy
    have hsettled := hsettles ref href
    cases hv : l.verdict m ref with
    | construction => rw [hv] at hcopy; cases hcopy
    | unresolved why => rw [hv] at hcopy; cases hcopy
    | copy entry =>
      -- the copy was made when the reference was settled, and the edit bears its name
      simp only [Settles, hv] at hsettled
      obtain ⟨name, hname⟩ := Option.isSome_iff_exists.1 hsettled
      obtain ⟨-, y, hy, hrename, -⟩ := h.valid.copyOf?_eq_some hname
      refine List.any_eq_true.2 ⟨⟨ref.node.start, ref.node.stop, "this." ++ name⟩, ?_, ?_⟩
      · refine List.mem_filterMap.2 ⟨ref, href, ?_⟩
        simp only [editFor?, hv, hname, Option.map_some]
      · exact Resolution.redirects_iff.2 ⟨rfl, rfl, y, h.copies ▸ hy, name, hrename, rfl⟩

/-- What a field reads as it is written out, told from the chain: the word `this`, or a copy. -/
theorem Outcome.readsThis_iff (hr : s.registry = .ok r) (hroot : s.root.WellSpanned)
    (h : Outcome s (r.lineage target) p names c) {m : Member}
    (hm : m ∈ (r.lineage target).members.toList) (hfield : m.kind ≠ .constructor) :
    c.readsThis (p.memberExcerpt (r.lineage target) m) = true ↔
      m.readsThis = true ∨ (r.lineage target).ReadsCopy m := by
  obtain ⟨d, hd, hmd⟩ := exists_of_mem_lineage hr hm
  have hspan := referencesSpan_of_mem hr hroot hd hmd
  have hsettles : p.SettlesAll (r.lineage target) m :=
    h.settles m (List.mem_append_left _ (List.mem_filter.2 ⟨hm, by simpa using hfield⟩))
  have hedits : (p.memberExcerpt (r.lineage target) m).edits
      = p.referenceEdits (r.lineage target) m := by
    rw [memberExcerpt, if_neg hfield]
  rw [Resolution.readsThis, Bool.or_eq_true, hedits]
  refine or_congr_right ?_
  -- what was found in the member and what was read of it are the same nodes
  rw [List.any_eq_true]
  constructor
  · rintro ⟨site, hsite, hreads⟩
    obtain ⟨heval, hredirects⟩ := Bool.and_eq_true_iff.1 hreads
    obtain ⟨ref, href, hnode⟩ := hspan.exists_reference hsite
    rw [← hnode] at heval hredirects
    exact ⟨ref, href, heval, (h.any_redirects_iff hspan hsettles href).1 hredirects⟩
  · rintro ⟨ref, href, heval, hcopy⟩
    obtain ⟨site, hsite, hnode⟩ := hspan.exists_site href
    refine ⟨site, hsite, Bool.and_eq_true_iff.2 ?_⟩
    rw [hnode]
    exact ⟨heval, (h.any_redirects_iff hspan hsettles href).2 hcopy⟩

theorem Outcome.orderWarnings_eq (h : Outcome s (r.lineage target) p names c)
    (chain : List ClassDecl) (htarget : c.target = target) : c.orderWarnings s chain
    = (r.lineage target).members.toList.filterMap fun m =>
        s.orderWarning? chain target (c.readsThis (p.memberExcerpt (r.lineage target) m)) m := by
  rw [Resolution.orderWarnings, h.members, List.filterMap_map, htarget]
  rfl

theorem target_resolve (s : Script) (l : Lineage) : (s.resolve l).target = l.target := by
  unfold Script.resolve
  split <;> rfl

/-- The warnings that are given, those that are wanted, and when they are the same. -/
structure OrderWarnings (s : Script) (l : Lineage) (c : Resolution) : Prop where
  /-- A warning is given for each field that has the word `this`. -/
  given : Diagnostic.ofKind .fieldInitializationOrder c.diagnostics
    = l.members.toList.filterMap fun m => s.orderWarning? l.ancestry l.target m.readsThis m
  /-- None of them is given without need. -/
  wanted : (Diagnostic.ofKind .fieldInitializationOrder c.diagnostics).Sublist
    (c.orderWarnings s l.ancestry)
  /-- None is missing just if every field that reads a copy has the word too. -/
  complete : WarnsOfOrder s l.ancestry c ↔ ∀ m ∈ l.members.toList, m.isInstanceField = true →
    (firstConstructor? l.ancestry m.owner).isSome = true → l.ReadsCopy m → m.readsThis = true

theorem Outcome.orderWarnings (hr : s.registry = .ok r) (hroot : s.root.WellSpanned)
    (h : Outcome s (r.lineage target) p names c) (htarget : c.target = target) :
    OrderWarnings s (r.lineage target) c := by
  have hgiven := h.ofKind_diagnostics.trans (Script.fieldOrderFindings_eq hr)
  have hwanted := h.orderWarnings_eq (r.ancestry target) htarget
  -- as it is written out, a field reads `this` at least where the word stands
  have hmore : ∀ m : Member, m.readsThis = true →
      c.readsThis (p.memberExcerpt (r.lineage target) m) = true := fun m hreads =>
    Bool.or_eq_true_iff.2 (.inl hreads)
  have hle : ∀ m ∈ (r.lineage target).members.toList,
      s.orderWarning? (r.ancestry target) target m.readsThis m = none ∨
        s.orderWarning? (r.ancestry target) target m.readsThis m
          = s.orderWarning? (r.ancestry target) target
              (c.readsThis (p.memberExcerpt (r.lineage target) m)) m := by
    intro m _
    cases hreads : m.readsThis with
    | false => exact .inl (Script.orderWarning?_of_not_reads _ m)
    | true => exact .inr (by rw [hmore m hreads])
  refine ⟨hgiven, ?_, ?_⟩
  · show (Diagnostic.ofKind _ _).Sublist (c.orderWarnings s (r.ancestry target))
    rw [hgiven, hwanted]
    exact filterMap_sublist_filterMap hle
  · show Diagnostic.ofKind _ _ = c.orderWarnings s (r.ancestry target) ↔ _
    rw [hgiven, hwanted, filterMap_eq_filterMap_iff hle]
    refine forall₂_congr fun m hm => ?_
    rw [Script.orderWarning?_eq_iff (hmore m)]
    refine forall₂_congr fun hfield _ => ?_
    have hkind : m.kind ≠ .constructor := by
      intro hk
      simp [Member.isInstanceField, hk] at hfield
    -- a field with the word is warned of anyway, so that only the copies are left
    rw [h.readsThis_iff hr hroot hm hkind]
    exact ⟨fun hall hcopy => hall (.inr hcopy), fun hall hreads => hreads.elim id hall⟩

/-- A class that stands alone is not warned of, and need not be. -/
theorem orderWarnings_of_not_isActive (hr : s.registry = .ok r)
    (hactive : ¬ (r.lineage target).isActive = true) :
    OrderWarnings s (r.lineage target) (s.resolve (r.lineage target)) := by
  obtain ⟨d, halone, -⟩ := not_not.1 (mt Lineage.isActive_iff.2 hactive)
  -- nothing is above the class, and so there is nothing to warn of in either list
  have hfirst : ∀ m ∈ (r.lineage target).members.toList,
      firstConstructor? (r.lineage target).ancestry m.owner = none := fun m hm =>
    Script.firstConstructor?_of_alone hr halone hm
  have hgiven : (s.resolve (r.lineage target)).diagnostics = [] :=
    (resolve_of_not_isActive (Bool.eq_false_iff.2 hactive)).2.2.1
  have hwanted : (s.resolve (r.lineage target)).orderWarnings s (r.lineage target).ancestry
      = [] := by
    refine List.filterMap_eq_nil_iff.2 fun x hx => Script.orderWarning?_of_firstConstructor? ?_
    rw [Script.resolve, if_neg hactive] at hx
    obtain ⟨m, hm, rfl⟩ := List.mem_map.1 hx
    exact hfirst m hm
  refine ⟨?_, ?_, ?_⟩
  · -- no warning is given, and none is due
    rw [hgiven]
    exact (List.filterMap_eq_nil_iff.2 fun m hm =>
      Script.orderWarning?_of_firstConstructor? (hfirst m hm)).symm
  · rw [hgiven]
    exact List.nil_sublist _
  · rw [WarnsOfOrder, hgiven, hwanted]
    refine iff_of_true rfl fun m hm _ hsome => ?_
    rw [hfirst m hm] at hsome
    cases hsome

/-- **The warnings about fields are those about the word `this`**, in every class. They are all that
is wanted just if no field below a constructor reads a copy alone. -/
theorem orderWarnings_resolve (hr : s.registry = .ok r) (hroot : s.root.WellSpanned)
    (target : String) : OrderWarnings s (r.lineage target) (s.resolve (r.lineage target)) := by
  by_cases hactive : (r.lineage target).isActive = true
  · obtain ⟨p, names, h⟩ := exists_outcome s hactive
    exact h.orderWarnings hr hroot (target_resolve s _)
  · exact orderWarnings_of_not_isActive hr hactive

end Lineage

/-! ### Fields below a constructor -/

/-- A field with a name of one letter and an initial value. -/
def Node.initializedField (start : Nat) (value : Node) : Node :=
  .sound .fieldDefinition (some (.other "member")) start value.stop
    [.sound .propertyIdentifier (some .property) start (start + 1) [], value]

/-- A class `A` with a constructor and a method `m`, and two that extend it: `B` with the fields
`f=this` and `h=()=>super.m`, and `C` with the field `g=super.m`. -/
def earlyFields : Script where
  source := .ofText ("class A\x7bconstructor()\x7b\x7dm()\x7b\x7d\x7d"
    ++ "class B extends A\x7bf=this;h=()=>super.m\x7d" ++ "class C extends A\x7bg=super.m\x7d")
  root := .sound (.other "program") none 0 96
    [.shortClass 0 7 29 [] [.shortMethod 8 8 19 23 [] [], .shortMethod 23 23 24 28 [] []],
      .shortClass 29 46 68 [.shortHeritage 37]
        [.initializedField 47 (.sound .thisKeyword (some .value) 49 53 []),
          .initializedField 54 (.sound .arrowFunction (some .value) 56 67
            [.shortReference (some .body) 60])],
      .shortClass 68 85 96 [.shortHeritage 76]
        [.initializedField 86 (.shortReference (some .value) 88)]]

/-- In the class `B` the field `f` is warned of. The reference in `h` is replaced too, but it
waits. -/
theorem orderWarnings_earlyFields :
    ∃ r, earlyFields.registry = .ok r ∧ earlyFields.root.WellSpanned ∧
    (earlyFields.resolve (r.lineage "B")).members.map
        (fun x => (x.member.name, x.edits.map (·.text)))
      = [("f", []), ("h", ["this._super_A_m"]), ("constructor", []), ("m", [])] ∧
    (earlyFields.resolve (r.lineage "B")).diagnostics.map (fun d => (d.classes, d.message))
      = [(["B", "B", "A"], "initializer of B.f reads this and now runs before A.constructor")] ∧
    WarnsOfOrder earlyFields (r.ancestry "B") (earlyFields.resolve (r.lineage "B")) ∧
    OrderWarnings earlyFields (r.lineage "B") (earlyFields.resolve (r.lineage "B")) := by
  have hroot : earlyFields.root.WellSpanned := by decide +kernel
  obtain ⟨r, hr, htest⟩ := Script.exists_registry (s := earlyFields)
    (p := fun r =>
      (earlyFields.resolve (r.lineage "B")).members.map
        (fun x => (x.member.name, x.edits.map (·.text)))
        == [("f", []), ("h", ["this._super_A_m"]), ("constructor", []), ("m", [])] &&
      (earlyFields.resolve (r.lineage "B")).diagnostics.map (fun d => (d.classes, d.message))
        == [(["B", "B", "A"], "initializer of B.f reads this and now runs before A.constructor")] &&
      Diagnostic.ofKind .fieldInitializationOrder (earlyFields.resolve (r.lineage "B")).diagnostics
        == (earlyFields.resolve (r.lineage "B")).orderWarnings earlyFields (r.ancestry "B"))
    (by decide +kernel)
  simp only [Bool.and_eq_true, beq_iff_eq] at htest
  obtain ⟨⟨htexts, hdiagnostics⟩, hwarns⟩ := htest
  exact ⟨r, hr, hroot, htexts, hdiagnostics, hwarns, orderWarnings_resolve hr hroot "B"⟩

/-- In the class `C` the reference of the field `g` is replaced by one to `this`, and there is no
warning. -/
theorem not_warnsOfOrder_earlyFields :
    ∃ r, earlyFields.registry = .ok r ∧ earlyFields.root.WellSpanned ∧
    (earlyFields.resolve (r.lineage "C")).members.map
        (fun x => (x.member.name, x.edits.map (·.text)))
      = [("g", ["this._super_A_m"]), ("constructor", []), ("m", [])] ∧
    (earlyFields.resolve (r.lineage "C")).diagnostics = [] ∧
    ((earlyFields.resolve (r.lineage "C")).orderWarnings earlyFields (r.ancestry "C")).map
        (·.classes)
      = [["C", "C", "A"]] ∧
    ¬ WarnsOfOrder earlyFields (r.ancestry "C") (earlyFields.resolve (r.lineage "C")) := by
  obtain ⟨r, hr, htest⟩ := Script.exists_registry (s := earlyFields)
    (p := fun r =>
      (earlyFields.resolve (r.lineage "C")).members.map
        (fun x => (x.member.name, x.edits.map (·.text)))
        == [("g", ["this._super_A_m"]), ("constructor", []), ("m", [])] &&
      (earlyFields.resolve (r.lineage "C")).diagnostics == [] &&
      ((earlyFields.resolve (r.lineage "C")).orderWarnings earlyFields (r.ancestry "C")).map
        (·.classes)
        == [["C", "C", "A"]]) (by decide +kernel)
  simp only [Bool.and_eq_true, beq_iff_eq] at htest
  obtain ⟨⟨htexts, hdiagnostics⟩, hwanted⟩ := htest
  refine ⟨r, hr, by decide +kernel, htexts, hdiagnostics, hwanted, fun hwarns => ?_⟩
  rw [WarnsOfOrder, hdiagnostics] at hwarns
  rw [← hwarns] at hwanted
  cases hwanted

end Disinherit
