import Disinherit.Proofs.Super.Names
import Disinherit.Super.Copies

/-!
# Names are given once, and no two alike

All names of a flattened class come from one `Progress`. A request is an owner with one of its
properties, `Progress.grantAll` answers requests one after the other, and the answers make up a list
of grants.

`Allocates` says what holds of such a list, whatever the requests: the same request is always
answered by the same name, different requests on one side by different names, no member of the
lineage has a name that is given, and a request that is new gets the first name not in use among
`base`, `base_2`, `base_3` and so on.

The first choices alone would not do: `A` with `x_y` and `A_x` with `y` share theirs, a number at
the end may be part of another first choice, and a class may declare any name itself. So the
argument is about what is taken. `Keeps` ties a table of names to the grants made so far,
`Keeps.grant` is the step and `keeps_grantAll` the run.
-/

namespace Disinherit

/-! ### Grants -/

/-- A name that was given to a property of an owner. -/
structure Grant where
  owner : String
  property : PropertyKey
  name : String

/-- What was asked for. -/
def Grant.request (g : Grant) : String × PropertyKey :=
  (g.owner, g.property)

/-- Answers requests for names, one after the other. -/
def Progress.grantAll (target : String) :
    List (String × PropertyKey) → Progress → List Grant × Progress
  | [], p => ([], p)
  | (owner, property) :: rest, p =>
    let granted := p.grant target owner property
    let others := grantAll target rest granted.2
    (⟨owner, property, granted.1⟩ :: others.1, others.2)

/-- The name is in use on a side, static or not: a member of the lineage has it, or it was given
before. Static blocks have no names. -/
def InUse (l : Lineage) (before : List Grant) (isStatic : Bool) (name : String) : Prop :=
  (∃ m ∈ l.members.toList, m.kind ≠ .staticBlock ∧ m.identity.isStatic = isStatic ∧ m.name = name) ∨
    ∃ g ∈ before, g.property.isStatic = isStatic ∧ g.name = name

/-- A grant gives the first of the choices that is not in use. It is found after no more steps than
there are members and grants. -/
def Grant.IsFirst (l : Lineage) (before : List Grant) (g : Grant) : Prop :=
  ∃ k, g.name = candidate (copyName g.owner g.property.name) k ∧
    ¬ InUse l before g.property.isStatic g.name ∧
    (∀ j < k, InUse l before g.property.isStatic (candidate (copyName g.owner g.property.name) j)) ∧
    k ≤ l.members.toList.length + before.length

/-- The requests are answered, and the names are given once and no two alike. -/
structure Allocates (l : Lineage) (requests : List (String × PropertyKey)) (grants : List Grant) :
    Prop where
  answered : grants.map (·.request) = requests
  /-- The same request has the same answer. -/
  stable : ∀ g ∈ grants, ∀ g' ∈ grants, g.request = g'.request → g.name = g'.name
  /-- Different requests on one side have different answers. -/
  distinct : ∀ g ∈ grants, ∀ g' ∈ grants, g.request ≠ g'.request →
    g.property.isStatic = g'.property.isStatic → g.name ≠ g'.name
  /-- No member of the lineage has a name that is given on its side. -/
  undeclared : ∀ g ∈ grants, ∀ m ∈ l.members.toList, (m.kind = .staticBlock → m.name = "") →
    m.identity.isStatic = g.property.isStatic → m.name ≠ g.name
  /-- A new request gets the first choice that is not in use. -/
  first : ∀ before g after, grants = before ++ g :: after → g.request ∉ before.map (·.request) →
    g.IsFirst l before

/-! ### The table and the grants -/

variable {l : Lineage} {before : List Grant} {t : NameTable}

/-- The table of names holds exactly the grants made so far. -/
structure Keeps (l : Lineage) (before : List Grant) (t : NameTable) : Prop where
  valid : t.Valid
  reserves : t.Reserves l.members.toList
  granted : ∀ owner property name,
    t.granted.get? (owner, property) = some name ↔ ⟨owner, property, name⟩ ∈ before
  taken : ∀ isStatic name, (isStatic, name) ∈ t.taken ↔ InUse l before isStatic name
  length : t.taken.length ≤ l.members.toList.length + before.length

theorem keeps_start (l : Lineage) : Keeps l [] (Progress.start l).names where
  valid := NameTable.valid_ofMembers _
  reserves := NameTable.reserves_ofMembers _
  granted owner property name := by
    refine ⟨fun h => ?_, fun h => ?_⟩
    · cases h
    · cases h
  taken isStatic name := by
    simp [Progress.start, NameTable.ofMembers, InUse, and_assoc]
  length := by
    rw [Progress.start, NameTable.ofMembers, List.length_map]
    exact List.length_filter_le _ _

/-- A name is in use after a grant if it was before, or if it is the one that was given. -/
theorem inUse_concat {g : Grant} {isStatic : Bool} {name : String} :
    InUse l (before ++ [g]) isStatic name ↔
      InUse l before isStatic name ∨ (g.property.isStatic = isStatic ∧ g.name = name) := by
  simp only [InUse, List.mem_append, List.mem_singleton]
  constructor
  · rintro (hm | ⟨g', hg' | rfl, hg⟩)
    · exact .inl (.inl hm)
    · exact .inl (.inr ⟨g', hg', hg⟩)
    · exact .inr hg
  · rintro ((hm | ⟨g', hg', hg⟩) | hg)
    · exact .inl hm
    · exact .inr ⟨g', .inl hg', hg⟩
    · exact .inr ⟨g, .inr rfl, hg⟩

namespace Keeps

variable {owner : String} {property : PropertyKey}

/-- A request that was answered before is answered alike, and nothing changes. -/
theorem grant_of_some (h : Keeps l before t) {name : String}
    (hname : t.granted.get? (owner, property) = some name) :
    Keeps l (before ++ [⟨owner, property, (t.grant owner property).1⟩])
      (t.grant owner property).2 := by
  -- the request has been made before, and it gets the same answer without a new name
  have hold : ⟨owner, property, name⟩ ∈ before := (h.granted owner property name).1 hname
  have hgrant : t.grant owner property = (name, t) := by rw [NameTable.grant, hname]
  rw [hgrant]
  constructor
  case valid => exact h.valid
  case reserves => exact h.reserves
  case granted =>
    intro o k n
    rw [h.granted, List.mem_append, List.mem_singleton]
    refine ⟨.inl, fun hg => ?_⟩
    rcases hg with hg | hg
    · exact hg
    · exact hg ▸ hold
  case taken =>
    intro isStatic n
    rw [h.taken, inUse_concat]
    refine ⟨.inl, fun hn => ?_⟩
    rcases hn with hn | ⟨rfl, rfl⟩
    · exact hn
    · exact .inr ⟨_, hold, rfl, rfl⟩
  case length =>
    have hlength := h.length
    simp only [List.length_append]
    omega

/-- What a new request is answered. -/
theorem isFirst_of_none (h : Keeps l before t) (hnone : t.granted.get? (owner, property) = none) :
    Grant.IsFirst l before ⟨owner, property, (t.grant owner property).1⟩ := by
  obtain ⟨k, -, hfirst, hfree, hbound, hpassed⟩ :=
    firstFree_eq_candidate (copyName owner property.name) (t.takenAs property.isStatic) 0
  -- what is taken on the side of the property is what is in use there
  have huse : ∀ name, name ∈ t.takenAs property.isStatic ↔ InUse l before property.isStatic name :=
    fun name => NameTable.mem_takenAs.trans (h.taken _ _)
  have hlength : (t.takenAs property.isStatic).length ≤ t.taken.length := by
    rw [NameTable.takenAs, List.length_map]
    exact List.length_filter_le _ _
  have hbound' := h.length
  rw [NameTable.grant, hnone]
  refine ⟨k, hfirst, ?_, fun j hj => ?_, ?_⟩
  · rw [← huse]
    exact firstFree_notMem _ _ _
  · rw [← huse]
    exact hpassed j (Nat.zero_le j) hj
  · omega

/-- A new request takes a name that was not in use. -/
theorem grant_of_none (h : Keeps l before t) (hnone : t.granted.get? (owner, property) = none) :
    Keeps l (before ++ [⟨owner, property, (t.grant owner property).1⟩])
      (t.grant owner property).2 := by
  have hvalid : (t.grant owner property).2.Valid := h.valid.grant
  have hreserves : (t.grant owner property).2.Reserves l.members.toList := h.reserves.grant
  rw [NameTable.grant, hnone] at hvalid hreserves ⊢
  simp only at hvalid hreserves ⊢
  constructor
  case valid => exact hvalid
  case reserves => exact hreserves
  case granted =>
    intro o k n
    rw [Table.get?_put, List.mem_append, List.mem_singleton, Grant.mk.injEq]
    split
    · next heq =>
      obtain ⟨rfl, rfl⟩ := Prod.mk.inj heq
      -- there was no grant for the request before
      have hnew : ⟨o, k, n⟩ ∉ before := by
        rw [← h.granted, hnone]
        exact fun hn => by cases hn
      simp [hnew, eq_comm]
    · next hne =>
      rw [h.granted]
      refine ⟨.inl, fun hg => hg.resolve_right ?_⟩
      rintro ⟨rfl, rfl, -⟩
      exact hne rfl
  case taken =>
    intro isStatic n
    rw [inUse_concat, List.mem_append, List.mem_singleton, h.taken, Prod.mk.injEq]
    exact or_congr_right (and_congr eq_comm eq_comm)
  case length =>
    have := h.length
    simp only [List.length_append, List.length_singleton]
    omega

/-- **The step.** A request is answered, and the table goes on to hold exactly the grants. -/
theorem grant (h : Keeps l before t) (owner : String) (property : PropertyKey) :
    Keeps l (before ++ [⟨owner, property, (t.grant owner property).1⟩]) (t.grant owner property).2 ∧
      ((owner, property) ∉ before.map (·.request) →
        Grant.IsFirst l before ⟨owner, property, (t.grant owner property).1⟩) := by
  cases hget : t.granted.get? (owner, property) with
  | some name =>
    -- a name in the table comes from an earlier request of the same kind
    refine ⟨h.grant_of_some hget, fun hnew => absurd ?_ hnew⟩
    exact List.mem_map.2 ⟨_, (h.granted owner property name).1 hget, rfl⟩
  | none => exact ⟨h.grant_of_none hget, fun _ => h.isFirst_of_none hget⟩

end Keeps

/-! ### Runs -/

/-- **The run.** By induction on the requests, each answered at a progress that holds the grants
before it. -/
theorem keeps_grantAll (target : String) (requests : List (String × PropertyKey)) {p : Progress}
    (h : Keeps l before p.names) :
    Keeps l (before ++ (p.grantAll target requests).1) (p.grantAll target requests).2.names ∧
      (p.grantAll target requests).1.map (·.request) = requests ∧
      ∀ done g rest, (p.grantAll target requests).1 = done ++ g :: rest →
        g.request ∉ (before ++ done).map (·.request) → g.IsFirst l (before ++ done) := by
  induction requests generalizing before p with
  | nil =>
    refine ⟨?_, rfl, fun done g rest hsplit => ?_⟩
    · rw [Progress.grantAll, List.append_nil]
      exact h
    · exact absurd hsplit (by simp [Progress.grantAll])
  | cons request requests ih =>
    obtain ⟨owner, property⟩ := request
    obtain ⟨hkeeps, hfirst⟩ := h.grant owner property
    -- the rest of the requests is answered at the progress after the first
    change Keeps l _ (p.grant target owner property).2.names at hkeeps
    obtain ⟨hrun, hrequests, hlater⟩ := ih hkeeps
    rw [Progress.grantAll]
    refine ⟨?_, ?_, fun done g rest hsplit hnew => ?_⟩
    · rw [List.append_assoc] at hrun
      exact hrun
    · rw [List.map_cons, hrequests]
      rfl
    · cases done with
      | nil =>
        -- the first grant is made at the start
        obtain ⟨rfl, -⟩ := List.cons.inj hsplit
        rw [List.append_nil] at hnew ⊢
        exact hfirst hnew
      | cons first done =>
        -- a later one is made with the first among those before it
        obtain ⟨rfl, hrest⟩ := List.cons.inj hsplit
        have hlater' := hlater done g rest hrest
        rw [List.append_assoc] at hlater'
        exact hlater' hnew

/-- **Names are given once, and no two alike**, for every lineage and every sequence of requests. -/
theorem allocates_grantAll (l : Lineage) (requests : List (String × PropertyKey)) :
    Allocates l requests ((Progress.start l).grantAll l.target requests).1 := by
  obtain ⟨hkeeps, hrequests, hfirst⟩ := keeps_grantAll l.target requests (keeps_start l)
  rw [List.nil_append] at hkeeps
  generalize (Progress.start l).grantAll l.target requests = out at hkeeps hrequests hfirst ⊢
  -- at the end, the table has all grants and nothing else
  have hgranted : ∀ g ∈ out.1, out.2.names.granted.get? g.request = some g.name := fun g hg =>
    (hkeeps.granted g.owner g.property g.name).2 hg
  constructor
  case answered => exact hrequests
  case stable =>
    intro g hg g' hg' hsame
    have hname := hgranted g hg
    rw [hsame, hgranted g' hg'] at hname
    exact (Option.some.inj hname).symm
  case distinct =>
    intro g hg g' hg' hother hside hname
    have hget := hgranted g' hg'
    rw [← hname] at hget
    exact hother (hkeeps.valid.injective _ _ _ (hgranted g hg) hget hside)
  case undeclared =>
    intro g hg m hm hblock hside hname
    by_cases hk : m.kind = .staticBlock
    · -- a name that is given is not empty
      obtain ⟨rest, hmarked⟩ := hkeeps.valid.marked _ _ (hgranted g hg)
      rw [← hname, hblock hk] at hmarked
      have hchars := congrArg String.toList hmarked
      simp at hchars
    · exact hkeeps.reserves.free _ _ (hgranted g hg) m hm hk hside hname
  case first => exact hfirst

/-- Two requests with the same first choice. -/
example : ((Progress.start { target := "B", ancestry := [] }).grantAll "B"
    [("A", ⟨false, .pub, "x_y"⟩), ("A_x", ⟨false, .pub, "y"⟩), ("A", ⟨false, .pub, "x_y"⟩)]).1.map
      (·.name)
      = ["_super_A_x_y", "_super_A_x_y_2", "_super_A_x_y"] := by
  decide +kernel

end Disinherit
