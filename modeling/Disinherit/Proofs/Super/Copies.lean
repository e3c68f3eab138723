import Disinherit.Proofs.Super.Names
import Disinherit.Super.Copies
import Mathlib.Data.List.Basic

/-!
# What resolution does to the progress

`resolveAll` goes through the references in a member, and `provideCopy` calls it again for every
copy that it makes. The two are followed through what they do to a `Progress`:

* A progress only grows (`Progress.Grows`): names, copies and reports stay, and every copy that is
  added is finished (`Progress.Finished`), with an edit for each reference that can be resolved.
* Some facts are never broken (`Progress.Valid`): copies have distinct declarations and the name
  that is granted to their property, which no member in effect has, no place is reported twice, and
  what is reported is a reference in a member that is written out.

`resolveMember_spec` adds what is known of the references themselves: afterwards all of them are
settled (`Progress.Settles`), and the edits are those of `Progress.editFor?`. Because what is
settled stays so, the edits of every excerpt can be read off the last progress of a run.
-/

namespace Disinherit

namespace Progress

/-! ### References that are dealt with -/

/-- The edit for a reference that leads to a copy. -/
def editFor? (p : Progress) (l : Lineage) (m : Member) (r : SuperReference) : Option Edit :=
  match l.verdict m r with
  | .copy entry => (p.copyOf? entry).map fun name => ⟨r.node.start, r.node.stop, "this." ++ name⟩
  | _ => none

/-- The edits for the references in a member. -/
def referenceEdits (p : Progress) (l : Lineage) (m : Member) : List Edit :=
  m.references.filterMap (p.editFor? l m)

/-- A reference is dealt with: it was reported, or there is a copy for it. -/
def Settles (p : Progress) (l : Lineage) (m : Member) (r : SuperReference) : Prop :=
  match l.verdict m r with
  | .construction => True
  | .unresolved _ => r.node.start ∈ p.reported
  | .copy entry => (p.copyOf? entry).isSome = true

/-- All references in a member are dealt with. -/
def SettlesAll (p : Progress) (l : Lineage) (m : Member) : Prop :=
  ∀ r ∈ m.references, p.Settles l m r

/-- A copy that has its name and the edits for all its references. -/
structure Finished (p : Progress) (l : Lineage) (c : Excerpt) : Prop where
  settles : p.SettlesAll l c.member
  edits : ∃ name, c.rename = some name ∧
    c.edits = c.member.renameEdits name ++ p.referenceEdits l c.member

/-! ### Growth -/

/-- What one progress has settled, a later one has settled alike. -/
structure Extends (p p' : Progress) : Prop where
  names : p.names.Extends p'.names
  copyOf? : ∀ entry name, p.copyOf? entry = some name → p'.copyOf? entry = some name
  reported : ∀ o ∈ p.reported, o ∈ p'.reported

/-- A later progress has all copies of an earlier one, and those that it adds are finished. -/
structure Grows (l : Lineage) (p p' : Progress) : Prop extends p.Extends p' where
  copies : ∃ new, p'.copies = p.copies ++ new ∧ ∀ c ∈ new, p'.Finished l c

variable {s : Script} {l : Lineage} {p p' p'' : Progress}

namespace Extends

theorem refl (p : Progress) : p.Extends p :=
  ⟨.refl _, fun _ _ h => h, fun _ h => h⟩

theorem trans (h : p.Extends p') (h' : p'.Extends p'') : p.Extends p'' where
  names := h.names.trans h'.names
  copyOf? entry name hc := h'.copyOf? entry name (h.copyOf? entry name hc)
  reported o ho := h'.reported o (h.reported o ho)

theorem settles (h : p.Extends p') {m : Member} {r : SuperReference} (hr : p.Settles l m r) :
    p'.Settles l m r := by
  unfold Settles at hr ⊢
  split
  · trivial
  · next why hv =>
    -- what is reported stays reported
    simp only [hv] at hr
    exact h.reported _ hr
  · next entry hv =>
    simp only [hv] at hr
    -- a copy that was there is still found, under the same name
    obtain ⟨name, hname⟩ := Option.isSome_iff_exists.1 hr
    rw [h.copyOf? entry name hname]
    rfl

/-- The edit for a reference that is dealt with does not change any more. -/
theorem editFor? (h : p.Extends p') {m : Member} {r : SuperReference} (hr : p.Settles l m r) :
    p'.editFor? l m r = p.editFor? l m r := by
  unfold Settles at hr
  unfold Progress.editFor?
  split
  · next entry hv =>
    simp only [hv] at hr
    obtain ⟨name, hname⟩ := Option.isSome_iff_exists.1 hr
    rw [hname, h.copyOf? entry name hname]
  · rfl

theorem referenceEdits (h : p.Extends p') {m : Member} (hm : p.SettlesAll l m) :
    p'.referenceEdits l m = p.referenceEdits l m :=
  List.filterMap_congr fun r hr => h.editFor? (hm r hr)

theorem finished (h : p.Extends p') {c : Excerpt} (hc : p.Finished l c) : p'.Finished l c := by
  obtain ⟨name, hname, hedits⟩ := hc.edits
  refine ⟨fun r hr => h.settles (hc.settles r hr), name, hname, ?_⟩
  rw [hedits, h.referenceEdits hc.settles]

end Extends

theorem Grows.refl (p : Progress) : Grows l p p :=
  ⟨.refl p, [], by simp, by simp⟩

theorem Grows.trans (h : Grows l p p') (h' : Grows l p' p'') : Grows l p p'' := by
  obtain ⟨new, hnew, hfinished⟩ := h.copies
  obtain ⟨new', hnew', hfinished'⟩ := h'.copies
  refine ⟨h.toExtends.trans h'.toExtends, new ++ new', ?_, fun c hc => ?_⟩
  · rw [hnew', hnew, List.append_assoc]
  · rcases List.mem_append.1 hc with hc | hc
    · -- what was finished in the first part stays so in the second
      exact h'.toExtends.finished (hfinished c hc)
    · exact hfinished' c hc

/-! ### What always holds -/

theorem isCopyOf_iff {entry : Member} {c : Excerpt} :
    isCopyOf entry c = true ↔ c.member.owner = entry.owner ∧
      c.member.identity = entry.identity := by
  simp [isCopyOf]

theorem isCopyOf_comm (c c' : Excerpt) : isCopyOf c.member c' = isCopyOf c'.member c := by
  rw [Bool.eq_iff_iff, isCopyOf_iff, isCopyOf_iff]
  exact and_congr eq_comm eq_comm

/-- A member is written out: it is one of `ms`, or there is a copy of it. -/
def Renders (p : Progress) (ms : List Member) (m : Member) : Prop :=
  m ∈ ms ∨ ∃ c ∈ p.copies, c.member = m

/-- Kind and place of a diagnostic. -/
def spot (d : Diagnostic) : DiagnosticKind × Int × Int :=
  (d.kind, d.line, d.column)

/-- Kind and place of the report on a reference at an offset. -/
def reportSpot (s : Script) (offset : Nat) : DiagnosticKind × Int × Int :=
  (.unresolvedSuperCall, (s.source.position offset).line, (s.source.position offset).column)

/-- What holds of a progress at any time, when `ms` are the members that are written out besides the
copies. -/
structure Valid (s : Script) (l : Lineage) (ms : List Member) (p : Progress) : Prop where
  names : p.names.Valid
  reserves : p.names.Reserves l.members.toList
  /-- A copy has the name granted to its property. -/
  renamed : ∀ c ∈ p.copies, ∃ name, c.rename = some name ∧
    p.names.granted.get? (c.member.owner, c.member.identity.property) = some name
  /-- No declaration is copied twice. -/
  distinct : p.copies.Pairwise fun c c' => isCopyOf c.member c' = false
  /-- Only what a reference leads to is copied. -/
  reached : ∀ c ∈ p.copies, ∃ m r, l.verdict m r = .copy c.member
  /-- No place is reported twice. -/
  nodup : p.reported.Nodup
  diagnostics : p.diagnostics.map spot = p.reported.map (reportSpot s)
  /-- What is reported is a reference in a member that is written out. -/
  origin : ∀ o ∈ p.reported, ∃ m, p.Renders ms m ∧ ∃ r ∈ m.references,
    (∃ why, l.verdict m r = .unresolved why) ∧ r.node.start = o

variable {ms : List Member}

theorem valid_start (s : Script) (l : Lineage) (ms : List Member) : (start l).Valid s l ms where
  names := NameTable.valid_ofMembers _
  reserves := NameTable.reserves_ofMembers _
  renamed _ h := by cases h
  distinct := .nil
  reached _ h := by cases h
  nodup := .nil
  diagnostics := rfl
  origin _ h := by cases h

theorem Grows.renders (h : Grows l p p') {m : Member} (hm : p.Renders ms m) : p'.Renders ms m := by
  obtain ⟨new, hnew, -⟩ := h.copies
  rcases hm with hm | ⟨c, hc, rfl⟩
  · exact .inl hm
  · exact .inr ⟨c, by rw [hnew]; exact List.mem_append_left _ hc, rfl⟩

/-- Where there is no copy of a member, none of the copies is of its declaration. -/
theorem Valid.isCopyOf_eq_false (hp : p.Valid s l ms) {entry : Member} (h : p.copyOf? entry = none)
    {c : Excerpt} (hc : c ∈ p.copies) : isCopyOf entry c = false := by
  cases hfind : p.copies.find? (isCopyOf entry) with
  | none => exact Bool.eq_false_iff.2 (List.find?_eq_none.1 hfind c hc)
  | some c' =>
    -- a copy that is found has a name, under which `copyOf?` would give it
    obtain ⟨name, hname, -⟩ := hp.renamed c' (List.mem_of_find?_eq_some hfind)
    rw [copyOf?, hfind, Option.bind_some, hname] at h
    cases h

/-- The name by which references call a copy is the one that is granted to its property. -/
theorem Valid.copyOf?_eq_some (hp : p.Valid s l ms) {entry : Member} {name : String}
    (h : p.copyOf? entry = some name) :
    p.names.granted.get? (entry.owner, entry.identity.property) = some name ∧
      ∃ c ∈ p.copies, c.rename = some name ∧ c.member.owner = entry.owner ∧
        c.member.identity = entry.identity := by
  obtain ⟨c, hfind, hname⟩ := Option.bind_eq_some_iff.1 h
  have hc := List.mem_of_find?_eq_some hfind
  obtain ⟨howner, hident⟩ := isCopyOf_iff.1 (List.find?_some hfind)
  obtain ⟨name', hname', hget⟩ := hp.renamed c hc
  obtain rfl := Option.some.inj (hname.symm.trans hname')
  rw [howner, hident] at hget
  exact ⟨hget, c, hc, hname, howner, hident⟩

/-! ### The steps of a run -/

/-- Copies are looked up by their declarations and names alone. -/
theorem copyOf?_map {f : Excerpt → Excerpt} (hmember : ∀ c, (f c).member = c.member)
    (hrename : ∀ c, (f c).rename = c.rename) (h : p'.copies = p.copies.map f) (entry : Member) :
    p'.copyOf? entry = p.copyOf? entry := by
  have hsame : isCopyOf entry ∘ f = isCopyOf entry := by
    funext c
    simp only [Function.comp, isCopyOf, hmember]
  rw [copyOf?, h, List.find?_map, hsame, copyOf?]
  cases p.copies.find? (isCopyOf entry) with
  | none => rfl
  | some c => exact hrename c

/-- Granting a name touches nothing but the names. -/
theorem grows_grant (target owner : String) (property : PropertyKey) :
    Grows l p (p.grant target owner property).2 where
  names := NameTable.extends_grant
  copyOf? _ _ h := h
  reported _ h := h
  copies := ⟨[], (List.append_nil _).symm, by simp⟩

theorem Valid.grant (hp : p.Valid s l ms) (target owner : String) (property : PropertyKey) :
    (p.grant target owner property).2.Valid s l ms where
  names := hp.names.grant
  reserves := hp.reserves.grant
  renamed c hc := by
    obtain ⟨name, hname, hget⟩ := hp.renamed c hc
    exact ⟨name, hname, NameTable.extends_grant _ _ hget⟩
  distinct := hp.distinct
  reached := hp.reached
  nodup := hp.nodup
  diagnostics := hp.diagnostics
  origin := hp.origin

section Report

variable (target : String) (m : Member) (r : SuperReference) (why : Unresolved)

theorem mem_reported_report : r.node.start ∈ (p.report s target m r why).reported := by
  unfold report
  split
  · next h => exact h
  · simp

theorem grows_report : Grows l p (p.report s target m r why) := by
  unfold report
  split
  · exact .refl p
  · exact ⟨⟨.refl _, fun _ _ h => h, fun o ho => List.mem_append_left _ ho⟩, [],
      (List.append_nil _).symm, by simp⟩

variable {m r why}

/-- Reporting a reference of a member that is written out, once. -/
theorem Valid.report (hp : p.Valid s l ms) (hm : p.Renders ms m) (hr : r ∈ m.references)
    (hv : l.verdict m r = .unresolved why) : (p.report s target m r why).Valid s l ms := by
  unfold Progress.report
  split
  · exact hp
  · next hnew =>
    -- the place is new, so that it can be added without being listed twice
    refine ⟨hp.names, hp.reserves, hp.renamed, hp.distinct, hp.reached, ?_, ?_, ?_⟩
    · exact List.nodup_append.2 ⟨hp.nodup, by simp, by rintro a ha b hb rfl; simp_all⟩
    · rw [List.map_append, List.map_append, hp.diagnostics]
      rfl
    · intro o ho
      rcases List.mem_append.1 ho with ho | ho
      · exact hp.origin o ho
      · exact ⟨m, hm, r, hr, ⟨why, hv⟩, (List.mem_singleton.1 ho).symm⟩

end Report

section Copy

variable {entry : Member} (target : String)

/-- A copy that was opened is found under its name. -/
theorem copyOf?_openCopy (hp : p.Valid s l ms) (hentry : p.copyOf? entry = none) :
    (p.openCopy target entry).2.copyOf? entry = some (p.openCopy target entry).1 := by
  have hnone : p.copies.find? (isCopyOf entry) = none :=
    List.find?_eq_none.2 fun c hc => by simp [hp.isCopyOf_eq_false hentry hc]
  simp [copyOf?, openCopy, hnone, isCopyOf]

/-- A copy that was opened stands at the end. What was settled before stays settled. -/
theorem extends_openCopy : p.Extends (p.openCopy target entry).2 where
  names := NameTable.extends_grant
  copyOf? e name h := by
    obtain ⟨c, hfind, hname⟩ := Option.bind_eq_some_iff.1 h
    simp [copyOf?, openCopy, hfind, hname]
  reported _ h := h

theorem Valid.openCopy (hp : p.Valid s l ms) (hentry : p.copyOf? entry = none)
    (hreached : ∃ m r, l.verdict m r = .copy entry) :
    (p.openCopy target entry).2.Valid s l ms where
  names := hp.names.grant
  reserves := hp.reserves.grant
  renamed c hc := by
    rcases List.mem_append.1 hc with hc | hc
    · obtain ⟨name, hname, hget⟩ := hp.renamed c hc
      exact ⟨name, hname, NameTable.extends_grant _ _ hget⟩
    · -- the new copy has the name that was just granted
      obtain rfl := List.mem_singleton.1 hc
      exact ⟨_, rfl, NameTable.get?_grant⟩
  distinct := by
    refine List.pairwise_append.2 ⟨hp.distinct, List.pairwise_singleton _ _, fun c hc c' hc' => ?_⟩
    obtain rfl := List.mem_singleton.1 hc'
    -- there was no copy of this declaration yet
    rw [isCopyOf_comm]
    exact hp.isCopyOf_eq_false hentry hc
  reached c hc := by
    rcases List.mem_append.1 hc with hc | hc
    · exact hp.reached c hc
    · obtain rfl := List.mem_singleton.1 hc
      exact hreached
  nodup := hp.nodup
  diagnostics := hp.diagnostics
  origin o ho := by
    obtain ⟨m, hm, hrest⟩ := hp.origin o ho
    refine ⟨m, ?_, hrest⟩
    rcases hm with hm | ⟨c, hc, hcm⟩
    · exact .inl hm
    · exact .inr ⟨c, List.mem_append_left _ hc, hcm⟩

variable {edits : List Edit}

theorem copyOf?_closeCopy (e : Member) : (p.closeCopy entry edits).copyOf? e = p.copyOf? e :=
  copyOf?_map (fun c => by split <;> rfl) (fun c => by split <;> rfl) rfl e

theorem extends_closeCopy : p.Extends (p.closeCopy entry edits) where
  names := .refl _
  copyOf? e name h := by rw [copyOf?_closeCopy, h]
  reported _ h := h

theorem Valid.closeCopy (hp : p.Valid s l ms) : (p.closeCopy entry edits).Valid s l ms := by
  -- closing changes nothing but edits, of which nothing is said here
  have hsource : ∀ c ∈ (p.closeCopy entry edits).copies,
      ∃ c₀ ∈ p.copies, c.member = c₀.member ∧ c.rename = c₀.rename := by
    intro c hc
    obtain ⟨c₀, hc₀, rfl⟩ := List.mem_map.1 hc
    refine ⟨c₀, hc₀, ?_⟩
    split <;> exact ⟨rfl, rfl⟩
  constructor
  case names => exact hp.names
  case reserves => exact hp.reserves
  case renamed =>
    intro c hc
    obtain ⟨c₀, hc₀, hmember, hrename⟩ := hsource c hc
    rw [hmember, hrename]
    exact hp.renamed c₀ hc₀
  case distinct =>
    refine List.pairwise_map.2 (hp.distinct.imp fun {c c'} h => ?_)
    split <;> split <;> exact h
  case reached =>
    intro c hc
    obtain ⟨c₀, hc₀, hmember, -⟩ := hsource c hc
    rw [hmember]
    exact hp.reached c₀ hc₀
  case nodup => exact hp.nodup
  case diagnostics => exact hp.diagnostics
  case origin =>
    intro o ho
    obtain ⟨m, hm, hrest⟩ := hp.origin o ho
    refine ⟨m, ?_, hrest⟩
    rcases hm with hm | ⟨c, hc, rfl⟩
    · exact .inl hm
    · refine .inr ⟨_, List.mem_map_of_mem hc, ?_⟩
      split <;> rfl

/-- Closing a copy adds the edits to it and changes no other copy. -/
theorem copies_closeCopy (hp : p.Valid s l ms) {before after : List Excerpt} {c : Excerpt}
    (hcopies : p.copies = before ++ c :: after) :
    (p.closeCopy c.member edits).copies
      = before ++ { c with edits := c.edits ++ edits } :: after := by
  -- on either side of `c` there is no other copy of its declaration
  have hdistinct := hp.distinct
  rw [hcopies] at hdistinct
  obtain ⟨-, hafter, hbefore⟩ := List.pairwise_append.1 hdistinct
  have hsame : ∀ cs : List Excerpt, (∀ c' ∈ cs, isCopyOf c.member c' = false) →
      cs.map (fun c' => if isCopyOf c.member c' then { c' with edits := c'.edits ++ edits } else c')
        = cs := by
    intro cs hcs
    refine (List.map_congr_left fun c' hc' => ?_).trans (List.map_id cs)
    rw [hcs c' hc']
    rfl
  have hself : isCopyOf c.member c = true := isCopyOf_iff.2 ⟨rfl, rfl⟩
  rw [closeCopy]
  simp only
  rw [hcopies, List.map_append, List.map_cons, hself, hsame after (List.pairwise_cons.1 hafter).1,
    hsame before ?_]
  · rfl
  · intro c' hc'
    rw [isCopyOf_comm]
    exact hbefore c' hc' c List.mem_cons_self

end Copy

/-! ### Runs -/

/-- What is to be expected of a run over some references in a member. -/
structure Resolves (s : Script) (l : Lineage) (ms : List Member) (m : Member)
    (references : List SuperReference) (p : Progress) (out : List Edit × Progress) : Prop where
  valid : out.2.Valid s l ms
  grows : Grows l p out.2
  settles : ∀ r ∈ references, out.2.Settles l m r
  edits : out.1 = references.filterMap (out.2.editFor? l m)

/-- What is to be expected of providing the copy of a member. -/
structure Provides (s : Script) (l : Lineage) (ms : List Member) (entry : Member) (p : Progress)
    (out : String × Progress) : Prop where
  valid : out.2.Valid s l ms
  grows : Grows l p out.2
  copyOf? : out.2.copyOf? entry = some out.1

/-- The run over the references in a member, one reference after the other. -/
theorem resolveWith_spec {m : Member}
    {provide : (entry : Member) → l.rank entry.owner < l.rank m.owner → Progress →
      String × Progress}
    (hprovide : ∀ entry h p, p.Valid s l ms → (∃ m r, l.verdict m r = .copy entry) →
      Provides s l ms entry p (provide entry h p))
    {references : List SuperReference} (hreferences : ∀ r ∈ references, r ∈ m.references)
    (hp : p.Valid s l ms) (hm : p.Renders ms m) :
    Resolves s l ms m references p (resolveWith s l m provide references p) := by
  induction references generalizing p with
  | nil => exact ⟨hp, .refl p, by simp, rfl⟩
  | cons r rest ih =>
    have hrest : ∀ r' ∈ rest, r' ∈ m.references :=
      fun r' h => hreferences r' (List.mem_cons_of_mem r h)
    -- what the run over the rest says, once the first reference is settled at `q`
    have hstep : ∀ {q : Progress} {out : List Edit × Progress}, Grows l p q → q.Settles l m r →
        Resolves s l ms m rest q out →
        Resolves s l ms m (r :: rest) p ((out.2.editFor? l m r).toList ++ out.1, out.2) := by
      intro q out hgrows hsettles hout
      refine ⟨hout.valid, hgrows.trans hout.grows, fun r' hr' => ?_, ?_⟩
      · rcases List.mem_cons.1 hr' with rfl | hr'
        · exact hout.grows.toExtends.settles hsettles
        · exact hout.settles r' hr'
      · simp only [List.filterMap_cons, hout.edits]
        cases out.2.editFor? l m r <;> rfl
    rw [resolveWith]
    split
    · -- constructor calls are left to the chain of constructors
      next hv =>
      have hnone : ∀ q : Progress, q.editFor? l m r = none := fun q => by simp [editFor?, hv]
      have hsettled : p.Settles l m r := by simp [Settles, hv]
      simpa only [hnone, Option.toList_none, List.nil_append] using hstep (.refl p) hsettled
        (ih hrest hp hm)
    · -- the reference is reported and stays as it is
      next why hv =>
      have hnone : ∀ q : Progress, q.editFor? l m r = none := fun q => by simp [editFor?, hv]
      have hgrows : Grows l p (p.report s l.target m r why) := grows_report l.target m r why
      have hsettled : (p.report s l.target m r why).Settles l m r := by
        simp only [Settles, hv]
        exact mem_reported_report l.target m r why
      have hvalid := hp.report l.target hm (hreferences r List.mem_cons_self) hv
      simpa only [hnone, Option.toList_none, List.nil_append] using
        hstep hgrows hsettled (ih hrest hvalid (hgrows.renders hm))
    · -- the copy was provided at a progress that has grown since, and the edit is still the same
      next entry hv =>
      have hcopy := hprovide entry (l.rank_verdict hv) p hp ⟨m, r, hv⟩
      have hsettled : (provide entry (l.rank_verdict hv) p).2.Settles l m r := by
        simp only [Settles, hv, hcopy.copyOf?, Option.isSome_some]
      have hout := ih hrest hcopy.valid (hcopy.grows.renders hm)
      have hedit := hout.grows.toExtends.editFor? hsettled
      simp only [editFor?, hv, hcopy.copyOf?, Option.map_some] at hedit
      have hall := hstep hcopy.grows hsettled hout
      simpa only [editFor?, hv, hedit, Option.toList_some, List.singleton_append] using hall

/-- A copy is opened, the references in it are resolved, and then it is closed. By induction on the
position of the class in the chain: what is referred to stands nearer to the base. -/
theorem provideCopy_spec (entry : Member) (hp : p.Valid s l ms)
    (hreached : ∃ m r, l.verdict m r = .copy entry) :
    Provides s l ms entry p (provideCopy s l entry p) := by
  induction hrank : l.rank entry.owner using Nat.strongRecOn generalizing entry p with
  | ind n ih =>
    subst hrank
    cases hentry : p.copyOf? entry with
    | some name =>
      -- the copy exists, and nothing is to be done
      rw [provideCopy, hentry]
      exact ⟨hp, .refl p, hentry⟩
    | none =>
      rw [provideCopy_of_none hentry]
      -- the copy is opened first, so that it is found while its own body is resolved
      have hopened := hp.openCopy l.target hentry hreached
      -- from here on only what is said of the opened copy counts, not how it came about
      have hname : (p.openCopy l.target entry).2.copyOf? entry
          = some (p.openCopy l.target entry).1 :=
        copyOf?_openCopy l.target hp hentry
      have hcopies : (p.openCopy l.target entry).2.copies
          = p.copies ++ [⟨entry, entry.renameEdits (p.openCopy l.target entry).1,
              some (p.openCopy l.target entry).1⟩] := rfl
      have hextends : p.Extends (p.openCopy l.target entry).2 := extends_openCopy l.target
      generalize p.openCopy l.target entry = opened at hopened hname hcopies hextends ⊢
      simp only
      -- the copy is there already while its own references are resolved, but it is not finished
      have hinside : Resolves s l ms entry entry.references opened.2
          (resolveAll s l entry entry.references opened.2) :=
        resolveWith_spec (fun e h q hq hr => ih _ h e hq hr rfl) (fun _ h => h) hopened
          (.inr ⟨_, by rw [hcopies]; exact List.mem_append_right _ List.mem_cons_self, rfl⟩)
      generalize resolveAll s l entry entry.references opened.2 = inside at hinside ⊢
      obtain ⟨new, hnew, hfinished⟩ := hinside.grows.copies
      rw [hcopies, List.append_assoc, List.singleton_append] at hnew
      have hclose : inside.2.Extends (inside.2.closeCopy entry inside.1) := extends_closeCopy
      have hall : p.Extends (inside.2.closeCopy entry inside.1) :=
        (hextends.trans hinside.grows.toExtends).trans hclose
      refine ⟨hinside.valid.closeCopy, ⟨hall, _ :: new, copies_closeCopy hinside.valid hnew, ?_⟩,
        ?_⟩
      · -- what was added is the copy itself, finished now, and the copies made on the way
        intro c hc
        rcases List.mem_cons.1 hc with rfl | hc
        · refine ⟨fun r hr => hclose.settles (hinside.settles r hr), _, rfl, ?_⟩
          simp only
          rw [hclose.referenceEdits hinside.settles, hinside.edits]
          rfl
        · exact hclose.finished (hfinished c hc)
      · exact hclose.copyOf? _ _ (hinside.grows.copyOf? _ _ hname)

/-- **The run over the references in a member.** -/
theorem resolveMember_spec (m : Member) (hp : p.Valid s l ms) (hm : p.Renders ms m) :
    Resolves s l ms m m.references p (resolveMember s l m p) :=
  resolveWith_spec (fun entry _ _ hq hr => provideCopy_spec entry hq hr) (fun _ h => h) hp hm

end Progress

end Disinherit
