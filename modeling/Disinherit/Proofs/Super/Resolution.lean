import Disinherit.Proofs.Members
import Disinherit.Proofs.Super.Copies
import Disinherit.Super.Resolution
import Mathlib.Data.List.Forall2

/-!
# Resolved classes, read off the last progress

`Script.resolve` threads one `Progress` through the members of a lineage and then through its
constructors. At the end every reference is settled, so that all excerpts are determined by the last
progress. `Outcome` says how, and `exists_outcome` that every run comes to such an end.

`Rendering` is the part of it that all kinds of excerpts have in common: the edits for the
references, and around them only edits that rename the excerpt or redirect constructor calls.
-/

namespace Disinherit

open Progress

variable {s : Script} {l : Lineage} {ms : List Member} {p : Progress}

/-! ### Members in effect -/

/-- The excerpt of a member in effect. The constructor only marks its place. -/
def Progress.memberExcerpt (p : Progress) (l : Lineage) (m : Member) : Excerpt :=
  { member := m, edits := if m.kind = .constructor then [] else p.referenceEdits l m }

/-- The run over the members in effect. -/
theorem excerptMembers_spec (members : List Member)
    (hmembers : ∀ m ∈ members, m.kind ≠ .constructor → m ∈ ms) (hp : p.Valid s l ms) :
    (excerptMembers s l members p).2.Valid s l ms ∧
      Grows l p (excerptMembers s l members p).2 ∧
      (∀ m ∈ members, m.kind ≠ .constructor → (excerptMembers s l members p).2.SettlesAll l m) ∧
      (excerptMembers s l members p).1
        = members.map ((excerptMembers s l members p).2.memberExcerpt l) := by
  induction members generalizing p with
  | nil => exact ⟨hp, .refl p, by simp, rfl⟩
  | cons m rest ih =>
    have hrest : ∀ m' ∈ rest, m'.kind ≠ .constructor → m' ∈ ms := fun m' h =>
      hmembers m' (List.mem_cons_of_mem m h)
    rw [excerptMembers]
    by_cases hk : m.kind = .constructor
    · -- the references of the constructor wait for the chain
      simp only [if_pos hk]
      obtain ⟨hvalid, hgrows, hsettles, hexcerpts⟩ := ih hrest hp
      refine ⟨hvalid, hgrows, fun m' hm' hk' => ?_, ?_⟩
      · rcases List.mem_cons.1 hm' with rfl | hm'
        · exact absurd hk hk'
        · exact hsettles m' hm' hk'
      · rw [List.map_cons, hexcerpts, memberExcerpt, if_pos hk]
    · simp only [if_neg hk]
      have hfirst := resolveMember_spec m hp (.inl (hmembers m List.mem_cons_self hk))
      obtain ⟨hvalid, hgrows, hsettles, hexcerpts⟩ := ih hrest hfirst.valid
      refine ⟨hvalid, hfirst.grows.trans hgrows, fun m' hm' hk' => ?_, ?_⟩
      · rcases List.mem_cons.1 hm' with rfl | hm'
        · exact fun r hr => hgrows.toExtends.settles (hfirst.settles r hr)
        · exact hsettles m' hm' hk'
      · -- the edits were made at an earlier progress, at which the member was settled
        rw [List.map_cons, hexcerpts, memberExcerpt, if_neg hk,
          hgrows.toExtends.referenceEdits hfirst.settles, hfirst.edits]
        rfl

/-! ### Constructors -/

/-- Every constructor that becomes a method gets the name granted to its class. -/
theorem grantConstructorNames_spec (target : String) (constructors : List Member)
    (hp : p.Valid s l ms) :
    (grantConstructorNames target constructors p).2.Valid s l ms ∧
      Grows l p (grantConstructorNames target constructors p).2 ∧
      List.Forall₂ (fun m name => (grantConstructorNames target constructors p).2.names.granted.get?
        (m.owner, constructorKey) = some name) constructors
        (grantConstructorNames target constructors p).1 := by
  induction constructors generalizing p with
  | nil => exact ⟨hp, .refl p, .nil⟩
  | cons m rest ih =>
    rw [grantConstructorNames]
    obtain ⟨hvalid, hgrows, hnames⟩ := ih (hp.grant target m.owner constructorKey)
    refine ⟨hvalid, (grows_grant target m.owner constructorKey).trans hgrows, .cons ?_ hnames⟩
    -- a name once granted is not taken back while the others get theirs
    exact hgrows.names _ _ NameTable.get?_grant

/-- With a name for all but the last, every constructor takes part in the chain. -/
theorem length_le_of_named {R : Member → String → Prop} {constructors : List Member}
    {names : List String} (h : List.Forall₂ R constructors.dropLast names) :
    constructors.length ≤ (names.map some ++ [none]).length := by
  have hlength := h.length_eq
  rw [List.length_dropLast] at hlength
  simp only [List.length_append, List.length_map, List.length_singleton]
  omega

/-- The excerpts for a chain of constructors, each given with the name of its method if it becomes
one, when `method?` stands for the constructor before the first. -/
def Progress.chainExcerpts (s : Script) (l : Lineage) (p : Progress) (method? : Option String) :
    List (Member × Option String) → List Excerpt
  | [] => []
  | (m, name?) :: rest =>
    ⟨m, p.referenceEdits l m ++ constructionEdits s.source method? m
        ++ (name?.map m.renameEdits).getD [], name?⟩ :: chainExcerpts s l p name? rest

/-- The run over a chain of constructors. -/
theorem chainFrom_spec (method? : Option String) (entries : List (Member × Option String))
    (hentries : ∀ e ∈ entries, e.1 ∈ ms) (hp : p.Valid s l ms) :
    (chainFrom s l method? entries p).2.Valid s l ms ∧
      Grows l p (chainFrom s l method? entries p).2 ∧
      (∀ e ∈ entries, (chainFrom s l method? entries p).2.SettlesAll l e.1) ∧
      (chainFrom s l method? entries p).1
        = (chainFrom s l method? entries p).2.chainExcerpts s l method? entries := by
  induction entries generalizing method? p with
  | nil => exact ⟨hp, .refl p, by simp, rfl⟩
  | cons e rest ih =>
    obtain ⟨m, name?⟩ := e
    rw [chainFrom]
    have hfirst := resolveMember_spec m hp (.inl (hentries (m, name?) List.mem_cons_self))
    -- the rest of the chain starts from the name of this constructor
    obtain ⟨hvalid, hgrows, hsettles, hexcerpts⟩ :=
      ih name? (fun e he => hentries e (List.mem_cons_of_mem _ he)) hfirst.valid
    refine ⟨hvalid, hfirst.grows.trans hgrows, fun e he => ?_, ?_⟩
    · rcases List.mem_cons.1 he with rfl | he
      · exact fun r hr => hgrows.toExtends.settles (hfirst.settles r hr)
      · exact hsettles e he
    · rw [chainExcerpts, ← hexcerpts, hgrows.toExtends.referenceEdits hfirst.settles, hfirst.edits]
      rfl

theorem map_chainExcerpts (method? : Option String) (entries : List (Member × Option String)) :
    (p.chainExcerpts s l method? entries).map (fun x => (x.member, x.rename)) = entries := by
  induction entries generalizing method? with
  | nil => rfl
  | cons e rest ih => rw [chainExcerpts, List.map_cons, ih]

theorem mem_of_mem_chainExcerpts {method? : Option String} {entries : List (Member × Option String)}
    {x : Excerpt} (hx : x ∈ p.chainExcerpts s l method? entries) :
    (x.member, x.rename) ∈ entries := by
  rw [← map_chainExcerpts (s := s) (l := l) (p := p) method? entries]
  exact List.mem_map_of_mem (f := fun x : Excerpt => (x.member, x.rename)) hx

/-- Each constructor of a chain but the first calls the one before it, which does not come last. -/
theorem edits_of_mem_chainExcerpts {method? : Option String}
    {entries : List (Member × Option String)} {x : Excerpt}
    (hx : x ∈ p.chainExcerpts s l method? entries) :
    ∃ previous?, x.edits = p.referenceEdits l x.member
        ++ constructionEdits s.source previous? x.member
        ++ (x.rename.map x.member.renameEdits).getD [] ∧
      ((previous? = method? ∧ (p.chainExcerpts s l method? entries).head? = some x) ∨
        ∃ y ∈ (p.chainExcerpts s l method? entries).dropLast, y.rename = previous?) := by
  induction entries generalizing method? with
  | nil => cases hx
  | cons e rest ih =>
    obtain ⟨m, name?⟩ := e
    rw [chainExcerpts] at hx ⊢
    rcases List.mem_cons.1 hx with rfl | hx
    · exact ⟨method?, rfl, .inl ⟨rfl, rfl⟩⟩
    · -- something follows the first constructor, which is therefore not the last
      have hne : p.chainExcerpts s l name? rest ≠ [] := List.ne_nil_of_mem hx
      obtain ⟨previous?, hedits, hprevious⟩ := ih hx
      refine ⟨previous?, hedits, .inr ?_⟩
      rw [List.dropLast_cons_of_ne_nil hne]
      -- the second constructor calls the first, a later one its own predecessor
      rcases hprevious with ⟨rfl, -⟩ | ⟨y, hy, hname⟩
      · exact ⟨_, List.mem_cons_self, rfl⟩
      · exact ⟨y, List.mem_cons_of_mem _ hy, hname⟩

/-! ### The end of a run -/

/-- The members that are written out besides the copies. -/
def Lineage.written (l : Lineage) : List Member :=
  l.members.toList.filter (·.kind ≠ .constructor) ++ l.constructors

/-- A resolved class is what the last progress says: `names` are the names of the constructors that
became methods. -/
structure Outcome (s : Script) (l : Lineage) (p : Progress) (names : List String) (c : Resolution) :
    Prop where
  valid : p.Valid s l l.written
  settles : ∀ m ∈ l.written, p.SettlesAll l m
  finished : ∀ x ∈ p.copies, p.Finished l x
  named : List.Forall₂ (fun m name => p.names.granted.get? (m.owner, constructorKey) = some name)
    l.constructors.dropLast names
  members : c.members = l.members.toList.map (p.memberExcerpt l)
  constructor : c.constructor
    = (p.chainExcerpts s l none (l.constructors.zip (names.map some ++ [none]))).getLast?
  copies : c.copies = p.copies
  constructorCopies : c.constructorCopies
    = (p.chainExcerpts s l none (l.constructors.zip (names.map some ++ [none]))).dropLast
  diagnostics : c.diagnostics = p.diagnostics ++ fieldOrderFindings s l

/-- **Every resolution comes to an end** at which all references are settled. -/
theorem exists_outcome (s : Script) {l : Lineage} (h : l.isActive = true) :
    ∃ p names, Outcome s l p names (s.resolve l) := by
  -- three runs, one after the other: members, names for the constructors, chain of constructors
  have hmembers := excerptMembers_spec l.members.toList
    (fun m hm hk => List.mem_append_left _ (List.mem_filter.2 ⟨hm, by simpa using hk⟩))
    (valid_start s l l.written)
  rw [Script.resolve, if_pos h]
  simp only [chainConstructors]
  generalize excerptMembers s l l.members.toList (.start l) = members at hmembers ⊢
  obtain ⟨hvalid, hgrows, hsettles, hexcerpts⟩ := hmembers
  have hnames := grantConstructorNames_spec l.target l.constructors.dropLast hvalid
  generalize grantConstructorNames l.target l.constructors.dropLast members.2 = names at hnames ⊢
  obtain ⟨hvalid', hgrows', hnamed⟩ := hnames
  have hchain := chainFrom_spec none (l.constructors.zip (names.1.map some ++ [none]))
    (fun e he => List.mem_append_right _ (List.of_mem_zip he).1) hvalid'
  generalize chainFrom s l none (l.constructors.zip (names.1.map some ++ [none])) names.2 = chain
    at hchain ⊢
  obtain ⟨hvalid'', hgrows'', hsettles'', hexcerpts''⟩ := hchain
  have hlater : members.2.Extends chain.2 := hgrows'.toExtends.trans hgrows''.toExtends
  have hlength := length_le_of_named hnamed
  refine ⟨chain.2, names.1, ?_⟩
  constructor
  case valid => exact hvalid''
  case settles =>
    intro m hm
    rcases List.mem_append.1 hm with hm | hm
    · obtain ⟨hmem, hk⟩ := List.mem_filter.1 hm
      exact fun r hr => hlater.settles (hsettles m hmem (by simpa using hk) r hr)
    · -- a constructor was settled as an entry of the chain
      rw [← List.map_fst_zip hlength] at hm
      obtain ⟨e, he, rfl⟩ := List.mem_map.1 hm
      exact hsettles'' e he
  case finished =>
    -- there are no copies at the start, so that all of them were added
    obtain ⟨new, hnew, hfinished⟩ := ((hgrows.trans hgrows').trans hgrows'').copies
    rw [hnew]
    exact hfinished
  case named => exact hnamed.imp fun m name hname => hgrows''.names _ _ hname
  case members =>
    simp only [hexcerpts]
    refine List.map_congr_left fun m hm => ?_
    -- edits made in the first run are still right at the end
    by_cases hk : m.kind = .constructor
    · rw [memberExcerpt, memberExcerpt, if_pos hk, if_pos hk]
    · rw [memberExcerpt, memberExcerpt, if_neg hk, if_neg hk,
        hlater.referenceEdits (hsettles m hm hk)]
  case constructor => rw [hexcerpts'']
  case copies => rfl
  case constructorCopies => rw [hexcerpts'']
  case diagnostics => rfl

/-- A class that stands alone is left as it is. -/
theorem resolve_of_not_isActive (h : l.isActive = false) :
    (s.resolve l).copies = [] ∧ (s.resolve l).constructorCopies = [] ∧
      (s.resolve l).diagnostics = [] ∧ ∀ x ∈ (s.resolve l).excerpts, x.edits = [] := by
  rw [Script.resolve, h]
  refine ⟨rfl, rfl, rfl, fun x hx => ?_⟩
  simp only [Bool.false_eq_true, if_false, Resolution.excerpts, List.append_nil] at hx
  obtain ⟨y, hy, hx⟩ := List.mem_flatMap.1 hx
  obtain ⟨m, -, rfl⟩ := List.mem_map.1 hy
  -- both the members and the constructor are shown without edits
  split at hx
  · obtain ⟨m', -, rfl⟩ := Option.map_eq_some_iff.1 (Option.mem_toList.1 hx)
    rfl
  · rw [List.mem_singleton.1 hx]

/-! ### Excerpts -/

/-- What the excerpts of a resolved class have in common. -/
structure Rendering (s : Script) (l : Lineage) (p : Progress) (c : Resolution) (x : Excerpt) :
    Prop where
  renders : p.Renders l.written x.member
  settles : p.SettlesAll l x.member
  /-- A new name is one that was granted. -/
  rename : ∀ name, x.rename = some name →
    ∃ property, p.names.granted.get? (x.member.owner, property) = some name
  /-- Around the edits for the references there are only those that rename the excerpt, and in a
  constructor those for the calls of the constructor before it. -/
  edits : ∃ before after, x.edits = before ++ p.referenceEdits l x.member ++ after ∧
    ∀ e ∈ before ++ after,
      (∃ name, x.rename = some name ∧ e ∈ x.member.renameEdits name) ∨
      (x.member ∈ l.constructors ∧ ∃ previous?, e ∈ constructionEdits s.source previous? x.member ∧
        (previous? = none ∨ ∃ y ∈ c.constructorCopies, y.rename = previous?))

namespace Outcome

variable {names : List String} {c : Resolution}

/-- The last constructor keeps its name, and all others have theirs. -/
theorem zip_names (h : Outcome s l p names c) :
    l.constructors.zip (names.map some ++ [none]) = [] ∨
      ∃ last, l.constructors.zip (names.map some ++ [none])
        = (l.constructors.dropLast.zip names).map (fun e => (e.1, some e.2)) ++ [(last, none)] := by
  have hlength := h.named.length_eq
  rcases List.eq_nil_or_concat l.constructors with hnil | ⟨front, last, hfront⟩
  · left
    rw [hnil, List.zip_nil_left]
  · right
    -- there are as many names as constructors but the last
    rw [hfront, List.concat_eq_append, List.dropLast_concat] at hlength
    refine ⟨last, ?_⟩
    rw [hfront, List.concat_eq_append, List.dropLast_concat,
      List.zip_append (by simpa using hlength), List.zip_map_right]
    rfl

/-- The chain has an excerpt for each constructor. -/
theorem map_member_chain (h : Outcome s l p names c) :
    (p.chainExcerpts s l none (l.constructors.zip (names.map some ++ [none]))).map (·.member)
      = l.constructors := by
  have hlength := length_le_of_named h.named
  have hmap := congrArg (List.map Prod.fst)
    (map_chainExcerpts (s := s) (l := l) (p := p) none
      (l.constructors.zip (names.map some ++ [none])))
  rw [List.map_map, List.map_fst_zip hlength] at hmap
  exact hmap

theorem granted_of_mem_zip (h : Outcome s l p names c) {m : Member} {name : String}
    (hentry : (m, name) ∈ l.constructors.dropLast.zip names) :
    p.names.granted.get? (m.owner, constructorKey) = some name :=
  (List.forall₂_iff_zip.1 h.named).2 hentry

theorem rendering_of_mem_chain (h : Outcome s l p names c) {x : Excerpt}
    (hx : x ∈ p.chainExcerpts s l none (l.constructors.zip (names.map some ++ [none]))) :
    Rendering s l p c x := by
  have hmem := (List.of_mem_zip (mem_of_mem_chainExcerpts hx)).1
  obtain ⟨previous?, hedits, hprevious⟩ := edits_of_mem_chainExcerpts hx
  constructor
  case renders => exact .inl (List.mem_append_right _ hmem)
  case settles => exact h.settles _ (List.mem_append_right _ hmem)
  case rename =>
    -- an entry with a name is not the last, and so the name was granted to its class
    intro name hname
    have hentry := mem_of_mem_chainExcerpts hx
    rcases h.zip_names with hnil | ⟨last, hzip⟩
    · rw [hnil] at hentry
      cases hentry
    · rw [hzip, hname] at hentry
      rcases List.mem_append.1 hentry with hentry | hentry
      · obtain ⟨⟨m, name'⟩, hzip', heq⟩ := List.mem_map.1 hentry
        obtain ⟨rfl, hname'⟩ := Prod.mk.inj heq
        obtain rfl := Option.some.inj hname'
        exact ⟨constructorKey, h.granted_of_mem_zip hzip'⟩
      · simp at hentry
  case edits =>
    refine ⟨[], _, by rw [hedits, List.append_assoc]; rfl, fun e he => ?_⟩
    -- an edit is for a call of the constructor before, or for the new name
    rcases List.mem_append.1 (by simpa using he) with he | he
    · rw [← h.constructorCopies] at hprevious
      exact .inr ⟨hmem, previous?, he, hprevious.imp_left And.left⟩
    · cases hname : x.rename with
      | none => simp [hname] at he
      | some name => exact .inl ⟨name, rfl, by simpa [hname] using he⟩

theorem rendering_of_mem_copies (h : Outcome s l p names c) {x : Excerpt} (hx : x ∈ p.copies) :
    Rendering s l p c x := by
  have hfinished := h.finished x hx
  obtain ⟨name, hname, hedits⟩ := hfinished.edits
  constructor
  case renders => exact .inr ⟨x, hx, rfl⟩
  case settles => exact hfinished.settles
  case rename =>
    intro name' hname'
    obtain ⟨name'', hname'', hget⟩ := h.valid.renamed x hx
    obtain rfl := Option.some.inj (hname'.symm.trans hname'')
    exact ⟨_, hget⟩
  case edits =>
    refine ⟨x.member.renameEdits name, [], by simpa using hedits, fun e he => ?_⟩
    exact .inl ⟨name, hname, by simpa using he⟩

/-- What is written out: members in effect, copies, and the chain of constructors. -/
theorem mem_cases (h : Outcome s l p names c) {x : Excerpt} (hx : x ∈ c.excerpts) :
    (∃ m ∈ l.members.toList, m.kind ≠ .constructor ∧ x = p.memberExcerpt l m) ∨ x ∈ p.copies ∨
      x ∈ p.chainExcerpts s l none (l.constructors.zip (names.map some ++ [none])) := by
  rw [Resolution.excerpts, List.mem_append, List.mem_append] at hx
  rcases hx with (hx | hx) | hx
  · -- in the place of the constructor there is the last of the chain
    obtain ⟨y, hy, hx⟩ := List.mem_flatMap.1 hx
    rw [h.members] at hy
    obtain ⟨m, hm, rfl⟩ := List.mem_map.1 hy
    by_cases hk : m.kind = .constructor
    · rw [if_pos (show (p.memberExcerpt l m).member.kind = .constructor from hk), h.constructor,
        Option.mem_toList] at hx
      exact .inr (.inr (List.mem_of_getLast? hx))
    · rw [if_neg (show ¬ (p.memberExcerpt l m).member.kind = .constructor from hk)] at hx
      exact .inl ⟨m, hm, hk, List.mem_singleton.1 hx⟩
  · exact .inr (.inl (h.copies ▸ hx))
  · rw [h.constructorCopies] at hx
    exact .inr (.inr ((List.dropLast_sublist _).mem hx))

/-- Every excerpt of a resolved class is such a rendering. -/
theorem rendering (h : Outcome s l p names c) {x : Excerpt} (hx : x ∈ c.excerpts) :
    Rendering s l p c x := by
  rcases h.mem_cases hx with ⟨m, hm, hk, rfl⟩ | hx | hx
  · -- a member has a rendering without a new name
    have hwritten : m ∈ l.written :=
      List.mem_append_left _ (List.mem_filter.2 ⟨hm, by simpa using hk⟩)
    refine ⟨.inl hwritten, h.settles m hwritten, fun name hname => ?_, [], [], ?_, by simp⟩
    · cases hname
    · simp [memberExcerpt, hk]
  · exact h.rendering_of_mem_copies hx
  · exact h.rendering_of_mem_chain hx

/-- A member in effect has its excerpt, and the constructor gives its place to the last of the
chain. -/
theorem mem_excerpts (h : Outcome s l p names c) {m : Member} (hm : m ∈ l.members.toList)
    {x : Excerpt}
    (hx : if m.kind = .constructor then c.constructor = some x else x = p.memberExcerpt l m) :
    x ∈ c.excerpts := by
  rw [Resolution.excerpts, List.mem_append, List.mem_append]
  refine .inl (.inl (List.mem_flatMap.2 ⟨p.memberExcerpt l m, ?_, ?_⟩))
  · rw [h.members]
    exact List.mem_map_of_mem hm
  · change x ∈ if m.kind = .constructor then c.constructor.toList else [p.memberExcerpt l m]
    by_cases hk : m.kind = .constructor
    · rw [if_pos hk] at hx ⊢
      exact Option.mem_toList.2 hx
    · rw [if_neg hk] at hx ⊢
      exact List.mem_singleton.2 hx

/-- Every constructor has its excerpt: the last as the constructor in effect, the others as
methods. -/
theorem exists_excerpt_of_mem_constructors (h : Outcome s l p names c)
    (hlast : l.members.constructor = l.constructors.getLast?)
    (hkind : ∀ m ∈ l.constructors, m.kind = .constructor) {m : Member} (hm : m ∈ l.constructors) :
    ∃ x ∈ c.excerpts, x.member = m := by
  have hk := hkind m hm
  have hchain := h.map_member_chain
  have hconstructor := h.constructor
  have hcopies := h.constructorCopies
  generalize p.chainExcerpts s l none (l.constructors.zip (names.map some ++ [none])) = chain
    at hchain hconstructor hcopies
  rw [← hchain] at hm
  obtain ⟨x, hx, rfl⟩ := List.mem_map.1 hm
  obtain ⟨front, last, rfl⟩ := (List.eq_nil_or_concat chain).resolve_left (List.ne_nil_of_mem hx)
  rw [List.concat_eq_append] at hx hchain hconstructor hcopies
  rw [List.getLast?_concat] at hconstructor
  rw [List.dropLast_concat] at hcopies
  rcases List.mem_append.1 hx with hx | hx
  · -- all but the last are written as methods
    refine ⟨x, List.mem_append_right _ ?_, rfl⟩
    rw [hcopies]
    exact hx
  · -- the last is the constructor in effect, and it has its place among the members
    obtain rfl := List.mem_singleton.1 hx
    have heffect : l.members.constructor = some x.member := by
      rw [hlast, ← hchain, List.map_append, List.map_singleton, List.getLast?_concat]
    refine ⟨x, h.mem_excerpts (Members.mem_toList.2 (.inr heffect)) ?_, rfl⟩
    rw [if_pos hk]
    exact hconstructor

/-- Whatever is to be written out has its excerpt. -/
theorem exists_excerpt (h : Outcome s l p names c)
    (hlast : l.members.constructor = l.constructors.getLast?)
    (hkind : ∀ m ∈ l.constructors, m.kind = .constructor) {m : Member}
    (hm : p.Renders l.written m) : ∃ x ∈ c.excerpts, x.member = m := by
  rcases hm with hm | ⟨y, hy, rfl⟩
  · rcases List.mem_append.1 hm with hm | hm
    · obtain ⟨hmem, hfilter⟩ := List.mem_filter.1 hm
      have hk : m.kind ≠ .constructor := by simpa using hfilter
      refine ⟨p.memberExcerpt l m, h.mem_excerpts hmem ?_, rfl⟩
      rw [if_neg hk]
    · exact h.exists_excerpt_of_mem_constructors hlast hkind hm
  · refine ⟨y, List.mem_append_left _ (List.mem_append_right _ ?_), rfl⟩
    rw [h.copies]
    exact hy

/-- A constructor that became a method has the name granted to its class, and carries the edit of
it. -/
theorem constructorCopy (h : Outcome s l p names c) {y : Excerpt} (hy : y ∈ c.constructorCopies) :
    y.member ∈ l.constructors ∧ ∃ name, y.rename = some name ∧
      p.names.granted.get? (y.member.owner, constructorKey) = some name ∧
      ∀ e ∈ y.member.renameEdits name, e ∈ y.edits := by
  rw [h.constructorCopies] at hy
  have hchain := (List.dropLast_sublist _).mem hy
  -- a copy is not the last of the chain, and so it has an entry with a name
  have hentry :
      (y.member, y.rename) ∈ (l.constructors.zip (names.map some ++ [none])).dropLast := by
    rw [← map_chainExcerpts (s := s) (l := l) (p := p) none (l.constructors.zip _),
      ← List.map_dropLast]
    exact List.mem_map_of_mem (f := fun x : Excerpt => (x.member, x.rename)) hy
  refine ⟨(List.of_mem_zip (mem_of_mem_chainExcerpts hchain)).1, ?_⟩
  rcases h.zip_names with hnil | ⟨last, hzip⟩
  · rw [hnil] at hentry
    cases hentry
  · rw [hzip, List.dropLast_concat] at hentry
    obtain ⟨⟨m, name⟩, hzip', heq⟩ := List.mem_map.1 hentry
    obtain ⟨rfl, hname⟩ := Prod.mk.inj heq
    obtain ⟨previous?, hedits, -⟩ := edits_of_mem_chainExcerpts hchain
    refine ⟨name, hname.symm, h.granted_of_mem_zip hzip', fun e he => ?_⟩
    rw [hedits, ← hname]
    exact List.mem_append_right _ he

end Outcome

end Disinherit
