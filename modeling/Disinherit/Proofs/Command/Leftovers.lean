import Disinherit.Proofs.Command.Splitting
import Disinherit.Proofs.Compile.Failure

/-!
# What a failed split leaves behind

A split that fails should leave no files. It looks at all paths before it creates the first file,
and what it finds in the way of any of them keeps it from creating one. But a path at which nothing
is need not be one at which a file can be created: its name may be too long, and two fragments may
ask for the same file. Such a fragment stops the work only when its turn comes, and then the files
of the fragments before it are there.

`createAll_stops` follows the run: the files that have been created are those of the fragments in
front of the first one that is blocked (`Directory.Blocks`), by its own path or by one of them. So a
failed split leaves files exactly if nothing is in the way, the path of the first fragment leads
somewhere, and the path of another one leads nowhere or two lead to the same place
(`Directory.BreaksOff`, `leftBehind_split`). Two classes of one name are enough
(`not_sameFiles_namesakes`).
-/

namespace Disinherit

namespace Directory

/-- The files are the same, with the same content. -/
def SameFiles (before after : Directory) : Prop :=
  ∀ loc content, after.entry? loc = some (.file content) ↔ before.entry? loc = some (.file content)

/-- No file can be created for a fragment, because its path leads nowhere, or because one of the
fragments before it has its place. -/
def Blocks (d : Directory) (dir : String) (done : List Fragment) (f : Fragment) : Prop :=
  d.locate? (f.path dir) = none ∨ ∃ g ∈ done, d.locate? (g.path dir) = d.locate? (f.path dir)

/-- Creating the files of some fragments breaks off half way: nothing is in the way of any of them,
and the first can be created, but not all. -/
structure BreaksOff (d : Directory) (dir : String) (fs : List Fragment) : Prop where
  free : ∀ f ∈ fs, d.pathExists (f.path dir) = false
  starts : ∃ f ∈ fs.head?, d.locate? (f.path dir) ≠ none
  stops : (∃ f ∈ fs, d.locate? (f.path dir) = none) ∨
    ¬ (fs.map fun f => d.locate? (f.path dir)).Nodup

/-- The new files are those of the fragments in front of the first one that is blocked. There are
some. -/
def LeavesFiles (dir : String) (fs : List Fragment) (before after : Directory) : Prop :=
  ∃ done f rest, fs = done ++ f :: rest ∧ done ≠ [] ∧ after.Blocks dir done f ∧
    ∀ loc content, after.entry? loc = some (.file content) ↔
      before.entry? loc = some (.file content) ∨
      ∃ g ∈ done, after.locate? (g.path dir) = some loc ∧ content = Text.encode (g.code ++ "\n")

end Directory

/-- What a split with a status leaves behind if it fails. -/
structure LeftBehind (dir : String) (fs : List Fragment) (before after : Directory) (status : Nat) :
    Prop where
  status_cases : status = 0 ∨ status = 1
  /-- A name that is too long, or one that comes twice, makes a split fail. -/
  fails : (∃ f ∈ fs, '/' ∉ f.name.toList ∧ Directory.longestName < (f.name ++ ".js").utf8ByteSize) ∨
    ¬ (fs.map (·.name)).Nodup → status = 1
  /-- A failure leaves no file, unless the directory can be made and creating the files breaks
  off. -/
  nothing_iff : (status = 1 → before.SameFiles after) ↔
    ¬ ((before.makeDirectories dir).1 = true ∧ (before.makeDirectories dir).2.BreaksOff dir fs)
  /-- In that case it does leave files. -/
  leaves : (before.makeDirectories dir).1 = true → (before.makeDirectories dir).2.BreaksOff dir fs →
    status = 1 ∧ before.LeavesFiles dir fs after

/-! ### Where creating files stops -/

section Stops

variable {dir : String} {d d' before : Directory} {f : Fragment} {fs done rest : List Fragment}

/-- **Creating files goes on until one cannot be created.** -/
theorem createAll_stops (dir : String) (fs : List Fragment) (w : World)
    (hd : ((createAll dir fs : StateM World (Option CommandError)).run w).2.directory = d) :
    ∃ done rest, fs = done ++ rest ∧ w.directory.Gains dir done d ∧
      ∀ f ∈ rest.head?, ∀ loc, d.locate? (f.path dir) = some loc → d.entry? loc ≠ none := by
  induction fs generalizing w with
  | nil =>
    subst hd
    exact ⟨[], [], rfl, .nil _, fun f hf => by cases hf⟩
  | cons f fs ih =>
    rcases run_createAll_cons dir f fs w with ⟨loc, located, free, hrun⟩ | ⟨hbusy, e, -, hrun⟩
    · -- the others are created in a directory that has the file
      rw [hrun] at hd
      obtain ⟨done, rest, hfs, hgains, hstop⟩ := ih _ hd
      exact ⟨f :: done, rest, congrArg (f :: ·) hfs, .cons located free hgains, hstop⟩
    · -- the run ends here, and the directory is as it was
      rw [hrun] at hd
      subst hd
      refine ⟨[], f :: fs, rfl, .nil _, fun g hg => ?_⟩
      obtain rfl : f = g := Option.some.inj hg
      exact hbusy

namespace Directory

/-- If nothing was in the way before the files were created, one of them is. -/
theorem Gains.blocks (h : d.Gains dir done d') (hfree : d.pathExists (f.path dir) = false)
    (hstop : ∀ loc, d'.locate? (f.path dir) = some loc → d'.entry? loc ≠ none) :
    d.Blocks dir done f := by
  cases hlocated : d.locate? (f.path dir) with
  | none => exact .inl hlocated
  | some loc =>
    have hentry := entry?_eq_none hlocated hfree
    -- what is at the location now was there before, or is one of the new files
    rcases h.entry?_cases loc with hsame | ⟨g, hg, hgloc, -⟩
    · exact absurd (hsame.trans hentry) (hstop loc ((h.locate?_eq _).trans hlocated))
    · exact .inr ⟨g, hg, hgloc.trans hlocated.symm⟩

/-- A fragment that is blocked has no room. -/
theorem not_hasRoom_of_blocks (h : d.Blocks dir done f) : ¬ d.HasRoom dir (done ++ f :: rest) := by
  intro hroom
  rcases h with hnowhere | ⟨g, hg, hsame⟩
  · -- `f` has no location
    obtain ⟨loc, hloc, -⟩ := hroom.free f (List.mem_append_right _ List.mem_cons_self)
    cases hnowhere.symm.trans hloc
  · -- or it shares the one of an earlier fragment
    have hapart := hroom.apart
    rw [List.map_append, List.nodup_append] at hapart
    exact hapart.2.2 _ (List.mem_map_of_mem hg) _ (List.mem_map_of_mem List.mem_cons_self) hsame

/-- Where nothing is in the way, there is room if the paths lead somewhere, and not to the same
place. -/
theorem hasRoom_iff_of_free (hfree : ∀ f ∈ fs, d.pathExists (f.path dir) = false) :
    d.HasRoom dir fs ↔ ¬ ((∃ f ∈ fs, d.locate? (f.path dir) = none) ∨
      ¬ (fs.map fun f => d.locate? (f.path dir)).Nodup) := by
  constructor
  · rintro hroom (⟨f, hf, hnowhere⟩ | hshared)
    · obtain ⟨loc, hloc, -⟩ := hroom.free f hf
      cases hnowhere.symm.trans hloc
    · exact hshared hroom.apart
  · intro h
    obtain ⟨hsomewhere, hapart⟩ := not_or.1 h
    -- where a path leads, nothing is, since it does not exist
    refine ⟨fun f hf => ?_, not_not.1 hapart⟩
    obtain ⟨loc, hloc⟩ := Option.ne_none_iff_exists'.1 fun hnone => hsomewhere ⟨f, hf, hnone⟩
    exact ⟨loc, hloc, entry?_eq_none hloc (hfree f hf)⟩

/-- If a fragment is blocked, work breaks off there, provided that it is not the first. -/
theorem breaksOff_iff (hfree : ∀ g ∈ done ++ f :: rest, d.pathExists (g.path dir) = false)
    (hgains : d.Gains dir done d') (hblocks : d.Blocks dir done f) :
    d.BreaksOff dir (done ++ f :: rest) ↔ done ≠ [] := by
  constructor
  · rintro h rfl
    -- the fragment in the way would be the first, which has a location of its own
    obtain ⟨g, hg, hsomewhere⟩ := h.starts
    obtain rfl : f = g := Option.some.inj hg
    rcases hblocks with hnowhere | ⟨g, hg, -⟩
    · exact hsomewhere hnowhere
    · cases hg
  · intro hne
    -- the first fragment has been written, so that its path leads somewhere
    obtain ⟨g, done', rfl⟩ := List.exists_cons_of_ne_nil hne
    obtain ⟨loc, hloc, -⟩ := hgains.exists_of_mem List.mem_cons_self
    refine ⟨hfree, ⟨g, rfl, ?_⟩, ?_⟩
    · rw [hloc]
      exact Option.some_ne_none loc
    · by_contra h
      exact not_hasRoom_of_blocks hblocks ((hasRoom_iff_of_free hfree).2 h)

/-! ### Files before and after -/

theorem Grows.sameFiles (h : before.Grows d) : before.SameFiles d :=
  fun loc content => ⟨h.adds loc content, h.keeps loc _⟩

theorem Gains.not_sameFiles (h : d.Gains dir done d') (hgrows : before.Grows d) (hne : done ≠ []) :
    ¬ before.SameFiles d' := by
  intro hsame
  obtain ⟨g, hg⟩ := List.exists_mem_of_ne_nil done hne
  obtain ⟨loc, -, hfree, hentry⟩ := h.exists_of_mem hg
  cases hfree.symm.trans (hgrows.keeps loc _ ((hsame loc _).1 hentry))

/-- A name that is too long leads nowhere. -/
theorem locate?_eq_none_of_long (hdir : dir ≠ "") (hname : '/' ∉ f.name.toList)
    (hlong : longestName < (f.name ++ ".js").utf8ByteSize) : d.locate? (f.path dir) = none := by
  cases hlocated : d.locate? (f.path dir) with
  | none => rfl
  | some loc =>
    obtain ⟨home, -, hstep⟩ := exists_home hdir (notMem_fileName hname) hlocated
    -- a step to a plain name is taken only if the name is short enough
    have hshort := (eq_of_step? (isPlain_fileName f.name) hstep).2
    rw [isShort, decide_eq_true_eq] at hshort
    omega

/-- There is no room for names that are too long, nor for two of one name. -/
theorem not_hasRoom_of_names (hdir : dir ≠ "")
    (h : (∃ f ∈ fs, '/' ∉ f.name.toList ∧ longestName < (f.name ++ ".js").utf8ByteSize) ∨
      ¬ (fs.map (·.name)).Nodup) : ¬ d.HasRoom dir fs := by
  intro hroom
  rcases h with ⟨f, hf, hname, hlong⟩ | hrepeated
  · obtain ⟨loc, hloc, -⟩ := hroom.free f hf
    cases (locate?_eq_none_of_long hdir hname hlong).symm.trans hloc
  · exact hrepeated (nodup_names hroom.apart)

end Directory

/-! ### The three ends of a split -/

namespace LeftBehind

variable {after : Directory}

/-- A split that fails before it creates a file. -/
theorem of_sameFiles (hsame : before.SameFiles after)
    (hnot : ¬ ((before.makeDirectories dir).1 = true ∧
      (before.makeDirectories dir).2.BreaksOff dir fs)) :
    LeftBehind dir fs before after 1 where
  status_cases := .inr rfl
  fails _ := rfl
  nothing_iff := iff_of_true (fun _ => hsame) hnot
  leaves hmade hbreaks := absurd ⟨hmade, hbreaks⟩ hnot

/-- A split that succeeds. -/
theorem of_hasRoom (hmade : (before.makeDirectories dir).1 = true)
    (hroom : (before.makeDirectories dir).2.HasRoom dir fs) : LeftBehind dir fs before after 0 := by
  have hnot : ¬ (before.makeDirectories dir).2.BreaksOff dir fs := fun h =>
    (Directory.hasRoom_iff_of_free h.free).1 hroom h.stops
  exact
    { status_cases := .inl rfl
      fails := fun h => by
        have hdir := Directory.ne_empty_of_makeDirectories hmade
        exact absurd hroom (Directory.not_hasRoom_of_names hdir h)
      nothing_iff := iff_of_true nofun fun h => hnot h.2
      leaves := fun _ h => absurd h hnot }

/-- A split that creates files until one is blocked. -/
theorem of_gains (hmade : (before.makeDirectories dir).1 = true)
    (hfree : ∀ g ∈ done ++ f :: rest,
      (before.makeDirectories dir).2.pathExists (g.path dir) = false)
    (hgains : (before.makeDirectories dir).2.Gains dir done after)
    (hblocks : (before.makeDirectories dir).2.Blocks dir done f) :
    LeftBehind dir (done ++ f :: rest) before after 1 := by
  have hgrows := before.grows_makeDirectories dir
  have hbreaks := Directory.breaksOff_iff hfree hgains hblocks
  by_cases hne : done = []
  · -- the very first file could not be created, and nothing is left behind
    subst hne
    cases hgains
    exact of_sameFiles hgrows.sameFiles fun h => hbreaks.1 h.2 rfl
  · -- some files were created, and they stay
    have hleaves : before.LeavesFiles dir (done ++ f :: rest) after := by
      refine ⟨done, f, rest, rfl, hne, ?_, fun loc content => ?_⟩
      · simpa only [Directory.Blocks, hgains.locate?_eq] using hblocks
      · rw [hgains.file_iff, ← hgrows.sameFiles loc content]
    exact
      { status_cases := .inr rfl
        fails := fun _ => rfl
        nothing_iff := iff_of_false (fun h => hgains.not_sameFiles hgrows hne (h rfl))
          (not_not.2 ⟨hmade, hbreaks.2 hne⟩)
        leaves := fun _ _ => ⟨rfl, hleaves⟩ }

/-- Once the directory has been made, the fragments decide. -/
theorem of_writes {outcome : Option CommandError} {w w' : World}
    (hmade : (before.makeDirectories dir).1 = true)
    (hw : w.directory = (before.makeDirectories dir).2)
    (hrun : (writeFragments dir fs : StateM World (Option CommandError)).run w = (outcome, w'))
    (hwrites : Writes dir fs w.directory w'.directory outcome)
    (hbusy : (∃ f ∈ fs, w.directory.pathExists (f.path dir) = true) → w'.directory = w.directory) :
    LeftBehind dir fs before w'.directory (outcome.elim 0 CommandError.status) := by
  by_cases hfree : ∀ f ∈ fs, w.directory.pathExists (f.path dir) = false
  · rw [run_writeFragments_of_free hfree] at hrun
    obtain ⟨done, rest, rfl, hgains, hstop⟩ :=
      createAll_stops dir fs w (congrArg (·.2.directory) hrun)
    cases rest with
    | nil =>
      -- nothing is left to create
      rw [List.append_nil] at hwrites ⊢
      have hroom := Directory.exists_gains_iff.1 ⟨_, hgains⟩
      obtain rfl := hwrites.none_iff.2 hroom
      exact of_hasRoom hmade (hw ▸ hroom)
    | cons f rest =>
      -- the first fragment that is left could not be written
      have hfirst := hfree f (List.mem_append_right _ List.mem_cons_self)
      have hblocks := hgains.blocks hfirst (hstop f rfl)
      have hfails := hwrites.status_eq_one fun hnone =>
        Directory.not_hasRoom_of_blocks hblocks (hwrites.none_iff.1 hnone)
      rw [hfails]
      rw [hw] at hfree hgains hblocks
      exact of_gains hmade hfree hgains hblocks
  · -- something is in the way, and so nothing is written
    obtain ⟨f, hf, hexists⟩ : ∃ f ∈ fs, w.directory.pathExists (f.path dir) = true := by
      simpa using hfree
    have hfails := hwrites.status_eq_one fun hnone =>
      Directory.not_hasRoom_of_pathExists hf hexists (hwrites.none_iff.1 hnone)
    rw [hfails, hbusy ⟨f, hf, hexists⟩]
    rw [hw] at hfree ⊢
    exact of_sameFiles (before.grows_makeDirectories dir).sameFiles fun h => hfree h.2.free

end LeftBehind

end Stops

/-- **A failed split leaves files exactly if it breaks off.** -/
theorem leftBehind_split {w : World} {text : String} {s : Script} (dir : String)
    (hs : Script.ofTree text w.tree = .ok s) (htree : w.tree.OnBoundaries (.ofText text)) :
    ∃ fs status w', s.fragments = .ok fs ∧
      (split dir text : StateM World (Attempt Nat)).run w = (.ok status, w') ∧
      LeftBehind dir fs w.directory w'.directory status := by
  obtain ⟨fs, hfs⟩ := Script.succeeds_fragments (Script.onBoundaries_of_ofTree hs htree)
  cases hmade : (w.directory.makeDirectories dir).1 with
  | false =>
    obtain ⟨err, hrun⟩ := run_split_of_splitInto (run_splitInto_of_not_made text hmade)
    -- the directory cannot be made, and so nothing is written
    have hsame := (w.directory.grows_makeDirectories dir).sameFiles
    refine ⟨fs, _, _, hfs, hrun, .of_sameFiles hsame fun h => ?_⟩
    cases hmade.symm.trans h.1
  | true =>
    obtain ⟨outcome, d', hwrite, hwrites, hbusy⟩ :=
      writeFragments_spec dir fs (w.withDirectories dir).parsed
    obtain ⟨err, hrun⟩ := run_split_of_splitInto (run_splitInto_of_made hmade hs hfs hwrite)
    have hleft := LeftBehind.of_writes hmade rfl hwrite hwrites hbusy
    exact ⟨fs, _, _, hfs, hrun, hleft⟩

/-! ### Classes of one name -/

/-- The parser gives the tree of a script, and no files are there. -/
def Script.freshWorld (s : Script) : World where
  trees := [s.root]

/-- One fragment for each of two classes of one name. -/
def namesakeFragments : List Fragment :=
  [⟨"A", "export default class A\x7b\x7d"⟩, ⟨"A", "export default class A\x7b\x7d"⟩]

/-- Two classes of one name leave the file of the first. If it is a file in the way of the second of
two classes that makes a split fail, nothing is left. -/
theorem leftBehind_namesakes :
    (∃ w', (split "out" namesakes.source.text : StateM World (Attempt Nat)).run namesakes.freshWorld
        = (.ok 1, w') ∧
      namesakes.freshWorld.directory.LeavesFiles "out" namesakeFragments w'.directory) ∧
    ∃ w', (split "out" twoClasses.source.text : StateM World (Attempt Nat)).run
        (twoClassesBeside "B.js") = (.ok 1, w') ∧
      (twoClassesBeside "B.js").directory.SameFiles w'.directory := by
  constructor
  · have htree : namesakes.root.OnBoundaries (.ofText namesakes.source.text) := by decide +kernel
    have hfragments : namesakes.fragments = .ok namesakeFragments := by decide +kernel
    obtain ⟨fs, status, w', hfs, hrun, hleft⟩ :=
      leftBehind_split (w := namesakes.freshWorld) (s := namesakes) "out" rfl htree
    obtain rfl : namesakeFragments = fs := Except.ok.inj (hfragments.symm.trans hfs)
    obtain ⟨rfl, hleaves⟩ := hleft.leaves (by decide +kernel)
      ⟨by decide +kernel, by decide +kernel, .inr (by decide +kernel)⟩
    exact ⟨w', hrun, hleaves⟩
  · have htree : twoClasses.root.OnBoundaries (.ofText twoClasses.source.text) := by decide +kernel
    have hfragments : twoClasses.fragments = .ok twoFragments := by decide +kernel
    obtain ⟨fs, status, w', hfs, hrun, hleft⟩ :=
      leftBehind_split (w := twoClassesBeside "B.js") (s := twoClasses) "out" rfl htree
    obtain rfl : twoFragments = fs := Except.ok.inj (hfragments.symm.trans hfs)
    -- `B.js` is there already, and nothing is written
    obtain rfl : status = 1 :=
      Except.ok.inj ((congrArg Prod.fst hrun).symm.trans (by decide +kernel))
    have hfree : ¬ ∀ f ∈ twoFragments,
        ((twoClassesBeside "B.js").directory.makeDirectories "out").2.pathExists (f.path "out")
          = false := by
      decide +kernel
    exact ⟨w', hrun, hleft.nothing_iff.2 (fun h => hfree h.2.free) rfl⟩

/-- The split of two classes of one name fails, and a file is there that was not there before. -/
theorem not_sameFiles_namesakes :
    Script.ofTree namesakes.source.text namesakes.root = .ok namesakes ∧
    ∃ w', (split "out" namesakes.source.text : StateM World (Attempt Nat)).run namesakes.freshWorld
        = (.ok 1, w') ∧
      ¬ namesakes.freshWorld.directory.SameFiles w'.directory := by
  refine ⟨rfl, _, Prod.ext (by decide +kernel) rfl, fun hsame => ?_⟩
  have hentry : Directory.entry?
      ((split "out" namesakes.source.text : StateM World (Attempt Nat)).run
        namesakes.freshWorld).2.directory ["out", "A.js"]
        = some (.file (Text.encode "export default class A\x7b\x7d\n")) := by
    decide +kernel
  cases (hsame _ _).1 hentry

end Disinherit
