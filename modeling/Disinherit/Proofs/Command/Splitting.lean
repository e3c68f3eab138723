import Disinherit.Proofs.Command.World
import Disinherit.Proofs.Compile.Reading
import Disinherit.Proofs.Directory
import Disinherit.Proofs.Tree.Samples
import Mathlib.Data.List.Nodup

/-!
# Splitting a script into files

A split looks at all paths first and creates the files afterwards, one after the other. Creating a
file can fail although the path was free when it was looked at: a name may be too long, and two
fragments of one name want the same file. `Directory.Gains` says what a directory has gained when
some fragments were written: each a file of its own, at the location of its path, where nothing was.
Whatever happens, the directory gains the files of the fragments in front of the one that could not
be written (`createAll_spec`).

A new file does not change where paths lead. So it can be told beforehand whether all files can be
created: there is room for them (`Directory.HasRoom`) if each path leads to a location where nothing
is, and no two to the same one (`exists_gains_iff`). Making the directory itself only adds
directories (`Directory.Grows`). Together this gives the whole effect of a split (`SplitsCleanly`):
no file is changed, a file that is in the way stops everything, and a split that succeeds has
created just the files that it should.

In which directory a file is does not follow from its path being made of two parts: the path of the
directory may end with slashes or lead to it by a detour. `exists_home` compares the steps of the
two paths.
-/

namespace Disinherit

namespace Directory

/-- Each fragment has a location of its own, where nothing is. -/
structure HasRoom (d : Directory) (dir : String) (fs : List Fragment) : Prop where
  free : ∀ f ∈ fs, ∃ loc, d.locate? (f.path dir) = some loc ∧ d.entry? loc = none
  apart : (fs.map fun f => d.locate? (f.path dir)).Nodup

/-- The directory `d'` is `d` with the files of some fragments, created in turn where nothing
was. -/
inductive Gains (dir : String) : Directory → List Fragment → Directory → Prop
  | nil (d : Directory) : Gains dir d [] d
  | cons {d d' : Directory} {f : Fragment} {fs : List Fragment} {loc : Location}
      (located : d.locate? (f.path dir) = some loc) (free : d.entry? loc = none)
      (rest : Gains dir (d.put loc (.file (Text.encode f.content))) fs d') : Gains dir d
      (f :: fs) d'

end Directory

/-- All fragments have been written. -/
structure WritesAll (dir : String) (fs : List Fragment) (before after : Directory) : Prop where
  /-- No name comes twice. -/
  distinct : (fs.map (·.name)).Nodup
  /-- The file of a fragment is new, and has its code and a line feed. -/
  created : ∀ f ∈ fs, before.pathExists (f.path dir) = false ∧
    after.read? (f.path dir) = some (Text.encode (f.code ++ "\n"))
  /-- Each fragment has a file of its own. -/
  apart : (fs.map fun f => after.locate? (f.path dir)).Nodup
  /-- The file is in the directory, under the name of the class. -/
  inside : ∀ f ∈ fs, '/' ∉ f.name.toList → ∃ home, after.locate? dir = some home ∧
    after.locate? (f.path dir) = some (home ++ [f.name ++ ".js"])

/-- What a split with a status does to the files. -/
structure SplitsCleanly (dir : String) (fs : List Fragment) (before after : Directory)
    (status : Nat) : Prop where
  status_cases : status = 0 ∨ status = 1
  /-- The split succeeds if the directory can be made and has room. -/
  succeeds_iff : status = 0 ↔
    (before.makeDirectories dir).1 = true ∧ (before.makeDirectories dir).2.HasRoom dir fs
  /-- No file is touched, whatever the status is. -/
  keeps : ∀ loc content, before.entry? loc = some (.file content) →
    after.entry? loc = some (.file content)
  /-- A file that is new is that of a fragment, whole, whatever the status is. -/
  adds : ∀ loc content, after.entry? loc = some (.file content) →
    before.entry? loc = some (.file content) ∨
    ∃ f ∈ fs, after.locate? (f.path dir) = some loc ∧ content = Text.encode (f.code ++ "\n")
  /-- If anything is in the place of one of the files, none is created. -/
  refuses : (∃ f ∈ fs, before.pathExists (f.path dir) = true) → status = 1 ∧
    ∀ loc content, after.entry? loc = some (.file content) →
      before.entry? loc = some (.file content)
  /-- A split that succeeds has written all fragments. -/
  complete : status = 0 → WritesAll dir fs before after

/-! ### Creating files -/

namespace Directory.Gains

variable {dir : String} {d d' : Directory} {fs : List Fragment} {f : Fragment} {loc : Location}

/-- New files are on nobody's way. -/
theorem locate?_eq (h : Gains dir d fs d') (path : String) : d'.locate? path = d.locate? path := by
  induction h with
  | nil => rfl
  | cons located free rest ih => rw [ih, locate?_put_file free]

/-- What was there stays. -/
theorem keeps (h : Gains dir d fs d') {e : DirectoryEntry} (he : d.entry? loc = some e) :
    d'.entry? loc = some e := by
  induction h with
  | nil => exact he
  | @cons d d' f fs loc' located free rest ih =>
    -- the new file went where nothing was, and at `loc` there is an entry
    have hne : loc ≠ loc' := by
      rintro rfl
      cases free.symm.trans he
    exact ih (by rw [entry?_put free, if_neg hne, he])

/-- What is new is the file of a fragment. -/
theorem entry?_cases (h : Gains dir d fs d') (loc : Location) :
    d'.entry? loc = d.entry? loc ∨
      ∃ f ∈ fs, d.locate? (f.path dir) = some loc ∧
        d'.entry? loc = some (.file (Text.encode f.content)) := by
  induction h with
  | nil => exact .inl rfl
  | @cons d d' f fs loc' located free rest ih =>
    rcases ih with hsame | ⟨g, hg, hlocated, hentry⟩
    · -- the later files leave the location alone, so that it is that of the first or of none
      rw [hsame, entry?_put free]
      by_cases hloc : loc = loc'
      · subst hloc
        exact .inr ⟨f, List.mem_cons_self, located, if_pos rfl⟩
      · exact .inl (if_neg hloc)
    · rw [locate?_put_file free] at hlocated
      exact .inr ⟨g, List.mem_cons_of_mem _ hg, hlocated, hentry⟩

/-- The file of a fragment is where its path leads, and holds its content. -/
theorem exists_of_mem (h : Gains dir d fs d') (hf : f ∈ fs) :
    ∃ loc, d.locate? (f.path dir) = some loc ∧ d.entry? loc = none ∧
      d'.entry? loc = some (.file (Text.encode f.content)) := by
  induction h with
  | nil => cases hf
  | @cons d d' g fs loc' located free rest ih =>
    rcases List.mem_cons.1 hf with rfl | hf
    · -- the first file: those created after it leave it as it is
      refine ⟨loc', located, free, rest.keeps ?_⟩
      rw [entry?_put free, if_pos rfl]
    · -- a later one: what was free after the first file had been free before
      obtain ⟨loc, hlocated, hfree, hentry⟩ := ih hf
      rw [locate?_put_file free] at hlocated
      rw [entry?_put free] at hfree
      split at hfree
      · cases hfree
      · exact ⟨loc, hlocated, hfree, hentry⟩

/-- The files of the fragments that have been written are there, and no other new ones. -/
theorem file_iff (h : Gains dir d fs d') (loc : Location) (content : List UInt8) :
    d'.entry? loc = some (.file content) ↔ d.entry? loc = some (.file content) ∨
      ∃ g ∈ fs, d'.locate? (g.path dir) = some loc ∧ content = Text.encode (g.code ++ "\n") := by
  constructor
  · intro hfile
    rcases h.entry?_cases loc with hsame | ⟨g, hg, hloc, hentry⟩
    · exact .inl (hsame.symm.trans hfile)
    · refine .inr ⟨g, hg, (h.locate?_eq _).trans hloc, ?_⟩
      exact DirectoryEntry.file.inj (Option.some.inj (hfile.symm.trans hentry))
  · rintro (hfile | ⟨g, hg, hloc, rfl⟩)
    · exact h.keeps hfile
    · obtain ⟨loc', hloc', -, hentry⟩ := h.exists_of_mem hg
      obtain rfl : loc = loc' := Option.some.inj ((hloc.symm.trans (h.locate?_eq _)).trans hloc')
      exact hentry

/-- The first file stands in the way of a second one at its location. -/
theorem nodup (h : Gains dir d fs d') : (fs.map fun f => d.locate? (f.path dir)).Nodup := by
  induction h with
  | nil => exact List.nodup_nil
  | @cons d d' f fs loc' located free rest ih =>
    simp only [locate?_put_file free] at ih
    refine List.nodup_cons.2 ⟨fun hmem => ?_, ih⟩
    obtain ⟨g, hg, hsame⟩ := List.mem_map.1 hmem
    have hlocated' : d.locate? (g.path dir) = some loc' := hsame.trans located
    -- a later path leading to the same location would find the first file there
    obtain ⟨loc, hlocated, hfree, -⟩ := rest.exists_of_mem hg
    rw [locate?_put_file free, hlocated'] at hlocated
    obtain rfl : loc' = loc := Option.some.inj hlocated
    rw [entry?_put free, if_pos rfl] at hfree
    cases hfree

end Directory.Gains

namespace Directory

variable {dir : String} {d : Directory} {f : Fragment} {fs : List Fragment} {loc : Location}

/-- A file takes the room of no other. -/
theorem HasRoom.put (h : d.HasRoom dir (f :: fs)) (located : d.locate? (f.path dir) = some loc)
    (free : d.entry? loc = none) : (d.put loc (.file (Text.encode f.content))).HasRoom dir fs := by
  obtain ⟨hnew, hapart⟩ := List.nodup_cons.1 h.apart
  refine ⟨fun g hg => ?_, ?_⟩
  · obtain ⟨loc', located', free'⟩ := h.free g (List.mem_cons_of_mem _ hg)
    -- no other path leads to the location that has been taken
    have hne : loc' ≠ loc := by
      rintro rfl
      exact hnew (List.mem_map.2 ⟨g, hg, located'.trans located.symm⟩)
    refine ⟨loc', ?_, ?_⟩
    · rw [locate?_put_file free, located']
    · rw [entry?_put free, if_neg hne, free']
  · simp only [locate?_put_file free]
    exact hapart

/-- There is no room for a file where something is. -/
theorem not_hasRoom_of_pathExists (hf : f ∈ fs) (h : d.pathExists (f.path dir) = true) :
    ¬ d.HasRoom dir fs := by
  intro hroom
  obtain ⟨loc, located, free⟩ := hroom.free f hf
  obtain ⟨loc', e, located', hentry⟩ := pathExists_iff.1 h
  obtain rfl : loc = loc' := Option.some.inj (located.symm.trans located')
  cases free.symm.trans hentry

/-- **There is room for all files just if they can be created.** -/
theorem exists_gains_iff : (∃ d', Gains dir d fs d') ↔ d.HasRoom dir fs := by
  constructor
  · rintro ⟨d', h⟩
    refine ⟨fun f hf => ?_, h.nodup⟩
    obtain ⟨loc, hlocated, hfree, -⟩ := h.exists_of_mem hf
    exact ⟨loc, hlocated, hfree⟩
  · intro h
    -- each file that is created leaves room for those that come after it
    induction fs generalizing d with
    | nil => exact ⟨d, .nil d⟩
    | cons f fs ih =>
      obtain ⟨loc, located, free⟩ := h.free f List.mem_cons_self
      obtain ⟨d', hgains⟩ := ih (h.put located free)
      exact ⟨d', .cons located free hgains⟩

theorem hasRoom_cons_iff (located : d.locate? (f.path dir) = some loc)
    (free : d.entry? loc = none) :
    d.HasRoom dir (f :: fs) ↔ (d.put loc (.file (Text.encode f.content))).HasRoom dir fs := by
  refine ⟨fun h => h.put located free, fun h => ?_⟩
  obtain ⟨d', hgains⟩ := exists_gains_iff.2 h
  exact exists_gains_iff.1 ⟨d', .cons located free hgains⟩

end Directory

section Split

variable {dir : String} {fs : List Fragment} {w : World}

/-! ### Looking and creating -/

/-- Looking finds the first path at which there is something. -/
theorem run_firstExisting? (paths : List String) (w : World) :
    (firstExisting? paths : StateM World (Option String)).run w
      = (paths.find? w.directory.pathExists, w) := by
  induction paths with
  | nil => rfl
  | cons path paths ih =>
    have hask : (Host.pathExists path : StateM World Bool).run w
        = (w.directory.pathExists path, w) := rfl
    rw [firstExisting?, World.run_bind hask, List.find?_cons]
    -- looking changes nothing, so that the search is one over a list of answers
    cases w.directory.pathExists path with
    | true => rfl
    | false => exact ih

/-- Some fragments have been written in turn, with an outcome. -/
structure Writes (dir : String) (fs : List Fragment) (before after : Directory)
    (outcome : Option CommandError) : Prop where
  /-- They are the first ones, and all if there is no error. -/
  gains : ∃ done, done <+: fs ∧ before.Gains dir done after ∧ (outcome = none → done = fs)
  none_iff : outcome = none ↔ before.HasRoom dir fs
  status_eq : ∀ e, outcome = some e → e.status = 1

/-- An error that comes before anything is written. -/
theorem Writes.of_not_hasRoom {d : Directory} {e : CommandError} (h : ¬ d.HasRoom dir fs)
    (he : e.status = 1) : Writes dir fs d d (some e) where
  gains := ⟨[], List.nil_prefix, .nil d, fun hnone => by cases hnone⟩
  none_iff := iff_of_false (Option.some_ne_none e) h
  status_eq e' he' := by rw [← Option.some.inj he', he]

/-- A file is created, and the others after it. -/
theorem Writes.cons {d d' : Directory} {f : Fragment} {loc : Location}
    {outcome : Option CommandError} (located : d.locate? (f.path dir) = some loc)
    (free : d.entry? loc = none)
    (h : Writes dir fs (d.put loc (.file (Text.encode f.content))) d' outcome) :
    Writes dir (f :: fs) d d' outcome where
  gains := by
    obtain ⟨done, hdone, hgains, hall⟩ := h.gains
    refine ⟨f :: done, List.cons_prefix_cons.2 ⟨rfl, hdone⟩, .cons located free hgains,
      fun hnone => ?_⟩
    rw [hall hnone]
  none_iff := h.none_iff.trans (Directory.hasRoom_cons_iff located free).symm
  status_eq := h.status_eq

/-- The first file is created if its path is free, and the others come after it. Otherwise its error
ends the work. -/
theorem run_createAll_cons (dir : String) (f : Fragment) (fs : List Fragment) (w : World) :
    (∃ loc, w.directory.locate? (f.path dir) = some loc ∧ w.directory.entry? loc = none ∧
      (createAll dir (f :: fs) : StateM World (Option CommandError)).run w
        = (createAll dir fs : StateM World (Option CommandError)).run
          { w with directory := w.directory.put loc (.file (Text.encode f.content)) }) ∨
    (∀ loc, w.directory.locate? (f.path dir) = some loc → w.directory.entry? loc ≠ none) ∧
      ∃ e : CommandError, e.status = 1 ∧
        (createAll dir (f :: fs) : StateM World (Option CommandError)).run w = (some e, w) := by
  have hask : (Host.createFile (f.path dir) f.content : StateM World Creation).run w =
      ((w.directory.createFile (f.path dir) (Text.encode f.content)).1,
        { w with directory := (w.directory.createFile (f.path dir) (Text.encode f.content)).2 }) :=
    rfl
  rw [createAll, World.run_bind hask]
  rcases w.directory.createFile_cases (f.path dir) (Text.encode f.content) with
    ⟨loc, located, free, hcreate⟩ | ⟨hbusy, c, hc, hcreate⟩
  · -- the file is there, and the others are created next to it
    rw [hcreate]
    exact .inl ⟨loc, located, free, rfl⟩
  · rw [hcreate]
    -- nothing is written, and the failure is reported
    cases c with
    | created => exact absurd rfl hc
    | alreadyThere => exact .inr ⟨hbusy, .alreadyThere (f.path dir), rfl, rfl⟩
    | impossible => exact .inr ⟨hbusy, .cannotWrite (f.path dir), rfl, rfl⟩

/-- **The run of creating files.** The fragments in front of the first one that cannot be written
are written, and if there is no such fragment, all are. -/
theorem createAll_spec (dir : String) (fs : List Fragment) (w : World) :
    ∃ outcome d', (createAll dir fs : StateM World (Option CommandError)).run w
        = (outcome, { w with directory := d' }) ∧ Writes dir fs w.directory d' outcome := by
  induction fs generalizing w with
  | nil =>
    have hroom : w.directory.HasRoom dir [] := ⟨fun f hf => (by cases hf), List.nodup_nil⟩
    exact ⟨none, w.directory, rfl, ⟨[], List.prefix_rfl, .nil _, fun _ => rfl⟩,
      iff_of_true rfl hroom, fun e he => (by cases he)⟩
  | cons f fs ih =>
    rcases run_createAll_cons dir f fs w with ⟨loc, located, free, hrun⟩ | ⟨hbusy, e, he, hrun⟩
    · obtain ⟨outcome, d', hrest, hwrites⟩ :=
        ih { w with directory := w.directory.put loc (.file (Text.encode f.content)) }
      exact ⟨outcome, d', hrun.trans hrest, .cons located free hwrites⟩
    · -- the file cannot be created, so that there is no room for it
      have hnoroom : ¬ w.directory.HasRoom dir (f :: fs) := by
        intro h
        obtain ⟨loc, located, free⟩ := h.free f List.mem_cons_self
        exact hbusy loc located free
      exact ⟨some e, w.directory, hrun, .of_not_hasRoom hnoroom he⟩

/-- If nothing is in the place of any file, they are created in turn. -/
theorem run_writeFragments_of_free (hfree : ∀ f ∈ fs, w.directory.pathExists (f.path dir) = false) :
    (writeFragments dir fs : StateM World (Option CommandError)).run w
      = (createAll dir fs : StateM World (Option CommandError)).run w := by
  have hnone : (fs.map (·.path dir)).find? w.directory.pathExists = none := by
    refine List.find?_eq_none.2 fun path hpath => ?_
    obtain ⟨f, hf, rfl⟩ := List.mem_map.1 hpath
    simp [hfree f hf]
  have hlook := run_firstExisting? (fs.map (·.path dir)) w
  rw [hnone] at hlook
  rw [writeFragments, World.run_bind hlook]

/-- Fragments are written only if nothing is in the place of any of them. -/
theorem writeFragments_spec (dir : String) (fs : List Fragment) (w : World) :
    ∃ outcome d', (writeFragments dir fs : StateM World (Option CommandError)).run w
        = (outcome, { w with directory := d' }) ∧ Writes dir fs w.directory d' outcome ∧
      ((∃ f ∈ fs, w.directory.pathExists (f.path dir) = true) → d' = w.directory) := by
  cases hfind : (fs.map (·.path dir)).find? w.directory.pathExists with
  | some path =>
    -- something is in the way, and nothing is written
    have hlook := run_firstExisting? (fs.map (·.path dir)) w
    rw [hfind] at hlook
    have hrun : (writeFragments dir fs : StateM World (Option CommandError)).run w
        = (some (.alreadyThere path), w) := by
      rw [writeFragments, World.run_bind hlook]
      rfl
    obtain ⟨f, hf, rfl⟩ := List.mem_map.1 (List.mem_of_find?_eq_some hfind)
    have hnoroom := Directory.not_hasRoom_of_pathExists hf (List.find?_some hfind)
    exact ⟨_, w.directory, hrun, .of_not_hasRoom hnoroom rfl, fun _ => rfl⟩
  | none =>
    -- the way is free, and the files are created
    have hfree : ∀ f ∈ fs, ¬ w.directory.pathExists (f.path dir) = true := fun f hf =>
      List.find?_eq_none.1 hfind _ (List.mem_map_of_mem hf)
    obtain ⟨outcome, d', hrun, hwrites⟩ := createAll_spec dir fs w
    refine ⟨outcome, d', ?_, hwrites, fun ⟨f, hf, hexists⟩ => absurd hexists (hfree f hf)⟩
    rw [run_writeFragments_of_free fun f hf => Bool.eq_false_iff.2 (hfree f hf), hrun]

/-! ### Names in the directory -/

/-- The path of a name in a directory has that name as its last step. A slash at the end of the path
of the directory makes no difference but for an empty step. -/
theorem steps_joinPath {name : String} (hdir : dir ≠ "") (hname : '/' ∉ name.toList) :
    ∃ names rest, joinPath dir name = dir ++ rest ∧
      Directory.steps (joinPath dir name) = names ++ [name] ∧
      (Directory.steps dir = names ∨ Directory.steps dir = names ++ [""]) := by
  unfold joinPath
  by_cases hslash : dir.toList.getLast? = some '/'
  · -- the slash is there already: it is the last character, and an empty step comes after it
    obtain ⟨cs, hcs⟩ := List.getLast?_eq_some_iff.1 hslash
    have hpath : dir ++ name = String.ofList (cs ++ '/' :: name.toList) := by
      rw [← String.toList_inj, String.toList_append, hcs, String.toList_ofList, List.append_assoc]
      rfl
    have hsteps : Directory.steps dir = Directory.steps (String.ofList cs) ++ [""] := by
      have hempty := Directory.steps_append cs (show '/' ∉ "".toList from List.not_mem_nil)
      rw [← hempty, ← String.ofList_toList (s := dir), hcs]
      rfl
    rw [if_pos (.inr hslash)]
    refine ⟨Directory.steps (String.ofList cs), name, rfl, ?_, .inr hsteps⟩
    rw [hpath, Directory.steps_append cs hname]
  · -- the slash is added, and the steps of `dir` come before it
    have hpath : dir ++ "/" ++ name = String.ofList (dir.toList ++ '/' :: name.toList) := by
      rw [← String.toList_inj]
      simp
    rw [if_neg (by simp [hdir, hslash])]
    refine ⟨Directory.steps dir, "/" ++ name, String.append_assoc, ?_, .inl rfl⟩
    rw [hpath, Directory.steps_append dir.toList hname, String.ofList_toList]

/-- The location of a name in a directory is one step away from that of the directory. -/
theorem exists_home {d : Directory} {name : String} {loc : Location} (hdir : dir ≠ "")
    (hname : '/' ∉ name.toList) (h : d.locate? (joinPath dir name) = some loc) :
    ∃ home, d.locate? dir = some home ∧ d.step? home name = some loc := by
  obtain ⟨names, rest, hpath, hsteps, hdirsteps⟩ := steps_joinPath hdir hname
  rw [Directory.locate?, hsteps, Directory.follow?_concat, hpath] at h
  obtain ⟨home, hhome, hstep⟩ := Option.bind_eq_some_iff.1 h
  -- the path of the directory begins in the same place and is no longer
  have horigin : Directory.origin dir = Directory.origin (dir ++ rest) := by
    have hne : dir.toList ≠ [] := fun h => hdir (String.toList_eq_nil_iff.1 h)
    rw [Directory.origin, Directory.origin, String.toList_append, List.head?_append_of_ne_nil _ hne]
  have hsize : dir.utf8ByteSize ≤ (dir ++ rest).utf8ByteSize := by
    rw [String.utf8ByteSize_append]
    exact Nat.le_add_right _ _
  have hfollow := Directory.follow?_of_le hdir horigin hsize hhome
  refine ⟨home, ?_, hstep⟩
  rcases hdirsteps with hsame | hslash
  · rw [Directory.locate?, hsame, hfollow]
  · -- a slash at the end is one more empty step, which stays in the directory
    rw [Directory.locate?, hslash, Directory.follow?_concat, hfollow, Option.bind_some,
      Directory.step?_empty (Directory.isDirectory_of_step? hstep)]

theorem notMem_fileName {name : String} (h : '/' ∉ name.toList) : '/' ∉ (name ++ ".js").toList := by
  rw [String.toList_append, List.mem_append]
  rintro (hname | hending)
  · exact h hname
  · revert hending
    decide

/-- A name with an ending is none of those that mean something else. -/
theorem isPlain_fileName (name : String) :
    name ++ ".js" ≠ "" ∧ name ++ ".js" ≠ "." ∧ name ++ ".js" ≠ ".." := by
  have hlast : (name ++ ".js").toList.getLast? = some 's' := by
    rw [String.toList_append, List.getLast?_append]
    rfl
  refine ⟨fun h => ?_, fun h => ?_, fun h => ?_⟩ <;> rw [h] at hlast <;> cases hlast

/-! ### The whole split -/

theorem Script.succeeds_fragments {s : Script} (hroot : s.root.OnBoundaries s.source) :
    Attempt.Succeeds s.fragments := by
  have hall : ∀ stmts : List Node, (∀ stmt ∈ stmts, stmt.OnBoundaries s.source) →
      Attempt.Succeeds (s.fragmentsOf stmts) := by
    intro stmts hstmts
    induction stmts with
    | nil => exact ⟨[], rfl⟩
    | cons stmt stmts ih =>
      -- a fragment is read in two pieces, the name and the class, and both end on boundaries
      have hfirst : Attempt.Succeeds (s.fragment? stmt) := by
        unfold Script.fragment?
        split
        · exact ⟨none, rfl⟩
        · next cls hcls =>
          have hbounds := (hstmts stmt List.mem_cons_self).of_mem
            (Node.mem_preorder_of_declaredClass hcls)
          split
          · exact ⟨none, rfl⟩
          · next nameNode hname =>
            have hcode := Script.succeeds_text hbounds
            exact (Script.succeeds_text (hbounds.child hname)).bind fun _ _ => hcode.map
      exact hfirst.bind fun _ _ =>
        (ih fun stmt' h => hstmts stmt' (List.mem_cons_of_mem stmt h)).map
  exact hall _ fun stmt hstmt => hroot.of_mem_namedChildren hstmt

/-- Fragments of one name ask for the same file. -/
theorem nodup_names {d : Directory} (h : (fs.map fun f => d.locate? (f.path dir)).Nodup) :
    (fs.map (·.name)).Nodup := by
  have hpath : (fs.map fun f => d.locate? (f.path dir))
      = (fs.map (·.name)).map fun name => d.locate? (joinPath dir (name ++ ".js")) := by
    -- a path is a function of the name
    rw [List.map_map]
    rfl
  rw [hpath] at h
  exact List.Nodup.of_map _ h

/-- If all fragments have been written, and only directories made before, all is as it should be. -/
theorem writesAll_of_gains {before made after : Directory} (hgrows : before.Grows made)
    (hdir : dir ≠ "") (hgains : made.Gains dir fs after) : WritesAll dir fs before after where
  distinct := nodup_names hgains.nodup
  created f hf := by
    obtain ⟨loc, located, -, hentry⟩ := hgains.exists_of_mem hf
    refine ⟨?_, Directory.read?_eq_some_iff.2 ⟨loc, (hgains.locate?_eq _).trans located, hentry⟩⟩
    -- whatever was there before would still be in the way
    rw [← Bool.not_eq_true]
    intro hexists
    exact Directory.not_hasRoom_of_pathExists hf (hgrows.pathExists hexists)
      (Directory.exists_gains_iff.1 ⟨after, hgains⟩)
  apart := by
    simp only [hgains.locate?_eq]
    exact hgains.nodup
  inside f hf hname := by
    obtain ⟨loc, located, -, -⟩ := hgains.exists_of_mem hf
    have hafter : after.locate? (f.path dir) = some loc := (hgains.locate?_eq _).trans located
    obtain ⟨home, hhome, hstep⟩ := exists_home hdir (notMem_fileName hname) hafter
    exact ⟨home, hhome, by rw [hafter, (Directory.eq_of_step? (isPlain_fileName f.name) hstep).1]⟩

/-- The status is that of the error, if there is one. -/
theorem Writes.status_eq_zero_iff {before after : Directory} {outcome : Option CommandError}
    (h : Writes dir fs before after outcome) :
    outcome.elim 0 CommandError.status = 0 ↔ outcome = none := by
  cases outcome with
  | none => exact iff_of_true rfl rfl
  | some e => exact iff_of_false (by simp [h.status_eq e rfl]) (Option.some_ne_none e)

theorem Writes.status_eq_one {before after : Directory} {outcome : Option CommandError}
    (h : Writes dir fs before after outcome) (hne : outcome ≠ none) :
    outcome.elim 0 CommandError.status = 1 := by
  obtain ⟨e, rfl⟩ := Option.ne_none_iff_exists'.1 hne
  exact h.status_eq e rfl

/-- If the directory cannot be made, nothing is written. -/
theorem splitsCleanly_of_not_made {before : Directory}
    (hmade : (before.makeDirectories dir).1 = false) :
    SplitsCleanly dir fs before (before.makeDirectories dir).2 1 where
  status_cases := .inr rfl
  succeeds_iff := by simp [hmade]
  keeps loc content h := (before.grows_makeDirectories dir).keeps loc _ h
  adds loc content h := .inl ((before.grows_makeDirectories dir).adds loc content h)
  refuses _ := ⟨rfl, (before.grows_makeDirectories dir).adds⟩
  complete h := by cases h

/-- If the directory has been made, what happens is what happens to the fragments. -/
theorem splitsCleanly_of_writes {before after : Directory} {outcome : Option CommandError}
    (hmade : (before.makeDirectories dir).1 = true)
    (hwrites : Writes dir fs (before.makeDirectories dir).2 after outcome)
    (hbusy : (∃ f ∈ fs, (before.makeDirectories dir).2.pathExists (f.path dir) = true) →
      after = (before.makeDirectories dir).2) :
    SplitsCleanly dir fs before after (outcome.elim 0 CommandError.status) := by
  have hgrows := before.grows_makeDirectories dir
  obtain ⟨done, hdone, hgains, hall⟩ := hwrites.gains
  exact
    { status_cases := (em (outcome = none)).imp hwrites.status_eq_zero_iff.2 hwrites.status_eq_one
      succeeds_iff := by
        rw [hwrites.status_eq_zero_iff, hwrites.none_iff]
        exact (and_iff_right hmade).symm
      keeps := fun loc content h => hgains.keeps (hgrows.keeps loc _ h)
      adds := by
        intro loc content hentry
        rcases (hgains.file_iff loc content).1 hentry with hold | ⟨f, hf, located, hcontent⟩
        · exact .inl (hgrows.adds loc content hold)
        · exact .inr ⟨f, hdone.subset hf, located, hcontent⟩
      refuses := by
        -- what was in the way before the directory was made is still there
        rintro ⟨f, hf, hexists⟩
        have hexists' := hgrows.pathExists hexists
        refine ⟨hwrites.status_eq_one fun hnone => ?_, ?_⟩
        · exact Directory.not_hasRoom_of_pathExists hf hexists' (hwrites.none_iff.1 hnone)
        · rw [hbusy ⟨f, hf, hexists'⟩]
          exact hgrows.adds
      complete := by
        intro hzero
        rw [hall (hwrites.status_eq_zero_iff.1 hzero)] at hgains
        exact writesAll_of_gains hgrows (Directory.ne_empty_of_makeDirectories hmade) hgains }

/-- The world once a directory has been asked for. -/
def World.withDirectories (w : World) (dir : String) : World :=
  { w with directory := (w.directory.makeDirectories dir).2 }

theorem run_makeDirectories (w : World) (dir : String) :
    (Host.makeDirectories dir : StateM World Bool).run w
      = ((w.directory.makeDirectories dir).1, w.withDirectories dir) := rfl

theorem run_splitInto_of_not_made (text : String) (h : (w.directory.makeDirectories dir).1
    = false) :
    (splitInto dir text : StateM World (Attempt (Option CommandError))).run w
      = (.ok (some (.cannotCreate dir)), w.withDirectories dir) := by
  rw [splitInto, World.run_bind (run_makeDirectories w dir), h]
  rfl

theorem run_splitInto_of_made {text : String} {s : Script} {outcome : Option CommandError}
    {w' : World} (h : (w.directory.makeDirectories dir).1 = true)
    (hs : Script.ofTree text w.tree = .ok s) (hfs : s.fragments = .ok fs)
    (hwrite : (writeFragments dir fs : StateM World (Option CommandError)).run
      (w.withDirectories dir).parsed = (outcome, w')) :
    (splitInto dir text : StateM World (Attempt (Option CommandError))).run w
      = (.ok outcome, w') := by
  have hread : (Script.ofTree text (w.withDirectories dir).tree).bind Script.fragments
      = .ok fs := by
    -- the parser is not asked when directories are made
    show (Script.ofTree text w.tree).bind Script.fragments = .ok fs
    rw [hs]
    exact hfs
  rw [splitInto, World.run_bind (run_makeDirectories w dir), h, if_pos rfl,
    World.run_bind (World.run_parse _ text), hread]
  exact World.run_bind hwrite _

/-- The status is that of the error, if there is one. -/
theorem run_split_of_splitInto {text : String} {outcome : Option CommandError} {w' : World}
    (h : (splitInto dir text : StateM World (Attempt (Option CommandError))).run w
      = (.ok outcome, w')) :
    ∃ err, (split dir text : StateM World (Attempt Nat)).run w
      = (.ok (outcome.elim 0 CommandError.status), { w' with err }) := by
  rw [split, World.run_bind h]
  cases outcome with
  | none => exact ⟨w'.err, rfl⟩
  | some e => exact ⟨_, rfl⟩

/-- **A split changes no file, and succeeds completely.** -/
theorem splitsCleanly_split {text : String} {s : Script} (dir : String)
    (hs : Script.ofTree text w.tree = .ok s) (htree : w.tree.OnBoundaries (.ofText text)) :
    ∃ fs status w', s.fragments = .ok fs ∧
      (split dir text : StateM World (Attempt Nat)).run w = (.ok status, w') ∧
      SplitsCleanly dir fs w.directory w'.directory status := by
  obtain ⟨fs, hfs⟩ := Script.succeeds_fragments (Script.onBoundaries_of_ofTree hs htree)
  cases hmade : (w.directory.makeDirectories dir).1 with
  | false =>
    -- the directory cannot be made
    obtain ⟨err, hrun⟩ := run_split_of_splitInto (run_splitInto_of_not_made text hmade)
    exact ⟨fs, _, _, hfs, hrun, splitsCleanly_of_not_made hmade⟩
  | true =>
    -- the directory is there now, and the fragments go into it
    obtain ⟨outcome, d', hwrite, hwrites, hbusy⟩ :=
      writeFragments_spec dir fs (w.withDirectories dir).parsed
    obtain ⟨err, hrun⟩ := run_split_of_splitInto (run_splitInto_of_made hmade hs hfs hwrite)
    exact ⟨fs, _, _, hfs, hrun, splitsCleanly_of_writes hmade hwrites hbusy⟩

end Split

/-! ### Two classes -/

/-- The classes `A` and `B`. -/
def twoClasses : Script where
  source := .ofText "class A\x7b\x7dclass B\x7b\x7d"
  root := .sound (.other "program") none 0 18 [.shortClass 0 7 9 [] [], .shortClass 9 16 18 [] []]

/-- One fragment for each. -/
def twoFragments : List Fragment :=
  [⟨"A", "export default class A\x7b\x7d"⟩, ⟨"B", "export default class B\x7b\x7d"⟩]

/-- The parser gives the tree of the two classes, and the directory `out` has a file already. -/
def twoClassesBeside (name : String) : World where
  directory := ⟨[(["out"], .directory), (["out", name], .file [])]⟩
  trees := [twoClasses.root]

/-- Beside a file of another name both classes are written. A file in the place of the second keeps
the first from being written. -/
theorem splitsCleanly_twoClasses :
    (∃ w', (split "out" twoClasses.source.text : StateM World (Attempt Nat)).run
        (twoClassesBeside "C.js") = (.ok 0, w') ∧
      SplitsCleanly "out" twoFragments (twoClassesBeside "C.js").directory w'.directory 0) ∧
    ∃ w', (split "out" twoClasses.source.text : StateM World (Attempt Nat)).run
        (twoClassesBeside "B.js") = (.ok 1, w') ∧
      SplitsCleanly "out" twoFragments (twoClassesBeside "B.js").directory w'.directory 1 := by
  have hs : Script.ofTree twoClasses.source.text twoClasses.root = .ok twoClasses := rfl
  have htree : twoClasses.root.OnBoundaries (.ofText twoClasses.source.text) := by decide +kernel
  have hfragments : twoClasses.fragments = .ok twoFragments := by decide +kernel
  constructor
  · -- nothing of the same name is there
    obtain ⟨fs, status, w', hfs, hrun, hsplits⟩ :=
      splitsCleanly_split (w := twoClassesBeside "C.js") "out" hs htree
    obtain rfl : twoFragments = fs := Except.ok.inj (hfragments.symm.trans hfs)
    obtain rfl : status = 0 :=
      Except.ok.inj ((congrArg Prod.fst hrun).symm.trans (by decide +kernel))
    exact ⟨w', hrun, hsplits⟩
  · obtain ⟨fs, status, w', hfs, hrun, hsplits⟩ :=
      splitsCleanly_split (w := twoClassesBeside "B.js") "out" hs htree
    obtain rfl : twoFragments = fs := Except.ok.inj (hfragments.symm.trans hfs)
    obtain rfl : status = 1 :=
      Except.ok.inj ((congrArg Prod.fst hrun).symm.trans (by decide +kernel))
    exact ⟨w', hrun, hsplits⟩

end Disinherit
