import Disinherit.Directory

/-!
# What operations do to a directory

Two operations make something new, and neither takes anything away. Making directories adds
directories only, and what a path led to it still leads to (`Directory.Grows`). Creating a file adds
the one file, where nothing was; a new file is on nobody's way, so that every path leads where it
led before (`locate?_put_file`).

The steps of a path are cut out of its text. A slash between a directory and a name makes the name
the last step (`steps_append`), and a step by a name that means nothing else goes to that name
(`eq_of_step?`).
-/

namespace Disinherit

namespace Directory

variable {d d' d'' : Directory} {loc : Location} {e : DirectoryEntry} {path : String}

/-! ### Putting something where nothing is -/

theorem entry?_of_isLandmark (h : isLandmark loc = true) : d.entry? loc = some .directory :=
  if_pos h

theorem entry?_of_not_isLandmark (h : isLandmark loc = false) :
    d.entry? loc = d.entries.get? loc :=
  if_neg (Bool.eq_false_iff.1 h)

theorem not_isLandmark (h : d.entry? loc = none) : isLandmark loc = false := by
  refine Bool.eq_false_iff.2 fun hmark => ?_
  cases (entry?_of_isLandmark hmark).symm.trans h

theorem entry?_put (h : d.entry? loc = none) (l : Location) :
    Directory.entry? (d.put loc e) l = if l = loc then some e else d.entry? l := by
  by_cases hl : l = loc
  · subst hl
    rw [if_pos rfl, entry?_of_not_isLandmark (not_isLandmark h), put, Table.get?_put, if_pos rfl]
  · rw [if_neg hl, entry?, entry?, put, Table.get?_put, if_neg hl]

/-- A file is no directory, and nothing is none either. -/
theorem isDirectory_put_file (h : d.entry? loc = none) (content : List UInt8) (l : Location) :
    (d.put loc (.file content)).isDirectory l = d.isDirectory l := by
  rw [isDirectory, isDirectory, entry?_put h]
  by_cases hl : l = loc
  · -- neither a new file nor nothing at all is a directory
    subst hl
    rw [if_pos rfl, h]
    rfl
  · rw [if_neg hl]

/-- Steps are taken from directories. -/
theorem isDirectory_of_step? {name : String} {l : Location} (h : d.step? loc name = some l) :
    d.isDirectory loc = true := by
  cases hdir : d.isDirectory loc with
  | true => rfl
  | false =>
    rw [step?, hdir] at h
    cases h

theorem step?_congr (h : ∀ l, d'.isDirectory l = d.isDirectory l) : d'.step? = d.step? := by
  funext l name
  rw [step?, step?, h]

theorem locate?_put_file (h : d.entry? loc = none) (content : List UInt8) (path : String) :
    (d.put loc (.file content)).locate? path = d.locate? path := by
  rw [locate?, locate?, follow?, follow?, step?_congr (isDirectory_put_file h content)]

/-- A file is created where nothing is, and otherwise nothing happens. -/
theorem createFile_cases (d : Directory) (path : String) (content : List UInt8) :
    (∃ loc, d.locate? path = some loc ∧ d.entry? loc = none ∧
      d.createFile path content = (.created, d.put loc (.file content))) ∨
    (∀ loc, d.locate? path = some loc → d.entry? loc ≠ none) ∧
      ∃ c, c ≠ .created ∧ d.createFile path content = (c, d) := by
  unfold createFile
  cases hlocate : d.locate? path with
  | none => exact .inr ⟨fun loc h => (by cases h), .impossible, (by decide), rfl⟩
  | some loc =>
    dsimp only
    cases hentry : d.entry? loc with
    | none => exact .inl ⟨loc, rfl, hentry, rfl⟩
    | some e =>
      refine .inr ⟨fun loc' h => ?_, .alreadyThere, (by decide), rfl⟩
      obtain rfl : loc = loc' := Option.some.inj h
      rw [hentry]
      exact Option.some_ne_none e

/-! ### Growing -/

/-- All that is in `d` is in `d'`, and what `d'` has beyond it are directories. -/
structure Grows (d d' : Directory) : Prop where
  keeps : ∀ loc e, d.entry? loc = some e → d'.entry? loc = some e
  adds : ∀ loc content, d'.entry? loc = some (.file content) → d.entry? loc = some (.file content)

theorem Grows.refl (d : Directory) : d.Grows d :=
  ⟨fun _ _ h => h, fun _ _ h => h⟩

theorem Grows.trans (h : d.Grows d') (h' : d'.Grows d'') : d.Grows d'' :=
  ⟨fun loc e he => h'.keeps loc e (h.keeps loc e he),
    fun loc c hc => h.adds loc c (h'.adds loc c hc)⟩

theorem grows_put_directory (h : d.entry? loc = none) : d.Grows (d.put loc .directory) where
  keeps l e he := by
    -- there is nothing at `loc`, and so it is not where the entry is
    have hne : l ≠ loc := by
      rintro rfl
      cases h.symm.trans he
    rw [entry?_put h, if_neg hne, he]
  adds l content hl := by
    rw [entry?_put h] at hl
    split at hl
    · cases hl
    · exact hl

theorem grows_makeDirectory (d : Directory) (path : String) : d.Grows (d.makeDirectory path).2 := by
  unfold makeDirectory
  split
  · exact .refl d
  · split
    · exact .refl d
    · exact .refl d
    · next hnone => exact grows_put_directory hnone

theorem grows_makeWithEnclosing (d : Directory) (path : String) :
    d.Grows (d.makeWithEnclosing path).2 := by
  fun_induction d.makeWithEnclosing path with
  | case1 path h _ r himpossible ih => exact ih
  | case2 path h _ r hpossible hdot ih => exact ih
  | case3 path h _ r hpossible hdot ih => exact ih.trans (grows_makeDirectory _ path)
  | case4 path h => exact grows_makeDirectory d path

/-- **Making directories adds directories only**, also when it fails half way. -/
theorem grows_makeDirectories (d : Directory) (path : String) :
    d.Grows (d.makeDirectories path).2 :=
  grows_makeWithEnclosing d path

/-- There is no directory without a name. -/
theorem ne_empty_of_makeDirectories (h : (d.makeDirectories path).1 = true) : path ≠ "" := by
  rintro rfl
  have hnowhere : d.site? "" = none := by rw [site?, follow?, if_pos (.inl rfl)]
  have hleaf : leaf "" = "" := rfl
  rw [makeDirectories, makeWithEnclosing, dif_neg (fun hname => hname.1 hleaf), makeDirectory,
    hnowhere] at h
  cases h

theorem Grows.isDirectory (h : d.Grows d') (hloc : d.isDirectory loc = true) :
    d'.isDirectory loc = true := by
  rw [Directory.isDirectory, beq_iff_eq] at hloc ⊢
  exact h.keeps loc _ hloc

theorem Grows.step? (h : d.Grows d') {name : String} {l : Location}
    (hstep : d.step? loc name = some l) : d'.step? loc name = some l := by
  have hdir := isDirectory_of_step? hstep
  rw [Directory.step?, hdir] at hstep
  rw [Directory.step?, h.isDirectory hdir]
  exact hstep

theorem Grows.foldlM_step? (h : d.Grows d') {names : List String} {l : Location}
    (hl : names.foldlM d.step? loc = some l) : names.foldlM d'.step? loc = some l := by
  induction names generalizing loc with
  | nil => exact hl
  | cons name names ih =>
    rw [List.foldlM_cons] at hl ⊢
    -- a step that could be taken can still be taken
    obtain ⟨l', hstep, hrest⟩ := Option.bind_eq_some_iff.1 hl
    exact Option.bind_eq_some_iff.2 ⟨l', h.step? hstep, ih hrest⟩

/-- A path that leads somewhere leads there still. -/
theorem Grows.locate? (h : d.Grows d') (hpath : d.locate? path = some loc) :
    d'.locate? path = some loc := by
  unfold Directory.locate? follow? at hpath ⊢
  split at hpath
  · cases hpath
  · next hok =>
    rw [if_neg hok]
    exact h.foldlM_step? hpath

theorem pathExists_iff :
    d.pathExists path = true ↔ ∃ loc e, d.locate? path = some loc ∧ d.entry? loc = some e := by
  rw [pathExists, Option.isSome_iff_exists]
  constructor
  · rintro ⟨e, he⟩
    obtain ⟨loc, hloc, hentry⟩ := Option.bind_eq_some_iff.1 he
    exact ⟨loc, e, hloc, hentry⟩
  · rintro ⟨loc, e, hloc, hentry⟩
    exact ⟨e, Option.bind_eq_some_iff.2 ⟨loc, hloc, hentry⟩⟩

/-- Nothing is where a free path leads. -/
theorem entry?_eq_none (hpath : d.locate? path = some loc) (hfree : d.pathExists path = false) :
    d.entry? loc = none := by
  cases hentry : d.entry? loc with
  | none => rfl
  | some e =>
    rw [pathExists_iff.2 ⟨loc, e, hpath, hentry⟩] at hfree
    cases hfree

theorem Grows.pathExists (h : d.Grows d') (hpath : d.pathExists path = true) :
    d'.pathExists path = true := by
  obtain ⟨loc, e, hloc, hentry⟩ := pathExists_iff.1 hpath
  exact pathExists_iff.2 ⟨loc, e, h.locate? hloc, h.keeps loc e hentry⟩

theorem read?_eq_some_iff {content : List UInt8} :
    d.read? path = some content ↔ ∃ loc, d.locate? path = some loc ∧
      d.entry? loc = some (.file content) := by
  unfold read?
  rw [← Option.bind_eq_some_iff]
  constructor
  · intro h
    split at h
    · next c hc =>
      cases h
      exact hc
    · cases h
  · intro h
    rw [h]

/-! ### Names in a directory -/

theorem pieces_ne_nil (cs : List Char) : pieces cs ≠ [] := by
  fun_induction pieces cs with
  | case1 => exact List.cons_ne_nil _ _
  | case2 => exact List.cons_ne_nil _ _
  | case3 => exact List.cons_ne_nil _ _
  | case4 => exact List.cons_ne_nil _ _

/-- A slash ends one piece and begins the next. -/
theorem pieces_append (cs cs' : List Char) :
    pieces (cs ++ '/' :: cs') = pieces cs ++ pieces cs' := by
  induction cs with
  | nil => rfl
  | cons c cs ih =>
    rw [List.cons_append, pieces, pieces, ih]
    split
    · rfl
    · -- there always is a first piece for the character to go to
      match h : pieces cs with
      | [] => exact absurd h (pieces_ne_nil cs)
      | first :: rest => rfl

theorem pieces_of_notMem {cs : List Char} (h : '/' ∉ cs) : pieces cs = [cs] := by
  induction cs with
  | nil => rfl
  | cons c cs ih =>
    obtain ⟨hc, hcs⟩ := List.ne_and_not_mem_of_not_mem_cons h
    rw [pieces, if_neg hc.symm, ih hcs]

/-- The names on the way to a name in a directory, if a slash stands between the two. -/
theorem steps_append (cs : List Char) {name : String} (h : '/' ∉ name.toList) :
    steps (String.ofList (cs ++ '/' :: name.toList)) = steps (String.ofList cs) ++ [name] := by
  rw [steps, steps, String.toList_ofList, String.toList_ofList, pieces_append, pieces_of_notMem h,
    List.map_append, List.map_singleton, String.ofList_toList]

theorem follow?_concat (path : String) (names : List String) (name : String) :
    d.follow? path (names ++ [name])
      = (d.follow? path names).bind fun home => d.step? home name := by
  unfold follow?
  split
  · rfl
  · rw [List.foldlM_append]
    congr 1
    funext home
    simp

/-- The same names can be followed on a shorter path. -/
theorem follow?_of_le {dir : String} {names : List String} (hdir : dir ≠ "")
    (horigin : origin dir = origin path) (hsize : dir.utf8ByteSize ≤ path.utf8ByteSize)
    (h : d.follow? path names = some loc) : d.follow? dir names = some loc := by
  unfold follow? at h ⊢
  split at h
  · cases h
  · next hok =>
    -- the path of the directory is not longer than the one that was followed
    have hshort : ¬ (dir = "" ∨ longestPath < dir.utf8ByteSize) := by
      rintro (hempty | hlong)
      · exact hdir hempty
      · exact hok (.inr (Nat.lt_of_lt_of_le hlong hsize))
    rw [if_neg hshort, horigin]
    exact h

theorem step?_empty (h : d.isDirectory loc = true) : d.step? loc "" = some loc := by
  rw [step?, h]
  rfl

/-- A step by a name that means nothing else leads to that name, which is not too long. -/
theorem eq_of_step? {name : String} {l : Location} (hname : name ≠ "" ∧ name ≠ "." ∧ name ≠ "..")
    (h : d.step? loc name = some l) : l = loc ++ [name] ∧ isShort name = true := by
  obtain ⟨hempty, hdot, hup⟩ := hname
  rw [step?, isDirectory_of_step? h, if_neg (by simp), if_neg (by simp [hempty, hdot]),
    if_neg hup] at h
  split at h
  · next hshort => exact ⟨(Option.some.inj h).symm, hshort⟩
  · cases h

end Directory

end Disinherit
