import Disinherit.Proofs.Command.Grammar
import Disinherit.Proofs.Command.World
import Disinherit.Proofs.Compile.Failure

/-!
# Findings and the exit status

`--strict` asks for an exit status that tells of findings. What is found in a run is said without
the run: `World.findings` has the findings about the hierarchy and those of the resolutions of the
classes that are kept, or, if the work stops at a phase, those of the phase. A compilation reports
just these (`diagnostics_compile`). `ShowsFindings` is what `--strict` promises: with findings the
status is 1 and nothing is written, so that the status 0 means that there are none.

A compilation keeps the promise, whatever the other options are. A view of the hierarchy does not.
The findings are part of the view, and the view is delivered like any other output, with or without
`--strict` (`run_of_hierarchy`). So the promise is kept there only if the view cannot be written at
all (`showsFindings_iff`).
-/

namespace Disinherit

/-- What is found about a script on the way to the output. -/
def Script.findings (s : Script) (r : Registry) (args : Arguments) : List Diagnostic :=
  match args.stopAt with
  | some .registry => []
  | some .hierarchy => r.check
  | none =>
    (if args.options.validateInheritance then r.check else []) ++
      (r.classes.filter (r.keeps args.options)).flatMap fun d =>
        (s.resolve (r.lineage d.name)).diagnostics

/-- What is found in a run. Without a script that can be read there is nothing to find. -/
def World.findings (w : World) (args : Arguments) : List Diagnostic :=
  match w.text args.input with
  | .error _ => []
  | .ok text =>
    match Script.ofTree text w.tree with
    | .error _ => []
    | .ok s =>
      match s.registry with
      | .error _ => []
      | .ok r => s.findings r args

/-- The exit status of a run tells of findings. -/
structure ShowsFindings (words : List String) (args : Arguments) (w : World) : Prop where
  /-- The status 0 means that nothing was found. -/
  clean : ((run words : StateM World (Attempt Nat)).run w).1 = .ok 0 → w.findings args = []
  /-- With findings the status is 1, and nothing is written but to the standard error output. -/
  stops : w.findings args ≠ [] → ∃ err,
    (run words : StateM World (Attempt Nat)).run w = (.ok 1, { w.parsed with err })

/-- The view of the hierarchy cannot be delivered, and nothing is written. -/
def World.ViewUndelivered (w : World) (args : Arguments) : Prop :=
  ∃ text view err, w.text args.input = .ok text ∧ phaseView .hierarchy text w.tree = .ok view ∧
    (deliver args view : StateM World (Attempt Nat)).run w.parsed = (.ok 1, { w.parsed with err })

/-! ### Findings of a compilation -/

section Compile

variable {s : Script} {r : Registry} {o : Options}

theorem diagnostics_replacement {d : ClassDecl} {e : Emission} (h : s.replacement r o d = .ok e) :
    e.diagnostics = if r.keeps o d then (s.resolve (r.lineage d.name)).diagnostics else [] := by
  unfold Script.replacement at h
  split at h
  · next hkeeps =>
    obtain ⟨text, -, he⟩ := Attempt.bind_eq_ok.1 h
    rw [if_pos hkeeps, ← Attempt.pure_eq_ok.1 he]
  · next hkeeps =>
    cases h
    rw [if_neg hkeeps]

/-- The classes that are kept report one after the other. -/
theorem diagnostics_replaceFrom {cursor : Nat} {ds : List ClassDecl} {e : Emission}
    (h : s.replaceFrom r o cursor ds = .ok e) :
    e.diagnostics = (ds.filter (r.keeps o)).flatMap fun d =>
      (s.resolve (r.lineage d.name)).diagnostics := by
  induction ds generalizing cursor e with
  | nil =>
    obtain ⟨rest, -, he⟩ := Attempt.bind_eq_ok.1 h
    rw [← Attempt.pure_eq_ok.1 he]
    rfl
  | cons d ds ih =>
    obtain ⟨kept, -, h⟩ := Attempt.bind_eq_ok.1 h
    obtain ⟨placed, hplaced, h⟩ := Attempt.bind_eq_ok.1 h
    obtain ⟨rest, hrest, he⟩ := Attempt.bind_eq_ok.1 h
    have hdiagnostics : e.diagnostics = placed.diagnostics ++ rest.diagnostics := by
      rw [← Attempt.pure_eq_ok.1 he]
    rw [hdiagnostics, diagnostics_replacement hplaced, ih hrest]
    -- a class that is left out has nothing to report
    by_cases hkeeps : r.keeps o d = true
    · rw [if_pos hkeeps, List.filter_cons_of_pos hkeeps, List.flatMap_cons]
    · rw [if_neg hkeeps, List.filter_cons_of_neg hkeeps, List.nil_append]

/-- A script with a registry can be compiled. -/
theorem succeeds_compile {text : String} {tree : Node} (hs : Script.ofTree text tree = .ok s)
    (hr : s.registry = .ok r) (htree : tree.OnBoundaries (.ofText text)) (o : Options) :
    Attempt.Succeeds (compile o text tree) := by
  refine Attempt.Succeeds.bind ⟨s, hs⟩ fun s' hs' => ?_
  obtain rfl : s' = s := Except.ok.inj (hs'.symm.trans hs)
  refine Attempt.Succeeds.bind ⟨r, hr⟩ fun r' hr' => ?_
  obtain rfl : r' = r := Except.ok.inj (hr'.symm.trans hr)
  exact (Script.succeeds_emit hr (Script.onBoundaries_of_ofTree hs htree) o).map

/-- **A compilation reports what is found**, and nothing else. -/
theorem diagnostics_compile {args : Arguments} {text : String} {tree : Node} {c : Compilation}
    (hstop : args.stopAt = none) (hs : Script.ofTree text tree = .ok s) (hr : s.registry = .ok r)
    (hc : compile args.options text tree = .ok c) : c.diagnostics = s.findings r args := by
  obtain ⟨s', hs', hc⟩ := Attempt.bind_eq_ok.1 hc
  obtain rfl : s' = s := Except.ok.inj (hs'.symm.trans hs)
  obtain ⟨r', hr', hc⟩ := Attempt.bind_eq_ok.1 hc
  obtain rfl : r' = r := Except.ok.inj (hr'.symm.trans hr)
  obtain ⟨emission, hemit, hc⟩ := Attempt.bind_eq_ok.1 hc
  rw [← Attempt.pure_eq_ok.1 hc, Script.findings, hstop]
  exact congrArg _ (diagnostics_replaceFrom hemit)

end Compile

/-! ### Runs -/

section Run

variable {parts : List CommandPart} {words : List String} {args : Arguments} {w : World}

/-- Findings are found in a script that can be read. -/
theorem exists_of_findings (h : w.findings args ≠ []) :
    ∃ text s r, w.text args.input = .ok text ∧ Script.ofTree text w.tree = .ok s ∧
      s.registry = .ok r ∧ w.findings args = s.findings r args := by
  -- nothing is found unless the input can be read, parsed and registered
  cases htext : w.text args.input with
  | error e => exact absurd (by simp only [World.findings, htext]) h
  | ok text =>
    cases hs : Script.ofTree text w.tree with
    | error e => exact absurd (by simp only [World.findings, htext, hs]) h
    | ok s =>
      cases hr : s.registry with
      | error e => exact absurd (by simp only [World.findings, htext, hs, hr]) h
      | ok r => exact ⟨text, s, r, rfl, hs, hr, by simp only [World.findings, htext, hs, hr]⟩

/-- The switch of a command line is that of its arguments. -/
theorem strict_of_hasSwitch (hargs : Arguments.parse (spell parts) = .ok args)
    (hstrict : hasSwitch ["--strict"] parts = true) : args.strict = true := by
  rcases parse_spell parts with ⟨⟨args', hargs', hanswers⟩, -⟩ | ⟨⟨e, he⟩, -⟩
  · obtain rfl : args' = args := Except.ok.inj (hargs'.symm.trans hargs)
    rw [hanswers.strict, hstrict]
  · cases hargs.symm.trans he

/-- With `--strict` a compilation that found something has no output. -/
theorem run_produce_of_findings {text : String} {c : Compilation} (hstop : args.stopAt = none)
    (hstrict : args.strict = true) (hc : compile args.options text w.tree = .ok c)
    (hfound : c.diagnostics ≠ []) :
    ∃ err, (produce args text : StateM World (Attempt (Except Nat String))).run w
      = (.ok (.error 1), { w.parsed with err }) := by
  -- with findings the compilation does not count as a success
  have hok : c.ok = false := by
    rw [Compilation.ok, ← Bool.not_eq_true, List.isEmpty_iff]
    exact hfound
  rw [produce, World.run_bind (World.run_parse w text), hstop]
  dsimp only
  rw [hc, hstrict]
  dsimp only
  rw [hok]
  -- what is said on the way there goes to the standard error output
  cases args.verbose with
  | true => exact ⟨_, rfl⟩
  | false => exact ⟨_, rfl⟩

/-- **A compilation keeps the promise.** -/
theorem stops_of_compile (hargs : Arguments.parse words = .ok args) (hstrict : args.strict = true)
    (htree : ∀ text, w.text args.input = .ok text → w.tree.OnBoundaries (.ofText text))
    (hstop : args.stopAt = none) (hfound : w.findings args ≠ []) :
    ∃ err, (run words : StateM World (Attempt Nat)).run w = (.ok 1, { w.parsed with err }) := by
  obtain ⟨text, s, r, htext, hs, hr, hfindings⟩ := exists_of_findings hfound
  -- the script can be read, so that the compilation has a result
  obtain ⟨c, hc⟩ := succeeds_compile hs hr (htree text htext) args.options
  rw [hfindings, ← diagnostics_compile hstop hs hr hc] at hfound
  obtain ⟨err, hproduce⟩ := run_produce_of_findings hstop hstrict hc hfound
  refine ⟨err, ?_⟩
  rw [World.run_of_parse hargs, World.run_perform_of_status htext hproduce]

/-- **A view of the hierarchy is delivered**, whether anything was found or not. -/
theorem run_of_hierarchy {text view : String} (hargs : Arguments.parse words = .ok args)
    (hstop : args.stopAt = some .hierarchy) (htext : w.text args.input = .ok text)
    (hview : phaseView .hierarchy text w.tree = .ok view) :
    (run words : StateM World (Attempt Nat)).run w
      = (deliver args view : StateM World (Attempt Nat)).run w.parsed := by
  have hproduce : (produce args text : StateM World (Attempt (Except Nat String))).run w
      = (.ok (.ok view), w.parsed) := by
    rw [produce, World.run_bind (World.run_parse w text), hstop]
    dsimp only
    rw [hview]
    rfl
  rw [World.run_of_parse hargs, World.run_perform_of_output htext hproduce]

theorem phaseView_hierarchy {text : String} {tree : Node} {s : Script} {r : Registry}
    (hs : Script.ofTree text tree = .ok s) (hr : s.registry = .ok r) :
    phaseView .hierarchy text tree = .ok r.hierarchyView.render := by
  have hregistry : phaseView .hierarchy text tree
      = s.registry >>= fun r => pure r.hierarchyView.render := by
    rw [phaseView, hs]
    rfl
  rw [hregistry, hr]
  rfl

/-- The status of a run that stops is not 0, so that only that has to be shown. -/
theorem showsFindings_of_stops (h : w.findings args ≠ [] → ∃ err,
    (run words : StateM World (Attempt Nat)).run w = (.ok 1, { w.parsed with err })) :
    ShowsFindings words args w where
  clean hzero := by
    -- with findings the status would be another
    by_contra hfound
    obtain ⟨err, hrun⟩ := h hfound
    rw [hrun] at hzero
    cases hzero
  stops := h

/-- **`--strict` keeps its promise** but for a view of the hierarchy, which is delivered with all
that was found. Then the promise is broken unless the view cannot be written, and it is always
broken if the view goes to the standard output. -/
theorem showsFindings_iff (hargs : Arguments.parse (spell parts) = .ok args)
    (hstrict : hasSwitch ["--strict"] parts = true)
    (htree : ∀ text, w.text args.input = .ok text → w.tree.OnBoundaries (.ofText text)) :
    (ShowsFindings (spell parts) args w ↔
      (args.stopAt = some .hierarchy → w.findings args ≠ [] → w.ViewUndelivered args)) ∧
    (args.stopAt = some .hierarchy → w.findings args ≠ [] → args.splitDir = none →
      args.output = none →
      ((run (spell parts) : StateM World (Attempt Nat)).run w).1 = .ok 0) := by
  have hview : args.stopAt = some .hierarchy → w.findings args ≠ [] → ∃ text view,
      w.text args.input = .ok text ∧ phaseView .hierarchy text w.tree = .ok view ∧
        (run (spell parts) : StateM World (Attempt Nat)).run w
          = (deliver args view : StateM World (Attempt Nat)).run w.parsed := by
    intro hstop hfound
    -- where there are findings there is a registry, and so a view
    obtain ⟨text, s, r, htext, hs, hr, -⟩ := exists_of_findings hfound
    have hphase := phaseView_hierarchy hs hr
    exact ⟨text, _, htext, hphase, run_of_hierarchy hargs hstop htext hphase⟩
  refine ⟨⟨fun h hstop hfound => ?_, fun h => showsFindings_of_stops fun hfound => ?_⟩, ?_⟩
  · -- the run is the delivery of the view, and it stops with an error
    obtain ⟨text, view, htext, hphase, hrun⟩ := hview hstop hfound
    obtain ⟨err, hstops⟩ := h.stops hfound
    exact ⟨text, view, err, htext, hphase, hrun.symm.trans hstops⟩
  · cases hstop : args.stopAt with
    | none => exact stops_of_compile hargs (strict_of_hasSwitch hargs hstrict) htree hstop hfound
    | some phase =>
      cases phase with
      | registry =>
        -- a view of the registry comes before anything can be found
        obtain ⟨text, s, r, -, -, -, hfindings⟩ := exists_of_findings hfound
        rw [hfindings, Script.findings, hstop] at hfound
        exact absurd rfl hfound
      | hierarchy =>
        obtain ⟨text, view, err, htext, hphase, hdeliver⟩ := h hstop hfound
        exact ⟨err, (run_of_hierarchy hargs hstop htext hphase).trans hdeliver⟩
  · -- to the standard output, a view is always delivered
    intro hstop hfound hsplit houtput
    obtain ⟨text, view, -, -, hrun⟩ := hview hstop hfound
    rw [hrun, deliver, hsplit, houtput]
    rfl

end Run

/-! ### A class that extends an unknown one -/

/-- The script `class A extends Z` on the standard input. -/
def lonelyClass : World where
  input := Text.encode "class A extends Z\x7b\x7d"
  trees := [.sound (.other "program") none 0 19 [.shortClass 0 17 19 [.shortHeritage 8] []]]

/-- With `--strict` the compilation ends with status 1 and writes nothing. -/
theorem showsFindings_lonelyClass :
    Arguments.parse (spell [.switch "--strict" (by decide)])
      = .ok ⟨{}, true, false, none, none, none, none⟩ ∧
    lonelyClass.findings ⟨{}, true, false, none, none, none, none⟩ ≠ [] ∧
    ShowsFindings ["--strict"] ⟨{}, true, false, none, none, none, none⟩ lonelyClass := by
  have hargs : Arguments.parse (spell [.switch "--strict" (by decide)])
      = .ok ⟨{}, true, false, none, none, none, none⟩ := rfl
  have htree : ∀ text, lonelyClass.text none = .ok text →
      lonelyClass.tree.OnBoundaries (.ofText text) := by
    intro text htext
    have hinput : lonelyClass.text none = .ok "class A extends Z\x7b\x7d" := by decide +kernel
    obtain rfl : "class A extends Z\x7b\x7d" = text := Except.ok.inj (hinput.symm.trans htext)
    decide +kernel
  refine ⟨hargs, by decide +kernel, ?_⟩
  exact (showsFindings_iff hargs (by decide) htree).1.2 fun hstop => by cases hstop

/-- A view of the hierarchy is printed, and the status is 0. -/
theorem not_showsFindings_hierarchy :
    ¬ ShowsFindings ["--strict", "--stop-at", "hierarchy"]
      ⟨{}, true, false, some .hierarchy, none, none, none⟩ lonelyClass := by
  intro h
  have hfound : lonelyClass.findings ⟨{}, true, false, some .hierarchy, none, none, none⟩ ≠ [] := by
    decide +kernel
  exact hfound (h.clean (by decide +kernel))

end Disinherit
