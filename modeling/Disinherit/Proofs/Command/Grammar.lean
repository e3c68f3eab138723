import Disinherit.Command.Run
import Mathlib.Data.List.Induction

/-!
# The grammar of command lines

A command line is a row of parts: switches, options with the word that follows as their value, and
inputs. `CommandPart` has one constructor for each, and a part carries the proof that its first word
is of the right kind. `spell` writes parts down again, so that `spell parts = words` says that the
words split into these parts. Since a value is taken as it comes, a word such as `--strict` can
stand for itself or for a value; only the split tells which.

`Request.read` is compared with this from both sides. It takes parts one by one, each as
`Request.take` says, until one is refused (`read_spell`). And it accepts nothing else: words that it
reads to their end split into parts (`exists_spell_eq`). What it has in hand at the end is told by
`foldl_take`: of each option the value of its last occurrence, and the switches that occur.

The rules on whole command lines are stated for parts. `Coherent` has what is checked when all words
are read. On the number of inputs there are two rules. The help text allows one (`Documented`). The
reader only asks whether it has an input in hand, and a dash leaves that open, so that any number of
dashes may come before the last input (`Admitted`). `readsBy_admitted` says that the reader goes by
the second rule, and on which command lines this is not the first.
-/

namespace Disinherit

/-! ### Parts -/

/-- The words that turn a switch. -/
def switchWords : List String :=
  ["--keep-intermediate", "--export-only", "--annotate", "--no-validate", "--no-export-all",
    "--strict", "-v", "--verbose"]

/-- The words that take the next word as their value. -/
def optionWords : List String :=
  ["--stop-at", "--split", "-o", "--output"]

/-- A part of a command line. -/
inductive CommandPart where
  | switch (word : String) (known : word ∈ switchWords)
  | option (word value : String) (known : word ∈ optionWords)
  /-- A file name, or a dash for the standard input. -/
  | input (word : String) (plain : word = "-" ∨ word.toList.head? ≠ some '-')

namespace CommandPart

/-- The words of a part. -/
def words : CommandPart → List String
  | switch word _ => [word]
  | option word value _ => [word, value]
  | input word _ => [word]

/-- The part is one of some switches. -/
def isSwitch (names : List String) : CommandPart → Bool
  | switch word _ => names.contains word
  | _ => false

/-- The value, if the part is one of some options. -/
def value? (names : List String) : CommandPart → Option String
  | option word value _ => if names.contains word then some value else none
  | _ => none

/-- The word, if the part is an input. -/
def input? : CommandPart → Option String
  | input word _ => some word
  | _ => none

/-- The file name, if the part is one. -/
def file? (part : CommandPart) : Option String :=
  part.input?.filter (· ≠ "-")

end CommandPart

/-- The words of some parts. -/
def spell (parts : List CommandPart) : List String :=
  parts.flatMap CommandPart.words

/-- One of some switches occurs. -/
def hasSwitch (names : List String) (parts : List CommandPart) : Bool :=
  parts.any (CommandPart.isSwitch names)

/-- The value of the last of some options. -/
def lastValue? (names : List String) (parts : List CommandPart) : Option String :=
  (parts.filterMap (CommandPart.value? names)).getLast?

/-- The inputs in order. -/
def inputs (parts : List CommandPart) : List String :=
  parts.filterMap CommandPart.input?

/-! ### Rules on whole command lines -/

/-- The last phase is one that there is, and the output goes to one place. -/
structure Coherent (parts : List CommandPart) : Prop where
  phase : ∀ word, lastValue? ["--stop-at"] parts = some word → ∃ phase : Phase, phase.label = word
  target : lastValue? ["--split"] parts = none ∨ lastValue? ["-o", "--output"] parts = none

/-- What the help text allows: at most one input. -/
structure Documented (parts : List CommandPart) : Prop extends Coherent parts where
  input : (inputs parts).length ≤ 1

/-- What the reader allows: an input after dashes. -/
structure Admitted (parts : List CommandPart) : Prop extends Coherent parts where
  input : (inputs parts).Pairwise fun earlier _ => earlier = "-"

theorem Documented.admitted {parts : List CommandPart} (h : Documented parts) : Admitted parts where
  toCoherent := h.toCoherent
  input := by
    have hlength := h.input
    generalize inputs parts = words at hlength
    match words, hlength with
    | [], _ => exact .nil
    | [word], _ => exact List.pairwise_singleton _ word

/-- The arguments say what the parts say. Of each option the last value counts. -/
structure Answers (parts : List CommandPart) (args : Arguments) : Prop where
  stopAt : args.stopAt.map Phase.label = lastValue? ["--stop-at"] parts
  splitDir : args.splitDir = lastValue? ["--split"] parts
  output : args.output = lastValue? ["-o", "--output"] parts
  input : args.input = (parts.filterMap CommandPart.file?).getLast?
  strict : args.strict = hasSwitch ["--strict"] parts
  verbose : args.verbose = hasSwitch ["-v", "--verbose"] parts
  options : args.options =
    { excludeIntermediate := !hasSwitch ["--keep-intermediate"] parts
      exportOnly := hasSwitch ["--export-only"] parts
      preserveComments := hasSwitch ["--annotate"] parts
      validateInheritance := !hasSwitch ["--no-validate"] parts
      exportAll := !hasSwitch ["--no-export-all"] parts }

/-- A command line is read by a rule on parts. -/
structure ReadsBy (rule : List CommandPart → Prop) (words : List String) : Prop where
  /-- There are arguments if the words split into parts that obey the rule. -/
  accepts_iff : (∃ args, Arguments.parse words = .ok args) ↔ ∃ parts, spell parts = words ∧
    rule parts
  /-- Otherwise the run tells of an error, does nothing else and ends with status 2. -/
  refuses : (¬ ∃ parts, spell parts = words ∧ rule parts) → ∃ e : UsageError, ∀ w : World,
    (run words : StateM World (Attempt Nat)).run w = (.ok 2, { w with err := w.err ++ e.line })
  /-- The arguments are those that the parts give. -/
  answers : ∀ parts args, spell parts = words → Arguments.parse words = .ok args →
    Answers parts args

/-! ### Words -/

namespace Request

variable {r r' : Request} {word : String} {rest : List String}

theorem isFlag_of_mem_switchWords (h : word ∈ switchWords) :
    isFlag word = true ∧ isHelp word = false := by
  revert word
  decide

theorem isFlag_of_mem_optionWords (h : word ∈ optionWords) :
    isFlag word = true ∧ isHelp word = false := by
  revert word
  decide

theorem notMem_switchWords (h : word ∈ optionWords) : word ∉ switchWords := by
  revert word
  decide

theorem isFlag_eq_false_iff : isFlag word = false ↔ word = "-" ∨ word.toList.head? ≠ some '-' := by
  rw [isFlag, Bool.and_eq_false_iff, beq_eq_false_iff_ne, bne_eq_false_iff_eq, or_comm]

/-- A word that is no flag is neither a switch nor an option. -/
theorem notMem_of_not_isFlag (h : isFlag word = false) : word ∉ switchWords ∧ word ∉ optionWords :=
  ⟨fun hmem => Bool.false_ne_true (h.symm.trans (isFlag_of_mem_switchWords hmem).1),
    fun hmem => Bool.false_ne_true (h.symm.trans (isFlag_of_mem_optionWords hmem).1)⟩

theorem isHelp_of_not_isFlag (h : isFlag word = false) : isHelp word = false := by
  rw [← Bool.not_eq_true]
  intro hhelp
  rw [isHelp, Bool.or_eq_true, beq_iff_eq, beq_iff_eq] at hhelp
  rcases hhelp with rfl | rfl <;> cases h

theorem isSome_switch? (r : Request) : (r.switch? word).isSome = true ↔ word ∈ switchWords := by
  unfold switch?
  split <;> simp_all [switchWords]

theorem isSome_valued? (r : Request) : (r.valued? word).isSome = true ↔ word ∈ optionWords := by
  unfold valued?
  split <;> simp_all [optionWords]

/-! ### What one part does -/

/-- Takes a part. -/
def take (r : Request) : CommandPart → Request
  | .switch word _ => (r.switch? word).getD r
  | .option word value _ => (r.valued? word).elim r fun set => set value
  | .input word _ => r.takeInput word

/-- The step of the reader, field by field. -/
theorem take_eq (r : Request) (part : CommandPart) :
    r.take part =
      { options :=
          { excludeIntermediate := !part.isSwitch ["--keep-intermediate"]
            && r.options.excludeIntermediate
            exportOnly := part.isSwitch ["--export-only"] || r.options.exportOnly
            preserveComments := part.isSwitch ["--annotate"] || r.options.preserveComments
            validateInheritance := !part.isSwitch ["--no-validate"] && r.options.validateInheritance
            exportAll := !part.isSwitch ["--no-export-all"] && r.options.exportAll }
        strict := part.isSwitch ["--strict"] || r.strict
        verbose := part.isSwitch ["-v", "--verbose"] || r.verbose
        phase := (part.value? ["--stop-at"]).or r.phase
        splitDir := (part.value? ["--split"]).or r.splitDir
        output := (part.value? ["-o", "--output"]).or r.output
        input := part.file?.or r.input } := by
  cases part with
  | switch word known =>
    simp only [switchWords, List.mem_cons, List.not_mem_nil, or_false] at known
    rcases known with rfl | rfl | rfl | rfl | rfl | rfl | rfl | rfl <;> rfl
  | option word value known =>
    simp only [optionWords, List.mem_cons, List.not_mem_nil, or_false] at known
    rcases known with rfl | rfl | rfl | rfl <;> rfl
  | input word plain =>
    -- a dash is no file and leaves the input as it was
    by_cases hdash : word = "-"
    · subst hdash
      rfl
    · have hfile : (CommandPart.input word plain).file? = some word :=
        Option.filter_some_pos (by simpa using hdash)
      rw [take, takeInput, if_neg hdash, hfile]
      rfl

/-! ### The reader, part by part -/

theorem read_of_switch? (hhelp : isHelp word = false) (h : r.switch? word = some r') :
    r.read (word :: rest) = r'.read rest := by
  rw [read, hhelp, h]
  rfl

theorem read_of_valued? {set : String → Request} {value : String} (hhelp : isHelp word = false)
    (hswitch : r.switch? word = none) (h : r.valued? word = some set) :
    r.read (word :: value :: rest) = (set value).read rest := by
  rw [read, hhelp, hswitch, h]
  rfl

theorem read_of_not_isFlag (h : isFlag word = false) :
    r.read (word :: rest) = if r.input.isSome then .error (.usage (.unexpected word))
      else (r.takeInput word).read rest := by
  have hswitch : r.switch? word = none := by
    rw [← Option.not_isSome_iff_eq_none, isSome_switch?]
    exact (notMem_of_not_isFlag h).1
  have hvalued : r.valued? word = none := by
    rw [← Option.not_isSome_iff_eq_none, isSome_valued?]
    exact (notMem_of_not_isFlag h).2
  rw [read, isHelp_of_not_isFlag h, hswitch, hvalued, h]
  rfl

/-- **The step of the reader.** A part is taken, unless it is an input and there is one already. -/
theorem read_words_append (r : Request) (part : CommandPart) (rest : List String) :
    r.read (part.words ++ rest) = if part.input?.isSome && r.input.isSome
      then .error (.usage (.unexpected (part.input?.getD ""))) else (r.take part).read rest := by
  cases part with
  | switch word known =>
    obtain ⟨r', hr'⟩ := Option.isSome_iff_exists.1 ((isSome_switch? r).2 known)
    have htake : r.take (.switch word known) = r' := by rw [take, hr', Option.getD_some]
    rw [htake]
    -- help is asked for first, but no word of a part asks for it
    exact read_of_switch? (isFlag_of_mem_switchWords known).2 hr'
  | option word value known =>
    obtain ⟨set, hset⟩ := Option.isSome_iff_exists.1 ((isSome_valued? r).2 known)
    -- switches are tried before options, and the two have no word in common
    have hswitch : r.switch? word = none := by
      rw [← Option.not_isSome_iff_eq_none, isSome_switch?]
      exact notMem_switchWords known
    have htake : r.take (.option word value known) = set value := by
      rw [take, hset, Option.elim_some]
    rw [htake]
    exact read_of_valued? (isFlag_of_mem_optionWords known).2 hswitch hset
  | input word plain => exact read_of_not_isFlag (isFlag_eq_false_iff.2 plain)

/-- The request can take the inputs of some parts. -/
def Fits (r : Request) (parts : List CommandPart) : Prop :=
  (r.input.toList ++ inputs parts).Pairwise fun earlier _ => earlier = "-"

theorem input_take (r : Request) (part : CommandPart) :
    (r.take part).input = part.file?.or r.input := by
  rw [take_eq]

/-- A request never has a dash in hand. -/
theorem input_take_ne_dash (hdash : r.input ≠ some "-") (part : CommandPart) :
    (r.take part).input ≠ some "-" := by
  rw [input_take]
  cases hfile : part.file? with
  | none => exact hdash
  | some word =>
    -- a dash was filtered out before it could get here
    intro h
    obtain rfl : word = "-" := Option.some.inj h
    have hne := (Option.filter_eq_some_iff.1 hfile).2
    simp at hne

/-- What fits goes on to fit, part by part. -/
theorem fits_cons_iff (hdash : r.input ≠ some "-") (part : CommandPart) (parts : List CommandPart) :
    r.Fits (part :: parts) ↔ (part.input?.isSome && r.input.isSome) = false ∧
      (r.take part).Fits parts := by
  unfold Fits
  rw [input_take]
  cases hword : part.input? with
  | none =>
    -- a switch or an option adds no input
    have hinputs : inputs (part :: parts) = inputs parts := List.filterMap_cons_none hword
    rw [CommandPart.file?, hword, hinputs]
    simp
  | some word =>
    have hinputs : inputs (part :: parts) = word :: inputs parts := List.filterMap_cons_some hword
    rw [CommandPart.file?, hword, hinputs]
    cases hinput : r.input with
    | none =>
      -- a dash in front of the other inputs asks for nothing
      by_cases hw : word = "-" <;> simp [hw, Option.filter_some]
    | some first =>
      -- the input in hand is a file, and nothing may come after it
      have hfirst : first ≠ "-" := fun h => hdash (h ▸ hinput)
      constructor
      · intro h
        exact absurd ((List.pairwise_cons.1 h).1 word List.mem_cons_self) hfirst
      · rintro ⟨h, -⟩
        cases h

/-- **The run of the reader.** Parts are taken to the end if their inputs fit, and otherwise one of
the inputs is refused. -/
theorem read_spell (parts : List CommandPart) (hdash : r.input ≠ some "-") :
    (r.Fits parts → r.read (spell parts) = .ok (parts.foldl take r)) ∧
      (¬ r.Fits parts → ∃ word, r.read (spell parts) = .error (.usage (.unexpected word))) := by
  induction parts generalizing r with
  | nil =>
    -- at most the input in hand is left, and one input always fits
    refine ⟨fun _ => rfl, fun h => absurd ?_ h⟩
    unfold Fits
    cases r.input with
    | none => exact .nil
    | some word => exact List.pairwise_singleton _ word
  | cons part parts ih =>
    have hstep : r.read (spell (part :: parts)) = _ := read_words_append r part (spell parts)
    obtain ⟨hok, herror⟩ := ih (input_take_ne_dash hdash part)
    rw [fits_cons_iff hdash, hstep]
    by_cases hblocked : (part.input?.isSome && r.input.isSome) = true
    · -- a second input: the reader refuses it, and the parts do not fit
      rw [if_pos hblocked, hblocked]
      exact ⟨fun h => absurd h.1 (by decide), fun _ => ⟨_, rfl⟩⟩
    · -- otherwise the part is taken, and the rest decides
      rw [if_neg hblocked]
      rw [Bool.not_eq_true] at hblocked
      exact ⟨fun h => hok h.2, fun h => herror fun hfits => h ⟨hblocked, hfits⟩⟩

/-- Words that are read to their end split into parts. -/
theorem exists_spell_eq {words : List String} (h : r.read words = .ok r') :
    ∃ parts, spell parts = words := by
  -- the reader goes on in three cases, one for each kind of part
  fun_induction r.read words with
  | case1 r => exact ⟨[], rfl⟩
  | case2 => cases h
  | case3 r word words hhelp r₁ hswitch ih =>
    obtain ⟨parts, rfl⟩ := ih h
    exact ⟨.switch word ((isSome_switch? r).1 (by rw [hswitch]; rfl)) :: parts, rfl⟩
  | case4 => cases h
  | case5 r word hhelp hswitch set hvalued value rest ih =>
    obtain ⟨parts, rfl⟩ := ih h
    exact ⟨.option word value ((isSome_valued? r).1 (by rw [hvalued]; rfl)) :: parts, rfl⟩
  | case6 => cases h
  | case7 => cases h
  | case8 r word words hhelp hswitch hvalued hflag hinput ih =>
    obtain ⟨parts, rfl⟩ := ih h
    exact ⟨.input word (isFlag_eq_false_iff.1 (Bool.not_eq_true _ ▸ hflag)) :: parts, rfl⟩

/-- Help is given to those who ask for it. -/
theorem exists_isHelp {words : List String} (h : r.read words = .error .help) :
    ∃ word ∈ words, isHelp word = true := by
  fun_induction r.read words with
  | case1 => cases h
  | case2 r word words hhelp => exact ⟨word, List.mem_cons_self, hhelp⟩
  | case3 r word words hhelp r₁ hswitch ih =>
    -- the word asking for help comes later, and it is still among the words
    obtain ⟨w, hw, hask⟩ := ih h
    exact ⟨w, List.mem_cons_of_mem _ hw, hask⟩
  | case4 => cases h
  | case5 r word hhelp hswitch set hvalued value rest ih =>
    obtain ⟨w, hw, hask⟩ := ih h
    exact ⟨w, List.mem_cons_of_mem _ (List.mem_cons_of_mem _ hw), hask⟩
  | case6 => cases h
  | case7 => cases h
  | case8 r word words hhelp hswitch hvalued hflag hinput ih =>
    obtain ⟨w, hw, hask⟩ := ih h
    exact ⟨w, List.mem_cons_of_mem _ hw, hask⟩

end Request

/-! ### Splitting in one way only -/

/-- The first word tells where a part ends. -/
theorem CommandPart.words_append_inj {part part' : CommandPart} {rest rest' : List String}
    (h : part.words ++ rest = part'.words ++ rest') : part = part' ∧ rest = rest' := by
  have hflag : ∀ {word : String}, (word = "-" ∨ word.toList.head? ≠ some '-') →
      word ∉ switchWords ∧ word ∉ optionWords := fun plain =>
    Request.notMem_of_not_isFlag (Request.isFlag_eq_false_iff.2 plain)
  -- the two parts begin with the same word, so that they are of one kind
  cases part with
  | switch word known =>
    cases part' with
    | switch word' known' => cases h; exact ⟨rfl, rfl⟩
    | option word' value known' => cases h; exact absurd known (Request.notMem_switchWords known')
    | input word' plain => cases h; exact absurd known (hflag plain).1
  | option word value known =>
    cases part' with
    | switch word' known' => cases h; exact absurd known' (Request.notMem_switchWords known)
    | option word' value' known' => cases h; exact ⟨rfl, rfl⟩
    | input word' plain => cases h; exact absurd known (hflag plain).2
  | input word plain =>
    cases part' with
    | switch word' known => cases h; exact absurd known (hflag plain).1
    | option word' value known => cases h; exact absurd known (hflag plain).2
    | input word' plain' => cases h; exact ⟨rfl, rfl⟩

/-- **Words split into parts in at most one way.** -/
theorem spell_injective {parts parts' : List CommandPart} (h : spell parts = spell parts') :
    parts = parts' := by
  have hne : ∀ (part : CommandPart) (rest : List String), part.words ++ rest ≠ [] := by
    rintro (_ | _ | _) rest <;> exact List.cons_ne_nil _ _
  induction parts generalizing parts' with
  | nil =>
    cases parts' with
    | nil => rfl
    | cons part' parts' => exact absurd h.symm (hne part' (spell parts'))
  | cons part parts ih =>
    cases parts' with
    | nil => exact absurd h (hne part (spell parts))
    | cons part' parts' =>
      -- the first part can be read off the words, and the rest is left
      obtain ⟨rfl, hrest⟩ := CommandPart.words_append_inj h
      rw [ih hrest]

namespace Request

/-! ### What is in hand at the end -/

theorem hasSwitch_concat (names : List String) (parts : List CommandPart) (part : CommandPart) :
    hasSwitch names (parts ++ [part]) = (part.isSwitch names || hasSwitch names parts) := by
  rw [hasSwitch, List.any_append, List.any_cons, List.any_nil, Bool.or_false, Bool.or_comm]
  rfl

/-- The last of some values, when one more part comes. -/
theorem getLast?_filterMap_concat (f : CommandPart → Option String) (parts : List CommandPart)
    (part : CommandPart) :
    ((parts ++ [part]).filterMap f).getLast? = (f part).or (parts.filterMap f).getLast? := by
  rw [List.filterMap_append]
  cases h : f part <;> simp [h]

theorem lastValue?_concat (names : List String) (parts : List CommandPart) (part : CommandPart) :
    lastValue? names (parts ++ [part]) = (part.value? names).or (lastValue? names parts) :=
  getLast?_filterMap_concat _ parts part

/-- **What the reader has in hand at the end**: the last values and the switches that occur. -/
theorem foldl_take (parts : List CommandPart) :
    parts.foldl take {} =
      { options :=
          { excludeIntermediate := !hasSwitch ["--keep-intermediate"] parts
            exportOnly := hasSwitch ["--export-only"] parts
            preserveComments := hasSwitch ["--annotate"] parts
            validateInheritance := !hasSwitch ["--no-validate"] parts
            exportAll := !hasSwitch ["--no-export-all"] parts }
        strict := hasSwitch ["--strict"] parts
        verbose := hasSwitch ["-v", "--verbose"] parts
        phase := lastValue? ["--stop-at"] parts
        splitDir := lastValue? ["--split"] parts
        output := lastValue? ["-o", "--output"] parts
        input := (parts.filterMap CommandPart.file?).getLast? } := by
  induction parts using List.reverseRecOn with
  | nil => rfl
  | append_singleton parts part ih =>
    -- the last part goes over what the earlier ones have left
    rw [List.foldl_append, List.foldl_cons, List.foldl_nil, take_eq, ih]
    simp only [hasSwitch_concat, lastValue?_concat, getLast?_filterMap_concat, Bool.not_or]

end Request

/-! ### Checks at the end -/

theorem Phase.ofLabel?_eq_some_iff {word : String} {p : Phase} :
    ofLabel? word = some p ↔ p.label = word := by
  constructor
  · intro h
    unfold ofLabel? at h
    split at h <;> cases h <;> rfl
  · rintro rfl
    cases p <;> rfl

/-- The arguments that a request amounts to, once its phase is read. -/
def Arguments.ofPhase (r : Request) (stopAt : Option Phase) : Arguments :=
  ⟨r.options, r.strict, r.verbose, stopAt, r.splitDir, r.output, r.input⟩

/-- A request is turned down for a phase that there is not, or for two places of output. -/
theorem Arguments.ofRequest_cases (r : Request) :
    (∃ stopAt, stopAt.map Phase.label = r.phase ∧ (r.splitDir = none ∨ r.output = none) ∧
      ofRequest r = .ok (ofPhase r stopAt)) ∨
    (∃ e, ofRequest r = .error (.usage e)) ∧
      ((∃ word, r.phase = some word ∧ ∀ phase : Phase, phase.label ≠ word) ∨
        ¬ (r.splitDir = none ∨ r.output = none)) := by
  have hone : (r.splitDir.isSome && r.output.isSome) = true ↔
      ¬ (r.splitDir = none ∨ r.output = none) := by
    rw [Bool.and_eq_true, Option.isSome_iff_ne_none, Option.isSome_iff_ne_none, not_or]
  -- what follows once the phase is read does not depend on it
  have htarget : ∀ stopAt, stopAt.map Phase.label = r.phase → ofRequest r =
      if (r.splitDir.isSome && r.output.isSome) = true then .error (.usage .splitWithOutput)
      else .ok (ofPhase r stopAt) := by
    intro stopAt hphase
    rw [ofRequest, ← hphase]
    generalize (r.splitDir.isSome && r.output.isSome) = both
    match stopAt, both with
    | none, true | none, false => rfl
    | some .registry, true | some .registry, false => rfl
    | some .hierarchy, true | some .hierarchy, false => rfl
  by_cases hknown : ∃ stopAt : Option Phase, stopAt.map Phase.label = r.phase
  · obtain ⟨stopAt, hphase⟩ := hknown
    rw [htarget stopAt hphase]
    by_cases hboth : (r.splitDir.isSome && r.output.isSome) = true
    · rw [if_pos hboth]
      exact .inr ⟨⟨_, rfl⟩, .inr (hone.1 hboth)⟩
    · rw [if_neg hboth]
      exact .inl ⟨stopAt, hphase, not_not.1 fun h => hboth (hone.2 h), rfl⟩
  · -- a phase that is not known ends the reading, whatever the places of output are
    cases hphase : r.phase with
    | none => exact absurd ⟨none, hphase.symm⟩ hknown
    | some word =>
      have hunknown : ∀ phase : Phase, phase.label ≠ word := by
        rintro phase rfl
        exact hknown ⟨some phase, hphase.symm⟩
      have hnone : Phase.ofLabel? word = none := by
        rw [Option.eq_none_iff_forall_ne_some]
        exact fun phase h => hunknown phase (Phase.ofLabel?_eq_some_iff.1 h)
      refine .inr ⟨⟨.unknownPhase word, ?_⟩, .inl ⟨word, rfl, hunknown⟩⟩
      simp only [ofRequest, hphase, hnone]
      rfl

/-! ### Whole command lines -/

theorem coherent_iff (parts : List CommandPart) : Coherent parts ↔
    (∀ word, (parts.foldl Request.take {}).phase = some word → ∃ phase : Phase, phase.label = word)
      ∧
      ((parts.foldl Request.take {}).splitDir = none ∨
        (parts.foldl Request.take {}).output = none) := by
  rw [Request.foldl_take]
  exact ⟨fun h => ⟨h.phase, h.target⟩, fun h => ⟨h.1, h.2⟩⟩

theorem answers_ofPhase {parts : List CommandPart} {stopAt : Option Phase}
    (hphase : stopAt.map Phase.label = (parts.foldl Request.take {}).phase) :
    Answers parts (.ofPhase (parts.foldl Request.take {}) stopAt) := by
  rw [Request.foldl_take] at hphase ⊢
  exact ⟨hphase, rfl, rfl, rfl, rfl, rfl, rfl⟩

/-- **Parts are accepted by the rule of the reader**, and otherwise refused. -/
theorem parse_spell (parts : List CommandPart) :
    (∃ args, Arguments.parse (spell parts) = .ok args ∧ Answers parts args) ∧ Admitted parts ∨
      (∃ e, Arguments.parse (spell parts) = .error (.usage e)) ∧ ¬ Admitted parts := by
  have hdash : ({} : Request).input ≠ some "-" := Option.some_ne_none _ |>.symm
  obtain ⟨hok, herror⟩ := Request.read_spell parts hdash
  by_cases hfits : ({} : Request).Fits parts
  · have hparse : Arguments.parse (spell parts)
        = Arguments.ofRequest (parts.foldl Request.take {}) := by
      rw [Arguments.parse, hok hfits]
      rfl
    rw [hparse]
    rcases Arguments.ofRequest_cases (parts.foldl Request.take {}) with
      ⟨stopAt, hphase, htarget, hargs⟩ | ⟨hrefused, hwhy⟩
    · -- accepted: the phase has been read from its label
      refine .inl ⟨⟨_, hargs, answers_ofPhase hphase⟩, (coherent_iff parts).2 ⟨?_, htarget⟩, hfits⟩
      intro word hword
      rw [← hphase] at hword
      obtain ⟨phase, -, hlabel⟩ := Option.map_eq_some_iff.1 hword
      exact ⟨phase, hlabel⟩
    · -- refused: both reasons go against coherence
      refine .inr ⟨hrefused, fun h => ?_⟩
      obtain ⟨hphase, htarget⟩ := (coherent_iff parts).1 h.toCoherent
      rcases hwhy with ⟨word, hword, hunknown⟩ | hboth
      · obtain ⟨phase, hlabel⟩ := hphase word hword
        exact hunknown phase hlabel
      · exact hboth htarget
  · -- refused while reading, for an input too many
    obtain ⟨word, hword⟩ := herror hfits
    refine .inr ⟨⟨.unexpected word, ?_⟩, fun h => hfits h.input⟩
    rw [Arguments.parse, hword]
    rfl

section Words

variable {words : List String}

/-- Words that ask for no help get arguments, if they split into parts, or an error. -/
theorem parse_cases (hhelp : ∀ word ∈ words, Request.isHelp word = false) :
    (∃ parts, spell parts = words) ∨ ∃ e, Arguments.parse words = .error (.usage e) := by
  cases hread : ({} : Request).read words with
  | ok r => exact .inl (Request.exists_spell_eq hread)
  | error refusal =>
    cases refusal with
    | help =>
      -- no help was asked for
      obtain ⟨word, hmem, hask⟩ := Request.exists_isHelp hread
      exact absurd hask (by rw [hhelp word hmem]; decide)
    | usage e =>
      refine .inr ⟨e, ?_⟩
      rw [Arguments.parse, hread]
      rfl

theorem run_of_usage {e : UsageError} (h : Arguments.parse words = .error (.usage e)) (w : World) :
    (run words : StateM World (Attempt Nat)).run w
      = (.ok 2, { w with err := w.err ++ e.line }) := by
  rw [run, h]
  rfl

/-- Rules under which the same words split are the same to the reader. -/
theorem ReadsBy.congr {rule rule' : List CommandPart → Prop} (h : ReadsBy rule words)
    (hrule : (∃ parts, spell parts = words ∧ rule parts) ↔ ∃ parts, spell parts = words ∧
      rule' parts) :
    ReadsBy rule' words where
  accepts_iff := h.accepts_iff.trans hrule
  refuses hnone := h.refuses fun hsome => hnone (hrule.1 hsome)
  answers := h.answers

/-- The reader goes by its own rule as long as nobody asks for help. -/
theorem readsBy_of_noHelp (hhelp : ∀ word ∈ words, Request.isHelp word = false) :
    ReadsBy Admitted words where
  accepts_iff := by
    constructor
    · rintro ⟨args, hargs⟩
      rcases parse_cases hhelp with ⟨parts, rfl⟩ | ⟨e, he⟩
      · rcases parse_spell parts with ⟨-, hadmitted⟩ | ⟨⟨e, he⟩, -⟩
        · exact ⟨parts, rfl, hadmitted⟩
        · cases hargs.symm.trans he
      · cases hargs.symm.trans he
    · rintro ⟨parts, rfl, hadmitted⟩
      rcases parse_spell parts with ⟨⟨args, hargs, -⟩, -⟩ | ⟨-, hnot⟩
      · exact ⟨args, hargs⟩
      · exact absurd hadmitted hnot
  refuses hnone := by
    rcases parse_cases hhelp with ⟨parts, rfl⟩ | ⟨e, he⟩
    · rcases parse_spell parts with ⟨-, hadmitted⟩ | ⟨⟨e, he⟩, -⟩
      · exact absurd ⟨parts, rfl, hadmitted⟩ hnone
      · exact ⟨e, run_of_usage he⟩
    · exact ⟨e, run_of_usage he⟩
  answers parts args hwords hargs := by
    subst hwords
    rcases parse_spell parts with ⟨⟨args', hargs', hanswers⟩, -⟩ | ⟨⟨e, he⟩, -⟩
    · obtain rfl : args' = args := Except.ok.inj (hargs'.symm.trans hargs)
      exact hanswers
    · cases hargs.symm.trans he

/-- **Command lines are read by the rule of the reader.** It is the rule of the help text for
exactly those words that do not split into an admitted row with two or more inputs, of which all but
the last are then dashes. -/
theorem readsBy_admitted (hhelp : "-h" ∉ words ∧ "--help" ∉ words) :
    ReadsBy Admitted words ∧
      (ReadsBy Documented words ↔
        ∀ parts, spell parts = words → Admitted parts → (inputs parts).length ≤ 1) := by
  have hnohelp : ∀ word ∈ words, Request.isHelp word = false := by
    intro word hmem
    rw [Request.isHelp, Bool.or_eq_false_iff, beq_eq_false_iff_ne, beq_eq_false_iff_ne]
    exact ⟨fun h => hhelp.1 (h ▸ hmem), fun h => hhelp.2 (h ▸ hmem)⟩
  have hreads := readsBy_of_noHelp hnohelp
  refine ⟨hreads, fun h parts hwords hadmitted => ?_, fun h => hreads.congr ?_⟩
  · -- the words are accepted, so that the help text must allow them, and they split in one way
    obtain ⟨parts', hwords', hdocumented⟩ :=
      h.accepts_iff.1 (hreads.accepts_iff.2 ⟨parts, hwords, hadmitted⟩)
    rw [spell_injective (hwords.trans hwords'.symm)]
    exact hdocumented.input
  · -- where one input is all that occurs, the two rules allow the same parts
    constructor
    · rintro ⟨parts, hwords, hadmitted⟩
      exact ⟨parts, hwords, hadmitted.toCoherent, h parts hwords hadmitted⟩
    · rintro ⟨parts, hwords, hdocumented⟩
      exact ⟨parts, hwords, hdocumented.admitted⟩

end Words

/-- An input after a dash, a value that looks like an option, and two phases of which the first is
unknown. -/
def inputAfterDash : List String :=
  ["-", "--split", "-o", "--stop-at", "emit", "a.js", "--stop-at", "registry", "-v"]

/-- The words are accepted, with the last phase and with the second input. -/
theorem readsBy_inputAfterDash :
    ("-h" ∉ inputAfterDash ∧ "--help" ∉ inputAfterDash) ∧ ReadsBy Admitted inputAfterDash ∧
      Arguments.parse inputAfterDash = .ok ⟨{}, false, true, some .registry, some "-o", none,
        some "a.js"⟩ :=
  have hhelp : "-h" ∉ inputAfterDash ∧ "--help" ∉ inputAfterDash := by decide
  ⟨hhelp, (readsBy_admitted hhelp).1, rfl⟩

/-- The help text allows one input, and a dash is one. -/
theorem not_readsBy_documented : ¬ ReadsBy Documented ["-", "a.js"] := by
  intro h
  obtain ⟨parts, hwords, hdocumented⟩ := h.accepts_iff.1 ⟨_, rfl⟩
  -- the words split in one way only, into two inputs
  have hsplit : spell [.input "-" (.inl rfl), .input "a.js" (.inr (by decide))] = ["-", "a.js"] :=
    rfl
  have hinput := hdocumented.input
  rw [spell_injective (hwords.trans hsplit.symm)] at hinput
  exact absurd hinput (by decide)

end Disinherit
