import Disinherit.Options

/-!
# Command lines

`Arguments.parse` reads a command line word by word. A word is a switch, an option that takes the
next word as its value, or the one input. Help is given as soon as it is asked for; the first word
that fits nowhere is an error (`UsageError`). What the values mean is checked at the end.
-/

namespace Disinherit

/-- Where the work can stop. -/
inductive Phase where
  | registry
  | hierarchy
deriving DecidableEq, Repr

namespace Phase

/-- The word for a phase. -/
def label : Phase → String
  | registry => "registry"
  | hierarchy => "hierarchy"

/-- The phase with a word. -/
def ofLabel? (word : String) : Option Phase :=
  match word with
  | "registry" => some registry
  | "hierarchy" => some hierarchy
  | _ => none

end Phase

/-- Why a command line is refused. -/
inductive UsageError where
  | needsValue (word : String)
  | unknownFlag (word : String)
  | unexpected (word : String)
  | unknownPhase (word : String)
  | splitWithOutput
deriving DecidableEq, Repr

/-- The wording of a refusal. -/
def UsageError.message : UsageError → String
  | needsValue word => word ++ " requires an argument"
  | unknownFlag word => "unknown flag '" ++ word ++ "'"
  | unexpected word => "unexpected argument '" ++ word ++ "'"
  | unknownPhase word => "unknown phase '" ++ word ++ "'"
  | splitWithOutput => "--split and --output cannot be combined"

/-- The line that tells of a refusal. -/
def UsageError.line (e : UsageError) : String :=
  "error: " ++ e.message ++ "\n"

/-- Why there is nothing to run. -/
inductive Refusal where
  /-- Help was asked for. -/
  | help
  | usage (e : UsageError)
deriving DecidableEq, Repr

/-- What a command line asks for, before its values are checked. -/
structure Request where
  options : Options := {}
  strict : Bool := false
  verbose : Bool := false
  phase : Option String := none
  splitDir : Option String := none
  output : Option String := none
  input : Option String := none
deriving DecidableEq, Repr

namespace Request

/-- Turns the switch of a word. -/
def switch? (r : Request) (word : String) : Option Request :=
  match word with
  | "--keep-intermediate" =>
    some { r with options := { r.options with excludeIntermediate := false } }
  | "--export-only" => some { r with options := { r.options with exportOnly := true } }
  | "--annotate" => some { r with options := { r.options with preserveComments := true } }
  | "--no-validate" => some { r with options := { r.options with validateInheritance := false } }
  | "--no-export-all" => some { r with options := { r.options with exportAll := false } }
  | "--strict" => some { r with strict := true }
  | "-v" | "--verbose" => some { r with verbose := true }
  | _ => none

/-- Sets the option of a word to a value. -/
def valued? (r : Request) (word : String) : Option (String → Request) :=
  match word with
  | "--stop-at" => some fun v => { r with phase := some v }
  | "--split" => some fun v => { r with splitDir := some v }
  | "-o" | "--output" => some fun v => { r with output := some v }
  | _ => none

/-- The word asks for help. -/
def isHelp (word : String) : Bool :=
  word == "-h" || word == "--help"

/-- The word has the form of a flag. A dash alone stands for the standard input. -/
def isFlag (word : String) : Bool :=
  word.toList.head? == some '-' && word != "-"

/-- Takes a word as the input. A dash leaves the input open. -/
def takeInput (r : Request) (word : String) : Request :=
  if word = "-" then r else { r with input := some word }

/-- Reads the words of a command line. -/
def read (r : Request) : List String → Except Refusal Request
  | [] => .ok r
  | word :: words =>
    if isHelp word then .error .help
    else
      match r.switch? word with
      | some r' => read r' words
      | none =>
        match r.valued? word with
        | some set =>
          match words with
          | [] => .error (.usage (.needsValue word))
          | value :: rest => read (set value) rest
        | none =>
          if isFlag word then .error (.usage (.unknownFlag word))
          else if r.input.isSome then .error (.usage (.unexpected word))
          else read (r.takeInput word) words

end Request

/-- What a command line asks for. -/
structure Arguments where
  options : Options
  strict : Bool
  verbose : Bool
  stopAt : Option Phase
  splitDir : Option String
  output : Option String
  input : Option String
deriving DecidableEq, Repr

namespace Arguments

/-- Checks the values of a request. -/
def ofRequest (r : Request) : Except Refusal Arguments := do
  let stopAt ← match r.phase with
    | none => pure none
    | some word =>
      match Phase.ofLabel? word with
      | some phase => pure (some phase)
      | none => throw (.usage (.unknownPhase word))
  if r.splitDir.isSome && r.output.isSome then throw (.usage .splitWithOutput)
  return ⟨r.options, r.strict, r.verbose, stopAt, r.splitDir, r.output, r.input⟩

/-- Reads a command line. -/
def parse (words : List String) : Except Refusal Arguments := do
  ofRequest (← Request.read {} words)

/-- The help text, line by line. -/
def usageLines : List String :=
  ["flatclass [OPTIONS] [INPUT] [-o OUTPUT]",
    "",
    "Options:",
    "  --keep-intermediate   Emit classes that are extended by other classes",
    "  --export-only         Emit only classes exported in the source",
    "  --annotate            Mark inherited and synthesized members with their origin",
    "  --no-validate         Skip inheritance validation",
    "  --no-export-all       Do not add 'export' to classes that lacked it",
    "  --strict              Exit with status 1 when any diagnostic is reported",
    "  --stop-at PHASE       Stop after phase and print it as JSON: registry, hierarchy",
    "  --split DIR           Write one <Class>.js file per emitted class into DIR",
    "  -o, --output FILE     Write output to FILE instead of stdout",
    "  -v, --verbose         Log debug information to stderr",
    "  -h, --help            Show this help message"]

/-- The help text. -/
def usage : String :=
  String.join (usageLines.map (· ++ "\n"))

end Arguments

end Disinherit
