import Disinherit.Decimal.Shortest
import Disinherit.Text.Quoted

/-!
# Options

A compilation is steered by five switches. `Options.ofSettings` reads them from named values, where
a name may be written with underscores or in camel case and a later setting overrides an earlier
one. A name that is not known and a value that is not a switch are refused, with the value in
question shown by `Setting.display`.
-/

namespace Disinherit

/-- The switches of a compilation. -/
structure Options where
  /-- Leave out classes that another class extends. -/
  excludeIntermediate : Bool := true
  /-- Leave out classes that are not exported. -/
  exportOnly : Bool := false
  /-- Mark inherited and copied members with where they come from. -/
  preserveComments : Bool := false
  /-- Report missing parents and cycles. -/
  validateInheritance : Bool := true
  /-- Export classes that were not exported. -/
  exportAll : Bool := true
deriving DecidableEq, Repr

/-- A value that a setting may have. -/
inductive Setting where
  | null
  | switch (on : Bool)
  | whole (n : Int)
  | real (x : Float)
  | text (s : String)
  | list (items : List Setting)
  | record (entries : List (String × Setting))
deriving Inhabited

/-- How numbers with a fraction are written. -/
structure RealFormat where
  /-- The least and the greatest position of the first digit for which no exponent is written. -/
  plain : Int × Int
  /-- The least number of digits of an exponent. -/
  exponentDigits : Nat
  infinity : String
  notANumber : String

namespace RealFormat

/-- Digits with a point after the first `n`. -/
def pointed (digits : List Char) (n : Nat) : List Char :=
  digits.take n ++ '.' :: digits.drop n

/-- A decimal without an exponent: at least one digit stands on either side of the point. -/
def plainText (digits : List Char) (position : Int) : List Char :=
  if position < 0 then '0' :: '.' :: List.replicate (-position - 1).toNat '0' ++ digits
  else
    let whole := position.toNat + 1
    let padded := digits ++ List.replicate (whole + 1 - digits.length) '0'
    pointed padded whole

/-- A decimal with an exponent: the point follows the first digit, if there are others. -/
def exponentText (f : RealFormat) (digits : List Char) (position : Int) : List Char :=
  let lead := if digits.length = 1 then digits else pointed digits 1
  let exponent := Nat.toDigits 10 position.natAbs
  lead ++ ['e', if position < 0 then '-' else '+']
    ++ List.replicate (f.exponentDigits - exponent.length) '0' ++ exponent

/-- The text of a number. -/
def write (f : RealFormat) (x : Float) : String :=
  let sign := if x.toBits ≥ 0x8000000000000000 then "-" else ""
  if x.isNaN then f.notANumber
  else if x.isInf then sign ++ f.infinity
  else if x == 0 then sign ++ "0.0"
  else
    let d := (Binary64.ofFloat x).shortest
    let all := Nat.toDigits 10 d.digits
    let position := d.exponent + all.length - 1
    let digits := (all.reverse.dropWhile (· == '0')).reverse
    sign ++ String.ofList (if f.plain.1 ≤ position ∧ position ≤ f.plain.2 then
      plainText digits position else f.exponentText digits position)

end RealFormat

namespace Setting

/-- Numbers in messages: an exponent of two digits at least is written below `10 ^ -4` and from
`10 ^ 16` on. -/
def realFormat : RealFormat := ⟨(-4, 15), 2, "inf", "nan"⟩

mutual

/-- A value as it is shown in messages. -/
def display : Setting → String
  | null => "None"
  | switch on => if on then "True" else "False"
  | whole n => toString n
  | real x => realFormat.write x
  | text s => Text.quoted s
  | list items => "[" ++ String.intercalate ", " (displayItems items) ++ "]"
  | record entries => "\x7b" ++ String.intercalate ", " (displayEntries entries) ++ "\x7d"

/-- The items of a list as they are shown. -/
def displayItems : List Setting → List String
  | [] => []
  | v :: vs => v.display :: displayItems vs

/-- The entries of a record as they are shown. -/
def displayEntries : List (String × Setting) → List String
  | [] => []
  | (k, v) :: es => (Text.quoted k ++ ": " ++ v.display) :: displayEntries es

end

end Setting

/-- Why a setting is refused. -/
inductive SettingError where
  | unknown (key : String)
  | notASwitch (key : String) (value : Setting)

/-- The wording of a refusal. -/
def SettingError.message : SettingError → String
  | unknown key => "unknown option '" ++ key ++ "'"
  | notASwitch key value =>
    "option '" ++ key ++ "' must be true or false, got " ++ value.display

namespace Options

/-- Sets the switch of a name, if there is one. -/
def assign? (o : Options) (key : String) : Option (Bool → Options) :=
  match key with
  | "exclude_intermediate" | "excludeIntermediate" =>
    some fun on => { o with excludeIntermediate := on }
  | "export_only" | "exportOnly" => some fun on => { o with exportOnly := on }
  | "preserve_comments" | "preserveComments" => some fun on => { o with preserveComments := on }
  | "validate_inheritance" | "validateInheritance" =>
    some fun on => { o with validateInheritance := on }
  | "export_all" | "exportAll" => some fun on => { o with exportAll := on }
  | _ => none

/-- Applies one setting. -/
def apply (o : Options) (setting : String × Setting) : Except SettingError Options :=
  match o.assign? setting.1, setting.2 with
  | none, _ => .error (.unknown setting.1)
  | some assign, .switch on => .ok (assign on)
  | some _, value => .error (.notASwitch setting.1 value)

/-- The options that a list of settings asks for; the first setting that is refused stops it. -/
def ofSettings (settings : List (String × Setting)) : Except SettingError Options :=
  settings.foldlM apply {}

end Options

end Disinherit
