/-!
# The shortest decimal that reads back

A positive floating point number is `significand · 2 ^ exponent`. The reals that are rounded to it
form an interval, closed if the significand is even and open if it is odd. `Binary64.shortest` gives
the decimal with the fewest digits in that interval, and of several the nearest to the number.

For each number of digits there are at most two candidates: the neighbours of the number on that
decimal grid. Seventeen digits always suffice. All comparisons are made in whole numbers.
-/

namespace Disinherit

/-- The decimal number `digits · 10 ^ exponent`. -/
structure Decimal where
  digits : Nat
  exponent : Int
deriving DecidableEq, Repr

/-- A quotient of whole numbers. -/
structure Ratio where
  num : Nat
  den : Nat

namespace Ratio

/-- `n · base ^ e`. -/
def scale (base n : Nat) (e : Int) : Ratio :=
  if 0 ≤ e then ⟨n * base.pow e.toNat, 1⟩ else ⟨n, base.pow (-e).toNat⟩

/-- The value of a decimal. -/
def ofDecimal (d : Decimal) : Ratio := scale 10 d.digits d.exponent

/-- The quotient by a power of ten. -/
def shift (r : Ratio) (e : Int) : Ratio :=
  if 0 ≤ e then ⟨r.num, r.den * Nat.pow 10 e.toNat⟩ else ⟨r.num * Nat.pow 10 (-e).toNat, r.den⟩

/-- Smaller. -/
def lt (a b : Ratio) : Bool := decide (a.num * b.den < b.num * a.den)

/-- Equal in value. -/
def eq (a b : Ratio) : Bool := a.num * b.den == b.num * a.den

end Ratio

/-- A finite number `significand · 2 ^ exponent`; `narrow` says that its lower neighbour is only
half as far as its upper one. -/
structure Binary64 where
  significand : Nat
  exponent : Int
  narrow : Bool
deriving Repr

namespace Binary64

/-- The absolute value of a finite number, taken apart. -/
def ofFloat (x : Float) : Binary64 :=
  let bits : Nat := x.toBits.toNat
  let fraction : Nat := bits % Nat.pow 2 52
  let biased : Nat := bits / Nat.pow 2 52 % Nat.pow 2 11
  if biased = 0 then ⟨fraction, -1074, false⟩
  else ⟨fraction + Nat.pow 2 52, (biased : Int) - 1075, fraction == 0 && decide (1 < biased)⟩

variable (b : Binary64)

/-- A point of the interval around the number, in quarters of its last place. -/
def quarter (offset : Int) : Ratio :=
  Ratio.scale 2 (4 * (b.significand : Int) + offset).toNat (b.exponent - 2)

/-- The number itself. -/
def value : Ratio := b.quarter 0

/-- The decimal is rounded to the number. -/
def admits (d : Decimal) : Bool :=
  let x := Ratio.ofDecimal d
  let low := b.quarter (if b.narrow then -1 else -2)
  let high := b.quarter 2
  (low.lt x && x.lt high) || (b.significand % 2 == 0 && (low.eq x || high.eq x))

/-- The position of the first digit: the greatest `e` with `10 ^ e` not above the number. -/
def magnitude : Int :=
  let v := b.value
  if v.den ≤ v.num then ((Nat.toDigits 10 (v.num / v.den)).length : Int) - 1
  else
    match (List.range 400).find? fun j => decide (v.den ≤ v.num * Nat.pow 10 j) with
    | some j => -(j : Int)
    | none => 0

/-- The best decimal with a number of digits, if one is rounded to the number. -/
def withDigits? (count : Nat) : Option Decimal :=
  let e := b.magnitude - count + 1
  let v := b.value.shift e
  let below : Decimal := ⟨v.num / v.den, e⟩
  let above : Decimal := ⟨v.num / v.den + 1, e⟩
  match b.admits below, b.admits above with
  | false, false => none
  | true, false => some below
  | false, true => some above
  | true, true =>
    let rest := 2 * (v.num % v.den)
    if rest < v.den then some below
    else if v.den < rest then some above
    else if below.digits % 2 == 0 then some below else some above

/-- The shortest decimal that reads back as the number, which is not zero. -/
def shortest : Decimal :=
  ((List.range 17).findSome? fun n => b.withDigits? (n + 1)).getD ⟨0, 0⟩

end Binary64

end Disinherit
