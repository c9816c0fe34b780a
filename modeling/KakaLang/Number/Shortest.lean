import KakaLang.Number.Binary
import KakaLang.Text.Digit

/-!
The shortest decimal of a number. A decimal reads back as a given number exactly when it lies in
the interval of the reals that round to it, whose ends belong to it when the significand is even.
Of the decimals in that interval those with the fewest digits are taken, and of these the nearest
to the number. On a grid of powers of ten only the two neighbours of the number matter: if any
point of the grid lies in the interval, then one of them does.
-/

namespace KakaLang.Number

/-- The number `digits * 10 ^ exponent`. -/
structure Decimal where
  digits : Nat
  exponent : Int
deriving DecidableEq, Repr

/-- The reals that round to one number, as quotients over one denominator. -/
structure Interval where
  low : Nat
  middle : Nat
  high : Nat
  den : Nat
  closed : Bool
deriving DecidableEq, Repr

/-- The interval of a positive finite word. Below a power of two the words lie twice as dense. -/
def Interval.ofWord (word : Nat) : Interval :=
  let d := Dyadic.ofWord word
  let lower := if d.significand = leadingBit && leastExponent < d.exponent then 1 else 2
  { low := shift (4 * d.significand - lower) d.exponent
    middle := shift (4 * d.significand) d.exponent
    high := shift (4 * d.significand + 2) d.exponent
    den := shift 4 (-d.exponent)
    closed := d.significand % 2 = 0 }

namespace Interval

/-- Does `digits * 10 ^ exponent` lie in the interval? -/
def holds (span : Interval) (digits : Nat) (exponent : Int) : Bool :=
  let point := tenfold (digits * span.den) exponent
  let low := tenfold span.low (-exponent)
  let high := tenfold span.high (-exponent)
  if span.closed then low ≤ point && point ≤ high else low < point && point < high

/-- The neighbour on the grid of `10 ^ exponent` below the middle or at it. -/
def below (span : Interval) (exponent : Int) : Nat :=
  tenfold span.middle (-exponent) / tenfold span.den exponent

/-- The nearest point of the grid that lies in the interval; a tie goes up. -/
def onGrid? (span : Interval) (exponent : Int) : Option Nat :=
  let down := span.below exponent
  let up := down + 1
  match span.holds down exponent, span.holds up exponent with
  | true, true =>
    let halfway := tenfold ((down + up) * span.den) exponent
    if tenfold (2 * span.middle) (-exponent) < halfway then some down else some up
  | true, false => some down
  | false, true => some up
  | false, false => none

/-- The exponent of the least power of ten above the middle. -/
def top (span : Interval) : Int :=
  if span.den ≤ span.middle then Text.decimalWidth (span.middle / span.den)
  else 1 - (Text.decimalWidth ((span.den - 1) / span.middle) : Int)

/-- Tries ever finer grids, as many as given. -/
def search (span : Interval) : Nat → Int → Decimal
  | 0, exponent => ⟨span.below exponent, exponent⟩
  | grids + 1, exponent =>
    match span.onGrid? exponent with
    | some digits => ⟨digits, exponent⟩
    | none => span.search grids (exponent - 1)

end Interval

/-- Moves trailing zeros of the digits into the exponent. -/
def Decimal.reduce (digits : Nat) (exponent : Int) : Decimal :=
  if digits ≠ 0 ∧ digits % 10 = 0 then Decimal.reduce (digits / 10) (exponent + 1)
  else ⟨digits, exponent⟩
termination_by digits
decreasing_by omega

/-- The shortest decimal of a positive finite word. Seventeen digits always suffice. -/
def shortest (word : Nat) : Decimal :=
  let span := Interval.ofWord word
  let found := span.search 17 (span.top - 1)
  Decimal.reduce found.digits found.exponent

end KakaLang.Number
