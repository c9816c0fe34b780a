import KakaLang.Number.Shortest

/-!
Numbers as text. The digits are always those of the shortest decimal; what differs is where the
point stands. Program output is positional for decimal exponents from -6 to 20 and scientific with
a signed exponent outside. Numerals in source text are positional for every magnitude.
-/

namespace KakaLang.Number

namespace Decimal

def digitChars (d : Decimal) : List Char := Nat.toDigits 10 d.digits

/-- The exponent of the leading digit. -/
def leadingExponent (d : Decimal) : Int := d.exponent + d.digitChars.length - 1

/-- The digits with the point at its place, or without one when there is no fraction. -/
def positional (d : Decimal) : List Char :=
  let digits := d.digitChars
  if 0 ≤ d.exponent then digits ++ List.replicate d.exponent.toNat '0'
  else
    let places := (-d.exponent).toNat
    if places < digits.length then
      let whole := digits.length - places
      digits.take whole ++ '.' :: digits.drop whole
    else '0' :: '.' :: List.replicate (places - digits.length) '0' ++ digits

/-- One digit before the point, and the exponent with its sign. -/
def scientific (d : Decimal) : List Char :=
  let mantissa :=
    match d.digitChars with
    | [] => []
    | [digit] => [digit]
    | digit :: fraction => digit :: '.' :: fraction
  let exponent := d.leadingExponent
  let sign := if exponent < 0 then '-' else '+'
  mantissa ++ 'e' :: sign :: Nat.toDigits 10 exponent.natAbs

end Decimal

/-- The least and the greatest exponent of a leading digit that output writes positionally. -/
structure Layout where
  least : Int
  greatest : Int
deriving DecidableEq, Repr

def outputLayout : Layout := ⟨-6, 20⟩

def Layout.render (layout : Layout) (d : Decimal) : List Char :=
  let exponent := d.leadingExponent
  if layout.least ≤ exponent && exponent ≤ layout.greatest then d.positional else d.scientific

/-- The text of a number in program output. Both zeros are written alike. -/
def text (x : Float) : String :=
  let word := magnitude x
  if infinityWord < word then "NaN"
  else
    let body :=
      if word = infinityWord then "Infinity".toList else outputLayout.render (shortest word)
    if word = 0 then "0"
    else String.ofList (if isNegative x then '-' :: body else body)

/-- The digits of a number's magnitude in source text, without exponent. -/
def sourceDigits (word : Nat) : String :=
  if word = 0 then "0" else String.ofList (shortest word).positional

end KakaLang.Number
