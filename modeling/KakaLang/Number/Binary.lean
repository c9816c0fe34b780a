/-!
Binary64 numbers as words of bits. The 63 low bits of a finite number hold its magnitude, and
read as one natural number they order the magnitudes: the word `e * 2 ^ 52 + f` stands for
`f * 2 ^ (-1074)` when `e` is zero and for `(2 ^ 52 + f) * 2 ^ (e - 1075)` otherwise. The word
after the largest finite one stands for infinity, and every larger word for not-a-number.

Rounding goes from an exact quotient of natural numbers to the nearest word, a tie to the even
one. Reading decimals, folding digits of a radix and remainders all end in that one function.
-/

namespace KakaLang.Number

/-- The weight of the leading significand bit, `2 ^ 52`. -/
def leadingBit : Nat := 0x10000000000000

def signBit : Nat := 0x8000000000000000

def infinityWord : Nat := 0x7FF0000000000000

def isNegative (x : Float) : Bool := signBit ≤ x.toBits.toNat

/-- The magnitude of a number as a word of 63 bits. -/
def magnitude (x : Float) : Nat := x.toBits.toNat % signBit

def ofWord (negative : Bool) (word : Nat) : Float :=
  Float.ofBits (UInt64.ofNat (if negative then word + signBit else word))

def infinity (negative : Bool) : Float := ofWord negative infinityWord

def zero (negative : Bool) : Float := ofWord negative 0

def notANumber : Float := ofWord false (infinityWord + leadingBit / 2)

/-- A magnitude `significand * 2 ^ exponent`. -/
structure Dyadic where
  significand : Nat
  exponent : Int
deriving DecidableEq, Repr

/-- The least exponent of a significand, shared by all words below `2 * leadingBit`. -/
def leastExponent : Int := -1074

def Dyadic.ofWord (word : Nat) : Dyadic :=
  let field := word / leadingBit
  let fraction := word % leadingBit
  if field = 0 then ⟨fraction, leastExponent⟩
  else ⟨leadingBit + fraction, leastExponent + (field - 1 : Nat)⟩

/-- `n * 2 ^ k` for a natural `k`, and `n` itself when `k` is negative. -/
def shift (n : Nat) (k : Int) : Nat := n <<< k.toNat

/-- `n * 10 ^ k` for a natural `k`, and `n` itself when `k` is negative. -/
def tenfold (n : Nat) (k : Int) : Nat := n * Nat.pow 10 k.toNat

/-- The exponent of the power of two at or below a positive quotient. -/
def floorLog (num den : Nat) : Int :=
  let guess : Int := (Nat.log2 num : Int) - (Nat.log2 den : Int)
  if shift den guess ≤ shift num (-guess) then guess else guess - 1

/-- A quotient rounded to the nearest natural number, a tie to the even one. -/
def roundDiv (num den : Nat) : Nat :=
  let floor := num / den
  let rest := num % den
  if 2 * rest < den then floor
  else if den < 2 * rest then floor + 1
  else floor + floor % 2

/-- The word nearest to a quotient. Beyond the largest finite word it is the word of infinity. -/
def nearestWord (num den : Nat) : Nat :=
  if num = 0 then 0
  else
    let wanted := floorLog num den - 52
    let exponent := if wanted < leastExponent then leastExponent else wanted
    let significand := roundDiv (shift num (-exponent)) (shift den exponent)
    -- A significand that rounds up to `2 ^ 53` carries into the exponent by itself.
    let word := (exponent - leastExponent).toNat * leadingBit + significand
    if infinityWord < word then infinityWord else word

/-- The number nearest to a signed quotient. -/
def nearest (negative : Bool) (num den : Nat) : Float :=
  ofWord negative (nearestWord num den)

/-- The remainder of a division rounded toward zero; it has the sign of the dividend. -/
def remainder (x y : Float) : Float :=
  let a := magnitude x
  let b := magnitude y
  if infinityWord ≤ a || infinityWord < b || b = 0 then notANumber
  else if b = infinityWord then x
  else
    let u := Dyadic.ofWord a
    let v := Dyadic.ofWord b
    let common := if u.exponent < v.exponent then u.exponent else v.exponent
    let rest :=
      shift u.significand (u.exponent - common) % shift v.significand (v.exponent - common)
    nearest (isNegative x) (shift rest common) (shift 1 (-common))

/-- The natural number that a number is, if it is one. Both zeros are. -/
def toNat? (x : Float) : Option Nat :=
  let word := magnitude x
  if infinityWord ≤ word then none
  else
    let d := Dyadic.ofWord word
    let den := shift 1 (-d.exponent)
    if isNegative x && word != 0 then none
    else if d.significand % den = 0 then some (shift (d.significand / den) d.exponent)
    else none

end KakaLang.Number
