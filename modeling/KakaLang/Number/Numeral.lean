import KakaLang.Number.Binary
import KakaLang.Text.Blank
import KakaLang.Text.Digit

/-!
Reading numbers from text. The grammar and the value are kept apart: `Numeral.ofChars?` says which
texts are numerals and what they are made of, and `Numeral.value` gives the number. Between blanks
a numeral is nothing at all, a signed infinity, an unsigned integer with a radix mark, or a signed
decimal with optional fraction and exponent.
-/

namespace KakaLang.Number

inductive Radix where
  | binary
  | octal
  | hexadecimal
deriving DecidableEq, Repr

def Radix.base : Radix → Nat
  | .binary => 2
  | .octal => 8
  | .hexadecimal => 16

def Radix.ofMark? (c : Char) : Option Radix :=
  if c = 'b' || c = 'B' then some .binary
  else if c = 'o' || c = 'O' then some .octal
  else if c = 'x' || c = 'X' then some .hexadecimal
  else none

inductive Numeral where
  | blank
  | infinite (negative : Bool)
  | marked (radix : Radix) (digits : List Nat)
  | decimal (negative : Bool) (digits : List Char) (exponent : Int)
deriving DecidableEq, Repr

/-- Splits off a leading sign; without one the text is positive. -/
def splitSign : List Char → Bool × List Char
  | '-' :: rest => (true, rest)
  | '+' :: rest => (false, rest)
  | text => (false, text)

/-- Splits off the longest beginning of ASCII digits. -/
def splitDigits (text : List Char) : List Char × List Char := text.span Text.isAsciiDigit

namespace Numeral

/-- The size of an exponent. It is read from the left until it reaches `2 ^ 16`; the digits after
that count for nothing. -/
def exponentSize (digits : List Char) : Nat :=
  digits.foldl (fun size c => if size < 0x10000 then Text.appendDecimal size c else size) 0

/-- An optional exponent that ends the text. -/
def exponent? : List Char → Option Int
  | [] => some 0
  | mark :: rest =>
    if mark = 'e' || mark = 'E' then
      let (negative, digits) := splitSign rest
      if digits.isEmpty || !digits.all Text.isAsciiDigit then none
      else
        let size : Int := exponentSize digits
        some (if negative then -size else size)
    else none

/-- An unsigned decimal, with digits before or after the point or both. -/
def unsigned? (negative : Bool) (text : List Char) : Option Numeral :=
  let (whole, afterWhole) := splitDigits text
  let (fraction, rest) :=
    match afterWhole with
    | '.' :: afterPoint => splitDigits afterPoint
    | _ => ([], afterWhole)
  if whole.isEmpty && fraction.isEmpty then none
  else
    (exponent? rest).map fun exponent =>
      .decimal negative (whole ++ fraction) (exponent - fraction.length)

def infinityName : List Char := ['I', 'n', 'f', 'i', 'n', 'i', 't', 'y']

def signed? (text : List Char) : Option Numeral :=
  let (negative, rest) := splitSign text
  if rest = infinityName then some (.infinite negative) else unsigned? negative rest

/-- The digits after a radix mark, of which there must be one. -/
def marked? (radix : Radix) (text : List Char) : Option Numeral :=
  if text.isEmpty then none
  else (text.mapM (Text.digitValue? radix.base)).map (.marked radix)

/-- A text without blanks at its ends. -/
def trimmed? : List Char → Option Numeral
  | [] => some .blank
  | '0' :: mark :: rest =>
    match Radix.ofMark? mark with
    | some radix => marked? radix rest
    | none => signed? ('0' :: mark :: rest)
  | text => signed? text

def ofChars? (text : List Char) : Option Numeral := trimmed? (Text.trim Text.isGap text)

end Numeral

/-- One more digit of a radix: the exact sum, rounded once. An infinity stays. -/
def appendDigit (base : Nat) (x : Float) (digit : Nat) : Float :=
  match toNat? x with
  | some n => nearest false (n * base + digit) 1
  | none => x

/-- The number nearest to a signed decimal. Magnitudes far outside the range are decided by the
place of their leading digit, so that no huge power of ten is formed. -/
def ofDecimal (negative : Bool) (digits : List Char) (exponent : Int) : Float :=
  let significant := digits.dropWhile (· = '0')
  let top := exponent + significant.length
  if significant.isEmpty then zero negative
  else if 310 < top then infinity negative
  else if top < -330 then zero negative
  else nearest negative (tenfold (Text.decimalValue significant) exponent) (tenfold 1 (-exponent))

def Numeral.value : Numeral → Float
  | .blank => zero false
  | .infinite negative => infinity negative
  | .marked radix digits => digits.foldl (appendDigit radix.base) (zero false)
  | .decimal negative digits exponent => ofDecimal negative digits exponent

/-- The number that a text denotes, if it denotes one. Blank text denotes zero. -/
def read? (text : String) : Option Float :=
  (Numeral.ofChars? text.toList).map Numeral.value

end KakaLang.Number
