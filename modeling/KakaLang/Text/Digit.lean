/-!
Decimal digits in the two scripts a program may be written in: ASCII and Bengali. A numeral may
mix them, and its value is read after every digit has been brought to ASCII.
-/

namespace KakaLang.Text

def isAsciiDigit (c : Char) : Bool := '0' ≤ c && c ≤ '9'

def isBengaliDigit (c : Char) : Bool := 0x9E6 ≤ c.toNat && c.toNat ≤ 0x9EF

def isDigit (c : Char) : Bool := isAsciiDigit c || isBengaliDigit c

/-- The ASCII digit of the same value; every other character stays as it is. -/
def asciiDigit (c : Char) : Char :=
  if isBengaliDigit c then Char.ofNat (c.toNat - 0x9E6 + 0x30) else c

def asciiDigits (text : List Char) : List Char := text.map asciiDigit

/-- The value of a digit in a radix up to sixteen, letters in either case. -/
def digitValue? (radix : Nat) (c : Char) : Option Nat :=
  let value :=
    if '0' ≤ c && c ≤ '9' then some (c.toNat - 0x30)
    else if 'a' ≤ c && c ≤ 'f' then some (c.toNat - 0x61 + 10)
    else if 'A' ≤ c && c ≤ 'F' then some (c.toNat - 0x41 + 10)
    else none
  value.filter (· < radix)

/-- One more decimal digit after a number. -/
def appendDecimal (value : Nat) (digit : Char) : Nat := 10 * value + (digit.toNat - 0x30)

/-- The number that a word of ASCII digits denotes. A long word is read by halves, which keeps the
products balanced. -/
def decimalValue (digits : List Char) : Nat :=
  if digits.length ≤ 16 then digits.foldl appendDecimal 0
  else
    let half := digits.length / 2
    decimalValue (digits.take half) * Nat.pow 10 (digits.length - half) +
      decimalValue (digits.drop half)
termination_by digits.length
decreasing_by
  · simp only [List.length_take]; omega
  · simp only [List.length_drop]; omega

/-- How many decimal digits a number has; zero has none. -/
def decimalWidth (n : Nat) : Nat :=
  if n = 0 then 0 else decimalWidth (n / 10) + 1
termination_by n
decreasing_by omega

end KakaLang.Text
