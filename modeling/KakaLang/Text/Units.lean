/-!
The order of texts. Texts are compared unit by unit in their sixteen-bit encoding, in which a
character beyond the basic plane takes two units that sort below U+E000.
-/

namespace KakaLang.Text

/-- The sixteen-bit units that encode one character. -/
def units (c : Char) : List Nat :=
  let n := c.toNat
  if n < 0x10000 then [n]
  else [0xD800 + (n - 0x10000) / 0x400, 0xDC00 + (n - 0x10000) % 0x400]

def encoded (text : String) : List Nat := text.toList.flatMap units

/-- Lexicographic order; a proper beginning comes first. -/
def compareUnits : List Nat → List Nat → Ordering
  | [], [] => .eq
  | [], _ :: _ => .lt
  | _ :: _, [] => .gt
  | a :: as, b :: bs =>
    if a < b then .lt else if b < a then .gt else compareUnits as bs

def compareText (left right : String) : Ordering :=
  compareUnits (encoded left) (encoded right)

end KakaLang.Text
