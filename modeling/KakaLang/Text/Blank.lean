/-!
Blank characters. White space is the Unicode property of that name; a byte-order mark is not
white space, but a numeral and a program may stand between such marks as well.
-/

namespace KakaLang.Text

/-- The characters with the Unicode property White_Space. -/
def isBlank (c : Char) : Bool :=
  let n := c.toNat
  (9 ≤ n && n ≤ 13) || n == 0x20 || n == 0x85 || n == 0xA0 || n == 0x1680 ||
    (0x2000 ≤ n && n ≤ 0x200A) || n == 0x2028 || n == 0x2029 || n == 0x202F ||
    n == 0x205F || n == 0x3000

def isByteOrderMark (c : Char) : Bool := c.toNat == 0xFEFF

/-- White space or a byte-order mark. -/
def isGap (c : Char) : Bool := isBlank c || isByteOrderMark c

/-- Drops the characters of a class from both ends. -/
def trim (p : Char → Bool) (text : List Char) : List Char :=
  ((text.dropWhile p).reverse.dropWhile p).reverse

end KakaLang.Text
