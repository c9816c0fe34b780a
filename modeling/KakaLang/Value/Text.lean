import KakaLang.Number.Layout
import KakaLang.Number.Numeral
import KakaLang.Value.Basic

/-!
The text of a value. An array is its elements with commas between them; null and undefined elements
are empty, and so is an array that is met again inside itself. The arrays being written are kept in
a list, and since it never holds one twice, writing goes no deeper than there are arrays.
-/

namespace KakaLang.Value

def functionText (name : String) : String := "[ফাংশন " ++ name ++ "]"

/-- The text of a value without the elements that an array has. -/
def ownText : Value → String
  | .number x => Number.text x
  | .string s => s
  | .bool b => if b then "true" else "false"
  | .null => "null"
  | .undefined => "undefined"
  | .array _ => ""
  | .function f => functionText f.name
  | .method m _ => functionText m.name

/-- The text of a value, where the state holds the arrays that are being written; none if it takes
more than so many calls inside one another. -/
def write (heap : Heap) : Nat → Value → StateT (List ArrayId) Option String
  | 0, _ => failure
  | depth + 1, .array id => do
    let opened ← get
    if opened.contains id then
      return ""
    set (id :: opened)
    let texts ← (heap.elements id).toList.mapM fun element =>
      if element.isVoid then pure "" else write heap depth element
    modify List.tail
    return ",".intercalate texts
  | _ + 1, v => pure v.ownText

def text (heap : Heap) (v : Value) : String :=
  ((v.write heap (heap.size + 1)).run' []).getD ""

/-- The number that a value counts as in arithmetic. -/
def toNumber (heap : Heap) : Value → Float
  | .number x => x
  | .string s => (Number.read? s).getD Number.notANumber
  | .bool b => if b then 1 else 0
  | .null => 0
  | .array id => (Number.read? (text heap (.array id))).getD Number.notANumber
  | .undefined | .function _ | .method _ _ => Number.notANumber

end KakaLang.Value
