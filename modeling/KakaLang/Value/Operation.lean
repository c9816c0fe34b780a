import KakaLang.Text.Units
import KakaLang.Value.Text

/-!
Binary operators on values. They never fail: operands of the wrong kind are converted. Addition
joins texts when either operand is textual, comparison orders texts when both are, and everything
else is done on numbers.
-/

namespace KakaLang

namespace Number

/-- The order of two numbers; there is none when either is not a number. -/
def order? (x y : Float) : Option Ordering :=
  if x < y then some .lt else if y < x then some .gt else if x == y then some .eq else none

end Number

namespace Value

def order? (heap : Heap) (left right : Value) : Option Ordering :=
  if left.isTextual && right.isTextual then
    some (Text.compareText (left.text heap) (right.text heap))
  else Number.order? (left.toNumber heap) (right.toNumber heap)

end Value

namespace BinaryOp

/-- An operation on the numbers that two values count as. -/
def onNumbers (f : Float → Float → Float) (heap : Heap) (left right : Value) : Value :=
  .number (f (left.toNumber heap) (right.toNumber heap))

/-- Does the order of two values satisfy a test? Values without an order satisfy none. -/
def onOrder (test : Ordering → Bool) (heap : Heap) (left right : Value) : Value :=
  .bool ((left.order? heap right).any test)

def apply (op : BinaryOp) (heap : Heap) (left right : Value) : Value :=
  match op with
  | .add =>
    if left.isTextual || right.isTextual then .string (left.text heap ++ right.text heap)
    else onNumbers Float.add heap left right
  | .subtract => onNumbers Float.sub heap left right
  | .multiply => onNumbers Float.mul heap left right
  | .divide => onNumbers Float.div heap left right
  | .modulo => onNumbers Number.remainder heap left right
  | .less => onOrder Ordering.isLT heap left right
  | .greater => onOrder Ordering.isGT heap left right
  | .lessEqual => onOrder Ordering.isLE heap left right
  | .greaterEqual => onOrder Ordering.isGE heap left right
  | .equal => .bool (left.strictEquals right)
  | .notEqual => .bool (!left.strictEquals right)

end BinaryOp

end KakaLang
