import KakaLang.Proofs.NumeralRoundTrip
import KakaLang.Syntax.Basic

/-!
Syntax trees without their lines. Two programs are the same apart from line numbers when they are
equal once every line is erased; the sites of functions are erased along with the lines, since they
are given out only when a tree is loaded. A change to the literals may be applied on the way, which
is used to identify the two zeros.
-/

namespace KakaLang

/-- Both zeros become the one without a sign. -/
def Literal.unsigned : Literal → Literal
  | .number x => .number (Number.unsignedZero x)
  | v => v

namespace Expr

mutual

def bare (f : Literal → Literal) : Expr → Expr
  | .literal value _ => .literal (f value) 0
  | .ident name _ => .ident name 0
  | .binary op left right _ => .binary op (left.bare f) (right.bare f) 0
  | .logical op left right _ => .logical op (left.bare f) (right.bare f) 0
  | .assign name value _ => .assign name (value.bare f) 0
  | .input _ => .input 0
  | .call callee arguments _ => .call (callee.bare f) (bareAll f arguments) 0
  | .array elements _ => .array (bareAll f elements) 0
  | .member object property _ => .member (object.bare f) (property.bare f) 0

def bareAll (f : Literal → Literal) : List Expr → List Expr
  | [] => []
  | e :: es => e.bare f :: bareAll f es

end

end Expr

namespace Statement

mutual

def bare (f : Literal → Literal) : Statement → Statement
  | .declare name value _ => .declare name (value.bare f) 0
  | .print value _ => .print (value.bare f) 0
  | .branch condition yes none _ => .branch (condition.bare f) (bareBlock f yes) none 0
  | .branch condition yes (some no) _ =>
    .branch (condition.bare f) (bareBlock f yes) (some (bareBlock f no)) 0
  | .loop condition body _ => .loop (condition.bare f) (bareBlock f body) 0
  | .block body => .block (bareBlock f body)
  | .expression value _ => .expression (value.bare f) 0
  | .leave _ => .leave 0
  | .next _ => .next 0
  | .function _ name params body _ => .function 0 name params (bareBlock f body) 0
  | .give value _ => .give (value.map (·.bare f)) 0

def bareBlock (f : Literal → Literal) : Block → Block
  | .mk statements _ => .mk (bareAll f statements) 0

def bareAll (f : Literal → Literal) : List Statement → List Statement
  | [] => []
  | s :: rest => s.bare f :: bareAll f rest

end

end Statement

/-- The program without its lines, its literals changed by `f`. -/
def Program.bare (f : Literal → Literal) (p : Program) : Program := Statement.bareAll f p

end KakaLang
