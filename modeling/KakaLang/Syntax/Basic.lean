import KakaLang.Token.Basic

/-!
Syntax trees. Every node carries the line that messages about it name. A function declaration also
carries its site, a number that tells declarations apart when functions are compared; a tree fresh
from its source has site zero everywhere, and sites are given out when the tree is loaded.
-/

namespace KakaLang

inductive Literal where
  | number (value : Float)
  | string (value : String)
  | bool (value : Bool)
  | null
deriving DecidableEq

inductive BinaryOp where
  | add
  | subtract
  | multiply
  | divide
  | modulo
  | less
  | greater
  | lessEqual
  | greaterEqual
  | equal
  | notEqual
deriving DecidableEq, Repr

inductive LogicalOp where
  | and
  | or
deriving DecidableEq, Repr

-- The levels at which constructs bind, the loosest first.
namespace Level

abbrev assignment : Nat := 1
abbrev or : Nat := 2
abbrev and : Nat := 3
abbrev equality : Nat := 4
abbrev comparison : Nat := 5
abbrev additive : Nat := 6
abbrev multiplicative : Nat := 7
abbrev operand : Nat := 8

end Level

namespace BinaryOp

def symbol : BinaryOp → Symbol
  | .add => .plus
  | .subtract => .minus
  | .multiply => .star
  | .divide => .slash
  | .modulo => .percent
  | .less => .less
  | .greater => .greater
  | .lessEqual => .lessEqual
  | .greaterEqual => .greaterEqual
  | .equal => .equalEqual
  | .notEqual => .bangEqual

def level : BinaryOp → Nat
  | .equal | .notEqual => Level.equality
  | .less | .greater | .lessEqual | .greaterEqual => Level.comparison
  | .add | .subtract => Level.additive
  | .multiply | .divide | .modulo => Level.multiplicative

def ofSymbol? : Symbol → Option BinaryOp
  | .plus => some .add
  | .minus => some .subtract
  | .star => some .multiply
  | .slash => some .divide
  | .percent => some .modulo
  | .less => some .less
  | .greater => some .greater
  | .lessEqual => some .lessEqual
  | .greaterEqual => some .greaterEqual
  | .equalEqual => some .equal
  | .bangEqual => some .notEqual
  | _ => none

end BinaryOp

namespace LogicalOp

def keyword : LogicalOp → Keyword
  | .and => .and
  | .or => .or

def level : LogicalOp → Nat
  | .and => Level.and
  | .or => Level.or

end LogicalOp

/-- The operators between two operands. -/
inductive Operator where
  | binary (op : BinaryOp)
  | logical (op : LogicalOp)
deriving DecidableEq, Repr

namespace Operator

def level : Operator → Nat
  | .binary op => op.level
  | .logical op => op.level

def spelling : Operator → String
  | .binary op => op.symbol.spelling
  | .logical op => op.keyword.spelling

def ofKind? : TokenKind → Option Operator
  | .symbol s => (BinaryOp.ofSymbol? s).map .binary
  | .keyword .and => some (.logical .and)
  | .keyword .or => some (.logical .or)
  | _ => none

end Operator

inductive Expr where
  | literal (value : Literal) (line : Nat)
  | ident (name : String) (line : Nat)
  | binary (op : BinaryOp) (left right : Expr) (line : Nat)
  | logical (op : LogicalOp) (left right : Expr) (line : Nat)
  | assign (name : String) (value : Expr) (line : Nat)
  | input (line : Nat)
  | call (callee : Expr) (arguments : List Expr) (line : Nat)
  | array (elements : List Expr) (line : Nat)
  | member (object property : Expr) (line : Nat)
deriving Inhabited

namespace Expr

def join : Operator → Expr → Expr → Nat → Expr
  | .binary op => .binary op
  | .logical op => .logical op

def line : Expr → Nat
  | .literal _ line | .ident _ line | .binary _ _ _ line | .logical _ _ _ line
  | .assign _ _ line | .input line | .call _ _ line | .array _ line | .member _ _ line => line

/-- How tightly the outermost construct of an expression binds. -/
def level : Expr → Nat
  | .assign .. => Level.assignment
  | .logical op .. => op.level
  | .binary op .. => op.level
  | _ => Level.operand

end Expr

mutual

inductive Statement where
  | declare (name : String) (value : Expr) (line : Nat)
  | print (value : Expr) (line : Nat)
  | branch (condition : Expr) (yes : Block) (no : Option Block) (line : Nat)
  | loop (condition : Expr) (body : Block) (line : Nat)
  | block (body : Block)
  | expression (value : Expr) (line : Nat)
  | leave (line : Nat)
  | next (line : Nat)
  | function (site : Nat) (name : String) (params : List String) (body : Block) (line : Nat)
  | give (value : Option Expr) (line : Nat)

inductive Block where
  | mk (statements : List Statement) (line : Nat)

end

instance : Inhabited Block := ⟨.mk [] 0⟩

instance : Inhabited Statement := ⟨.block default⟩

abbrev Program := List Statement

namespace Block

def statements : Block → List Statement
  | .mk statements _ => statements

def line : Block → Nat
  | .mk _ line => line

end Block

namespace Statement

def line : Statement → Nat
  | .declare _ _ line | .print _ line | .branch _ _ _ line | .loop _ _ line
  | .expression _ line | .leave line | .next line | .function _ _ _ _ line | .give _ line => line
  | .block body => body.line

def kindName : Statement → String
  | .declare .. => "variable declaration"
  | .print .. => "print"
  | .branch .. => "if"
  | .loop .. => "while"
  | .block .. => "block"
  | .expression .. => "expression"
  | .leave .. => "break"
  | .next .. => "continue"
  | .function .. => "function declaration"
  | .give .. => "return"

end Statement

end KakaLang
