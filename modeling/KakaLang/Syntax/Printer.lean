import KakaLang.Number.Layout
import KakaLang.Syntax.Basic

/-!
The canonical source text of a program: one statement a line, two spaces of indentation for each
enclosing block, and parentheses only where the tree would otherwise change.
-/

namespace KakaLang

/-- A numeral has no sign, so a negative number is written as a subtraction. Infinity is written as a
numeral too large for any other value, and what is not a number as one with two points. -/
def numeralSource (x : Float) : String :=
  let word := Number.magnitude x
  if Number.infinityWord < word then "0.0.0"
  else
    let digits :=
      if word = Number.infinityWord then String.ofList ('1' :: List.replicate 309 '0')
      else Number.sourceDigits word
    if Number.isNegative x && word != 0 then "(0 - " ++ digits ++ ")" else digits

namespace Literal

/-- A text with double quotes in it is put between single ones. -/
def source : Literal → String
  | .number x => numeralSource x
  | .string s => if s.toList.contains '"' then "'" ++ s ++ "'" else "\"" ++ s ++ "\""
  | .bool true => Keyword.trueWord.spelling
  | .bool false => Keyword.falseWord.spelling
  | .null => Keyword.null.spelling

end Literal

namespace Expr

def parenthesized (needed : Bool) (text : String) : String :=
  if needed then "(" ++ text ++ ")" else text

mutual

/-- The text of an expression where a construct of at least the given level may stand. -/
def source (level : Nat) (e : Expr) : String :=
  parenthesized (e.level < level) <|
    match e with
    | .literal value _ => value.source
    | .ident name _ => name
    | .binary op left right _ =>
      left.source op.level ++ " " ++ op.symbol.spelling ++ " " ++ right.source (op.level + 1)
    | .logical op left right _ =>
      left.source op.level ++ " " ++ op.keyword.spelling ++ " " ++ right.source (op.level + 1)
    | .assign name value _ => name ++ " = " ++ value.source Level.assignment
    | .input _ => Keyword.input.spelling
    | .call callee arguments _ =>
      callee.source Level.operand ++ "(" ++ ", ".intercalate (sources arguments) ++ ")"
    | .array elements _ => "[" ++ ", ".intercalate (sources elements) ++ "]"
    | .member object property _ =>
      object.source Level.operand ++ "[" ++ property.source Level.assignment ++ "]"

def sources : List Expr → List String
  | [] => []
  | e :: es => e.source Level.assignment :: sources es

end

end Expr

/-- One line of text at a depth of indentation. -/
def sourceLine (depth : Nat) (text : String) : String :=
  String.ofList (List.replicate (2 * depth) ' ') ++ text ++ "\n"

namespace Statement

def header (k : Keyword) (condition : Expr) : String :=
  k.spelling ++ " (" ++ condition.source Level.assignment ++ ") \x7b"

mutual

def source (depth : Nat) : Statement → String
  | .declare name value _ =>
    sourceLine depth
      (Keyword.declare.spelling ++ " " ++ name ++ " = " ++ value.source Level.assignment ++ ";")
  | .print value _ =>
    sourceLine depth (Keyword.print.spelling ++ " " ++ value.source Level.assignment ++ ";")
  | .branch condition yes none _ =>
    sourceLine depth (header .ifWord condition) ++ blockSource (depth + 1) yes ++
      sourceLine depth "\x7d"
  | .branch condition yes (some no) _ =>
    sourceLine depth (header .ifWord condition) ++ blockSource (depth + 1) yes ++
      sourceLine depth ("\x7d " ++ Keyword.elseWord.spelling ++ " \x7b") ++
      blockSource (depth + 1) no ++ sourceLine depth "\x7d"
  | .loop condition body _ =>
    sourceLine depth (header .whileWord condition) ++ blockSource (depth + 1) body ++
      sourceLine depth "\x7d"
  | .block body =>
    sourceLine depth "\x7b" ++ blockSource (depth + 1) body ++ sourceLine depth "\x7d"
  | .expression value _ => sourceLine depth (value.source Level.assignment ++ ";")
  | .leave _ => sourceLine depth (Keyword.breakWord.spelling ++ ";")
  | .next _ => sourceLine depth (Keyword.continueWord.spelling ++ ";")
  | .function _ name params body _ =>
    sourceLine depth
        (Keyword.function.spelling ++ " " ++ name ++ "(" ++ ", ".intercalate params ++ ") \x7b") ++
      blockSource (depth + 1) body ++ sourceLine depth "\x7d"
  | .give none _ => sourceLine depth (Keyword.returnWord.spelling ++ ";")
  | .give (some value) _ =>
    sourceLine depth (Keyword.returnWord.spelling ++ " " ++ value.source Level.assignment ++ ";")

/-- The lines between the braces of a block. -/
def blockSource (depth : Nat) : Block → String
  | .mk statements _ => listSource depth statements

def listSource (depth : Nat) : List Statement → String
  | [] => ""
  | s :: rest => s.source depth ++ listSource depth rest

end

end Statement

def Program.source (p : Program) : String :=
  sourceLine 0 Keyword.programStart.spelling ++ Statement.listSource 1 p ++
    sourceLine 0 Keyword.programEnd.spelling

end KakaLang
