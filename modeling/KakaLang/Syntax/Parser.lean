import KakaLang.Number.Numeral
import KakaLang.Syntax.Basic

/-!
Reading syntax trees from tokens. A parser takes tokens off the front of a list and leaves the rest,
both when it succeeds and when it fails; a failure leaves the token it complains about. One token
decides every choice.

Operators are read by level: a chain at some level takes operands that bind more tightly and joins
them from the left. The parsers that call each other count down a depth, and a depth proportional
to the number of tokens is never used up, since every round of calls takes a token. What would be
answered if it were is a parameter, so that this can be stated.
-/

namespace KakaLang

/-- What a parser insists on. -/
inductive Wanted where
  | symbol (s : Symbol)
  | identifier
deriving DecidableEq, Repr

def Wanted.display : Wanted → String
  | .symbol s => (TokenKind.symbol s).display
  | .identifier => "identifier"

inductive SyntaxError where
  | missingStart (line : Nat)
  | missingEnd (line : Nat)
  | expected (wanted : Wanted) (found : TokenKind) (line : Nat)
  | unexpected (found : TokenKind) (line : Nat)
  | invalidTarget (line : Nat)
deriving DecidableEq, Repr

namespace SyntaxError

def line : SyntaxError → Nat
  | .missingStart line | .missingEnd line | .expected _ _ line | .unexpected _ line
  | .invalidTarget line => line

def explanation : SyntaxError → String
  | .missingStart _ => "শুরুতে 'ও কাকা' বলো! (Program must start with 'ও কাকা')."
  | .missingEnd _ => "শেষে 'আসি কাকা' বলো! (Program must end with 'আসি কাকা')."
  | .expected wanted found _ => "Expected " ++ wanted.display ++ ", found " ++ found.display ++ "."
  | .unexpected found _ => "অপ্রত্যাশিত টোকেন (Unexpected token): " ++ found.display ++ "."
  | .invalidTarget _ => "Invalid assignment target."

def message (e : SyntaxError) : String :=
  "Error on line " ++ toString e.line ++ ": " ++ e.explanation

end SyntaxError

abbrev Parser := EStateM SyntaxError (List Token)

namespace Parser

/-- The kind of the next token. Past the last token it is the end of input. -/
def kindOf : List Token → TokenKind
  | [] => .endOfInput
  | token :: _ => token.kind

/-- The line of the next token, or zero past the last one. -/
def lineOf : List Token → Nat
  | [] => 0
  | token :: _ => token.line

def kind : Parser TokenKind := do return kindOf (← get)

def line : Parser Nat := do return lineOf (← get)

def advance : Parser Unit := modify List.tail

def reject (e : TokenKind → Nat → SyntaxError) : Parser α := do
  throw (e (← kind) (← line))

/-- Takes a symbol and gives its line. -/
def expect (s : Symbol) : Parser Nat := do
  if (← kind) = .symbol s then
    let line ← line
    advance
    return line
  else reject (.expected (.symbol s))

/-- Takes a token of the given kind if it is next. -/
def accept (k : TokenKind) : Parser Bool := do
  if (← kind) = k then
    advance
    return true
  else return false

def identifier : Parser String := do
  match ← kind with
  | .identifier name =>
    advance
    return name
  | _ => reject (.expected .identifier)

/-- The value of a numeral in source text. What is no numeral is not a number. -/
def numeralValue (raw : String) : Float :=
  (Number.read? (String.ofList (Text.asciiDigits raw.toList))).getD Number.notANumber

/-- The expression that a token is by itself. -/
def atom? (kind : TokenKind) (line : Nat) : Option Expr :=
  match kind with
  | .number raw => some (.literal (.number (numeralValue raw)) line)
  | .string content => some (.literal (.string content) line)
  | .identifier name => some (.ident name line)
  | .keyword .trueWord => some (.literal (.bool true) line)
  | .keyword .falseWord => some (.literal (.bool false) line)
  | .keyword .null => some (.literal .null line)
  | .keyword .input => some (.input line)
  | _ => none

/-- The next operator, if it binds at least as tightly as the level. -/
def operator? (level : Nat) : Parser (Option Operator) := do
  return (Operator.ofKind? (← kind)).filter (level ≤ ·.level)

section

-- The error once the depth is used up.
variable (spent : TokenKind → Nat → SyntaxError)

/-- The rest of a list of names after its opening parenthesis, with those already read latest
first. -/
def names : Nat → List String → Parser (List String)
  | 0, _ => reject spent
  | depth + 1, found => do
    let name ← identifier
    if ← accept (.symbol .comma) then names depth (name :: found)
    else
      let _ ← expect .closeParen
      return (name :: found).reverse

namespace Within

mutual

/-- An expression: an assignment, or operands joined by operators. -/
def expression : Nat → Parser Expr
  | 0 => reject spent
  | depth + 1 => do
    let target ← operation depth Level.or
    if (← kind) = .symbol .equals then
      let equalsLine ← line
      advance
      let value ← expression depth
      match target with
      | .ident name line => return .assign name value line
      | _ => throw (.invalidTarget equalsLine)
    else return target

/-- Operands joined by operators of at least the given level. -/
def operation : Nat → Nat → Parser Expr
  | 0, _ => reject spent
  | depth + 1, level => do
    let first ← operand depth
    chain depth level first

/-- What follows the left operand of a chain at the given level. -/
def chain : Nat → Nat → Expr → Parser Expr
  | 0, _, _ => reject spent
  | depth + 1, level, left => do
    match ← operator? level with
    | some op =>
      let opLine ← line
      advance
      let right ← operation depth (op.level + 1)
      chain depth level (.join op left right opLine)
    | none => return left

/-- A primary expression with the calls and member accesses after it. -/
def operand : Nat → Parser Expr
  | 0 => reject spent
  | depth + 1 => do
    let head ← primary depth
    suffixes depth head

def suffixes : Nat → Expr → Parser Expr
  | 0, _ => reject spent
  | depth + 1, head => do
    match ← kind with
    | .symbol .openParen =>
      let line ← line
      advance
      let arguments ← list depth .closeParen
      suffixes depth (.call head arguments line)
    | .symbol .openBracket =>
      let line ← line
      advance
      let property ← expression depth
      let _ ← expect .closeBracket
      suffixes depth (.member head property line)
    | _ => return head

def primary : Nat → Parser Expr
  | 0 => reject spent
  | depth + 1 => do
    let line ← line
    match ← kind with
    | .symbol .openBracket =>
      advance
      return .array (← list depth .closeBracket) line
    | .symbol .openParen =>
      advance
      let inner ← expression depth
      let _ ← expect .closeParen
      return inner
    | kind =>
      match atom? kind line with
      | some e =>
        advance
        return e
      | none => reject .unexpected

/-- Expressions between commas up to a closing symbol, after the opening one. -/
def list : Nat → Symbol → Parser (List Expr)
  | 0, _ => reject spent
  | depth + 1, closing => do
    if ← accept (.symbol closing) then return []
    else items depth closing []

def items : Nat → Symbol → List Expr → Parser (List Expr)
  | 0, _, _ => reject spent
  | depth + 1, closing, found => do
    let item ← expression depth
    if ← accept (.symbol .comma) then items depth closing (item :: found)
    else
      let _ ← expect closing
      return (item :: found).reverse

end

/-- An expression in parentheses. -/
def condition (depth : Nat) : Parser Expr := do
  let _ ← expect .openParen
  let condition ← expression spent depth
  let _ ← expect .closeParen
  return condition

/-- An expression before a semicolon. -/
def terminated (depth : Nat) : Parser Expr := do
  let value ← expression spent depth
  let _ ← expect .semicolon
  return value

mutual

def statement : Nat → Parser Statement
  | 0 => reject spent
  | depth + 1 => do
    let line ← line
    match ← kind with
    | .keyword .declare =>
      advance
      let name ← identifier
      let _ ← expect .equals
      return .declare name (← terminated spent depth) line
    | .keyword .print =>
      advance
      return .print (← terminated spent depth) line
    | .keyword .ifWord =>
      advance
      let condition ← condition spent depth
      let yes ← block depth
      if ← accept (.keyword .elseWord) then
        return .branch condition yes (some (← block depth)) line
      else return .branch condition yes none line
    | .keyword .whileWord =>
      advance
      let condition ← condition spent depth
      return .loop condition (← block depth) line
    | .symbol .openBrace => return .block (← block depth)
    | .keyword .breakWord =>
      advance
      let _ ← expect .semicolon
      return .leave line
    | .keyword .continueWord =>
      advance
      let _ ← expect .semicolon
      return .next line
    | .keyword .function =>
      advance
      let name ← identifier
      let _ ← expect .openParen
      let params ← if ← accept (.symbol .closeParen) then pure [] else names spent depth []
      return .function 0 name params (← block depth) line
    | .keyword .returnWord =>
      advance
      if ← accept (.symbol .semicolon) then return .give none line
      else return .give (some (← terminated spent depth)) line
    | _ => return .expression (← terminated spent depth) line

def block : Nat → Parser Block
  | 0 => reject spent
  | depth + 1 => do
    let line ← expect .openBrace
    let body ← statements depth (.symbol .closeBrace) []
    let _ ← expect .closeBrace
    return .mk body line

/-- Statements up to a token of the given kind or the end of input, with those already read latest
first. -/
def statements : Nat → TokenKind → List Statement → Parser (List Statement)
  | 0, _, _ => reject spent
  | depth + 1, stop, found => do
    let kind ← kind
    if kind = stop ∨ kind = .endOfInput then return found.reverse
    else
      let s ← statement depth
      statements depth stop (s :: found)

end

end Within

end

/-- A depth that is enough for the given tokens. -/
def enough (tokens : List Token) : Nat := 8 * (tokens.length + 1)

/-- Runs a parser with a depth that is enough for the tokens ahead. -/
def deeply (p : (TokenKind → Nat → SyntaxError) → Nat → Parser α) : Parser α := do
  p .unexpected (enough (← get))

def expression : Parser Expr := deeply Within.expression

def operation (level : Nat) : Parser Expr :=
  deeply fun spent depth => Within.operation spent depth level

def operand : Parser Expr := deeply Within.operand

def primary : Parser Expr := deeply Within.primary

def statement : Parser Statement := deeply Within.statement

def block : Parser Block := deeply Within.block

def statementsUntil (stop : TokenKind) : Parser (List Statement) :=
  deeply fun spent depth => Within.statements spent depth stop []

/-- A program between its two markers. Nothing after the end marker is looked at. -/
def program : Parser Program := do
  if ← accept (.keyword .programStart) then
    let body ← statementsUntil (.keyword .programEnd)
    if (← kind) = .keyword .programEnd then return body
    else throw (.missingEnd (← line))
  else throw (.missingStart (max (← line) 1))

end Parser

/-- The program that tokens spell out. -/
def Program.ofTokens (tokens : List Token) : Except SyntaxError Program :=
  match Parser.program tokens with
  | .ok program _ => .ok program
  | .error e _ => .error e

end KakaLang
