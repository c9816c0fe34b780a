import KakaLang.Syntax.Parser

/-!
The grammar of programs, stated without a parser. A derivation is a tree of productions with actual
tokens at its leaves, so the tokens it spells and the syntax tree it stands for are both read off it.
The only condition that is not a production concerns assignments: the left side must stand for an
identifier. A derivation that violates it spells tokens but stands for no tree.
-/

namespace KakaLang

/-- The kind of token that spells an operator. -/
def Operator.kind : Operator → TokenKind
  | .binary op => .symbol op.symbol
  | .logical op => .keyword op.keyword

namespace Grammar

/-- A token of the given kind. -/
abbrev Terminal (kind : TokenKind) := { t : Token // t.kind = kind }

/-- An identifier together with its name. -/
structure Name where
  text : String
  token : Terminal (.identifier text)

/-- An operator of the given level. -/
structure Sign (level : Nat) where
  op : Operator
  token : Terminal op.kind
  level_eq : op.level = level

/-- The expressions spelled by a single token on the given line. -/
inductive Atom (line : Nat) : TokenKind → Expr → Prop
  | number (raw : String) :
      Atom line (.number raw) (.literal (.number (Parser.numeralValue raw)) line)
  | string (content : String) : Atom line (.string content) (.literal (.string content) line)
  | name (name : String) : Atom line (.identifier name) (.ident name line)
  | trueWord : Atom line (.keyword .trueWord) (.literal (.bool true) line)
  | falseWord : Atom line (.keyword .falseWord) (.literal (.bool false) line)
  | null : Atom line (.keyword .null) (.literal .null line)
  | input : Atom line (.keyword .input) (.input line)

mutual

/-- `expression := operation ("=" expression)?`, the operation being one of the loosest level. -/
inductive Expression : Type
  | plain (value : Operation Level.or)
  | assign (target : Operation Level.or) (equals : Terminal (.symbol .equals)) (value : Expression)

/-- `operation := next (operator next)*` at every level, an operand being the tightest. -/
inductive Operation : Nat → Type
  | operand (value : Operand) : Operation Level.operand
  | chain {level : Nat} (looser : level < Level.operand) (first : Operation (level + 1))
      (tail : Tail level) : Operation level

inductive Tail : Nat → Type
  | nil {level : Nat} : Tail level
  | cons {level : Nat} (sign : Sign level) (right : Operation (level + 1)) (rest : Tail level) :
      Tail level

/-- `operand := primary ("(" items ")" | "[" expression "]")*` -/
inductive Operand : Type
  | mk (head : Primary) (suffixes : Suffixes)

inductive Suffixes : Type
  | nil
  | call (opening : Terminal (.symbol .openParen)) (arguments : Items)
      (closing : Terminal (.symbol .closeParen)) (rest : Suffixes)
  | member (opening : Terminal (.symbol .openBracket)) (property : Expression)
      (closing : Terminal (.symbol .closeBracket)) (rest : Suffixes)

/-- `primary := atom | "[" items "]" | "(" expression ")"` -/
inductive Primary : Type
  | atom (token : Token) (value : Expr) (h : Atom token.line token.kind value)
  | array (opening : Terminal (.symbol .openBracket)) (elements : Items)
      (closing : Terminal (.symbol .closeBracket))
  | group (opening : Terminal (.symbol .openParen)) (inner : Expression)
      (closing : Terminal (.symbol .closeParen))

/-- `items := (expression ("," expression)*)?` -/
inductive Items : Type
  | empty
  | cons (first : Expression) (more : More)

inductive More : Type
  | nil
  | cons (comma : Terminal (.symbol .comma)) (item : Expression) (more : More)

end

-- The tokens that a derivation spells, from left to right.
mutual

def Expression.tokens : Expression → List Token
  | .plain value => value.tokens
  | .assign target equals value => target.tokens ++ equals.val :: value.tokens

def Operation.tokens : {level : Nat} → Operation level → List Token
  | _, .operand value => value.tokens
  | _, .chain _ first tail => first.tokens ++ tail.tokens

def Tail.tokens : {level : Nat} → Tail level → List Token
  | _, .nil => []
  | _, .cons sign right rest => sign.token.val :: (right.tokens ++ rest.tokens)

def Operand.tokens : Operand → List Token
  | .mk head suffixes => head.tokens ++ suffixes.tokens

def Suffixes.tokens : Suffixes → List Token
  | .nil => []
  | .call opening arguments closing rest =>
    opening.val :: (arguments.tokens ++ closing.val :: rest.tokens)
  | .member opening property closing rest =>
    opening.val :: (property.tokens ++ closing.val :: rest.tokens)

def Primary.tokens : Primary → List Token
  | .atom token _ _ => [token]
  | .array opening elements closing => opening.val :: (elements.tokens ++ [closing.val])
  | .group opening inner closing => opening.val :: (inner.tokens ++ [closing.val])

def Items.tokens : Items → List Token
  | .empty => []
  | .cons first more => first.tokens ++ more.tokens

def More.tokens : More → List Token
  | .nil => []
  | .cons comma item more => comma.val :: (item.tokens ++ more.tokens)

end

-- The syntax tree that a derivation stands for. Chains join to the left, and every node takes the
-- line of its own token: the operator, the opening symbol, or the identifier assigned to.
mutual

def Expression.tree? : Expression → Option Expr
  | .plain value => value.tree?
  | .assign target _ value => do
    let .ident name line ← target.tree? | none
    return .assign name (← value.tree?) line

def Operation.tree? : {level : Nat} → Operation level → Option Expr
  | _, .operand value => value.tree?
  | _, .chain _ first tail => do tail.join? (← first.tree?)

def Tail.join? : {level : Nat} → Tail level → Expr → Option Expr
  | _, .nil, left => some left
  | _, .cons sign right rest, left => do
    rest.join? (.join sign.op left (← right.tree?) sign.token.val.line)

def Operand.tree? : Operand → Option Expr
  | .mk head suffixes => do suffixes.extend? (← head.tree?)

def Suffixes.extend? : Suffixes → Expr → Option Expr
  | .nil, head => some head
  | .call opening arguments _ rest, head => do
    rest.extend? (.call head (← arguments.trees?) opening.val.line)
  | .member opening property _ rest, head => do
    rest.extend? (.member head (← property.tree?) opening.val.line)

def Primary.tree? : Primary → Option Expr
  | .atom _ value _ => some value
  | .array opening elements _ => do return .array (← elements.trees?) opening.val.line
  | .group _ inner _ => inner.tree?

def Items.trees? : Items → Option (List Expr)
  | .empty => some []
  | .cons first more => do return (← first.tree?) :: (← more.trees?)

def More.trees? : More → Option (List Expr)
  | .nil => some []
  | .cons _ item more => do return (← item.tree?) :: (← more.trees?)

end

/-- `"(" expression ")"` -/
structure Condition where
  opening : Terminal (.symbol .openParen)
  value : Expression
  closing : Terminal (.symbol .closeParen)

def Condition.tokens (c : Condition) : List Token :=
  c.opening.val :: (c.value.tokens ++ [c.closing.val])

/-- `expression ";"` -/
structure Terminated where
  value : Expression
  semicolon : Terminal (.symbol .semicolon)

def Terminated.tokens (t : Terminated) : List Token := t.value.tokens ++ [t.semicolon.val]

/-- `params := (name ("," name)*)?` -/
inductive Params where
  | empty
  | cons (first : Name) (more : List (Terminal (.symbol .comma) × Name))

namespace Params

def tokens : Params → List Token
  | .empty => []
  | .cons first more => first.token.val :: more.flatMap fun p => [p.1.val, p.2.token.val]

def names : Params → List String
  | .empty => []
  | .cons first more => first.text :: more.map (·.2.text)

end Params

mutual

/-- One production for each form of statement, a return with a value apart from one without. -/
inductive Statement : Type
  | declare (keyword : Terminal (.keyword .declare)) (name : Name)
      (equals : Terminal (.symbol .equals)) (value : Terminated)
  | print (keyword : Terminal (.keyword .print)) (value : Terminated)
  | branch (keyword : Terminal (.keyword .ifWord)) (condition : Condition) (yes : Block)
      (no : Else)
  | loop (keyword : Terminal (.keyword .whileWord)) (condition : Condition) (body : Block)
  | block (body : Block)
  | leave (keyword : Terminal (.keyword .breakWord)) (semicolon : Terminal (.symbol .semicolon))
  | next (keyword : Terminal (.keyword .continueWord)) (semicolon : Terminal (.symbol .semicolon))
  | function (keyword : Terminal (.keyword .function)) (name : Name)
      (opening : Terminal (.symbol .openParen)) (params : Params)
      (closing : Terminal (.symbol .closeParen)) (body : Block)
  | give (keyword : Terminal (.keyword .returnWord)) (semicolon : Terminal (.symbol .semicolon))
  | giveValue (keyword : Terminal (.keyword .returnWord)) (value : Terminated)
  | expression (value : Terminated)

inductive Else : Type
  | absent
  | present (keyword : Terminal (.keyword .elseWord)) (body : Block)

/-- `block := "{" statement* "}"` -/
inductive Block : Type
  | mk (opening : Terminal (.symbol .openBrace)) (body : Statements)
      (closing : Terminal (.symbol .closeBrace))

inductive Statements : Type
  | nil
  | cons (first : Statement) (rest : Statements)

end

mutual

def Statement.tokens : Statement → List Token
  | .declare keyword name equals value =>
    keyword.val :: name.token.val :: equals.val :: value.tokens
  | .print keyword value => keyword.val :: value.tokens
  | .branch keyword condition yes no =>
    keyword.val :: (condition.tokens ++ (yes.tokens ++ no.tokens))
  | .loop keyword condition body => keyword.val :: (condition.tokens ++ body.tokens)
  | .block body => body.tokens
  | .leave keyword semicolon => [keyword.val, semicolon.val]
  | .next keyword semicolon => [keyword.val, semicolon.val]
  | .function keyword name opening params closing body =>
    keyword.val :: name.token.val :: opening.val ::
      (params.tokens ++ closing.val :: body.tokens)
  | .give keyword semicolon => [keyword.val, semicolon.val]
  | .giveValue keyword value => keyword.val :: value.tokens
  | .expression value => value.tokens

def Else.tokens : Else → List Token
  | .absent => []
  | .present keyword body => keyword.val :: body.tokens

def Block.tokens : Block → List Token
  | .mk opening body closing => opening.val :: (body.tokens ++ [closing.val])

def Statements.tokens : Statements → List Token
  | .nil => []
  | .cons first rest => first.tokens ++ rest.tokens

end

mutual

/-- A statement takes the line of its first token. -/
def Statement.tree? : Statement → Option KakaLang.Statement
  | .declare keyword name _ value => do
    return .declare name.text (← value.value.tree?) keyword.val.line
  | .print keyword value => do return .print (← value.value.tree?) keyword.val.line
  | .branch keyword condition yes no => do
    return .branch (← condition.value.tree?) (← yes.tree?) (← no.tree?) keyword.val.line
  | .loop keyword condition body => do
    return .loop (← condition.value.tree?) (← body.tree?) keyword.val.line
  | .block body => do return .block (← body.tree?)
  | .leave keyword _ => some (.leave keyword.val.line)
  | .next keyword _ => some (.next keyword.val.line)
  | .function keyword name _ params _ body => do
    return .function 0 name.text params.names (← body.tree?) keyword.val.line
  | .give keyword _ => some (.give none keyword.val.line)
  | .giveValue keyword value => do return .give (some (← value.value.tree?)) keyword.val.line
  | .expression value => do
    return .expression (← value.value.tree?) (Parser.lineOf value.tokens)

def Else.tree? : Else → Option (Option KakaLang.Block)
  | .absent => some none
  | .present _ body => do return some (← body.tree?)

def Block.tree? : Block → Option KakaLang.Block
  | .mk opening body _ => do return .mk (← body.trees?) opening.val.line

def Statements.trees? : Statements → Option (List KakaLang.Statement)
  | .nil => some []
  | .cons first rest => do return (← first.tree?) :: (← rest.trees?)

end

/-- `program := start statement* end`, the start and the end being markers. -/
structure Whole where
  start : Terminal (.keyword .programStart)
  body : Statements
  stop : Terminal (.keyword .programEnd)

namespace Whole

def tokens (w : Whole) : List Token := w.start.val :: (w.body.tokens ++ [w.stop.val])

def program? (w : Whole) : Option Program := w.body.trees?

end Whole

end Grammar

end KakaLang
