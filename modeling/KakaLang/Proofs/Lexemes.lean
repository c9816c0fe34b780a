import KakaLang.Syntax.Printer

/-!
The source text of a program as a list of lexemes. The printer writes strings; here the same text is
put together from its lexemes and the blanks between them, so that it can be said which lexeme a
stretch of the text is, and which node of the tree it was printed for.
-/

namespace KakaLang

inductive Lexeme where
  | space
  | newLine
  | symbol (s : Symbol)
  | keyword (k : Keyword)
  | name (text : String)
  | number (raw : String)
  | string (content : String)
deriving DecidableEq

namespace Lexeme

def text : Lexeme → List Char
  | space => [' ']
  | newLine => ['\n']
  | symbol s => s.spelling.toList
  | keyword k => k.spelling.toList
  | name text => text.toList
  | number raw => raw.toList
  | string content => (Literal.string content).source.toList

@[simp]
theorem text_space : space.text = [' '] := rfl

@[simp]
theorem text_newLine : newLine.text = ['\n'] := rfl

@[simp]
theorem text_symbol (s : Symbol) : (symbol s).text = s.spelling.toList := rfl

@[simp]
theorem text_keyword (k : Keyword) : (keyword k).text = k.spelling.toList := rfl

@[simp]
theorem text_name (n : String) : (name n).text = n.toList := rfl

def kind? : Lexeme → Option TokenKind
  | space => none
  | newLine => none
  | symbol s => some (.symbol s)
  | keyword k => some (.keyword k)
  | name text => some (.identifier text)
  | number raw => some (.number raw)
  | string content => some (.string content)

def ofLiteral : Literal → Lexeme
  | .number x => number (numeralSource x)
  | .string s => string s
  | .bool true => keyword .trueWord
  | .bool false => keyword .falseWord
  | .null => keyword .null

theorem text_ofLiteral (v : Literal) : (ofLiteral v).text = v.source.toList := by
  cases v with
  | bool b => cases b <;> rfl
  | _ => rfl

/-- The text that lexemes make up. -/
def join (ls : List Lexeme) : List Char := ls.flatMap text

@[simp]
theorem join_nil : join [] = [] := rfl

@[simp]
theorem join_cons (l : Lexeme) (ls : List Lexeme) : join (l :: ls) = l.text ++ join ls := rfl

@[simp]
theorem join_append (ls ms : List Lexeme) : join (ls ++ ms) = join ls ++ join ms :=
  List.flatMap_append

def parenthesized (needed : Bool) (ls : List Lexeme) : List Lexeme :=
  if needed then symbol .openParen :: (ls ++ [symbol .closeParen]) else ls

/-- Lists of lexemes, each after a comma and a space. -/
def following : List (List Lexeme) → List Lexeme
  | [] => []
  | ls :: rest => symbol .comma :: space :: (ls ++ following rest)

/-- Lists of lexemes with a comma and a space between them. -/
def separated : List (List Lexeme) → List Lexeme
  | [] => []
  | ls :: rest => ls ++ following rest

theorem join_separated (lss : List (List Lexeme)) :
    join (separated lss) = [',', ' '].intercalate (lss.map join) := by
  have hfollowing : ∀ (ls : List Lexeme) (lss : List (List Lexeme)),
      join ls ++ join (following lss) = [',', ' '].intercalate ((ls :: lss).map join) := by
    intro ls lss
    induction lss generalizing ls with
    | nil => simp [following, List.intercalate]
    | cons next rest ih =>
      have hrest := ih next
      simp only [following, join_cons, join_append, hrest]
      simp [List.intercalate, Symbol.spelling]
  cases lss with
  | nil => rfl
  | cons ls rest =>
    rw [separated, join_append]
    exact hfollowing ls rest

/-- The lexemes of one line. -/
def line (depth : Nat) (ls : List Lexeme) : List Lexeme :=
  List.replicate (2 * depth) space ++ (ls ++ [newLine])

end Lexeme

namespace Expr

open Lexeme (ofLiteral separated)

mutual

/-- The lexemes of an expression where a construct of at least the given level may stand. -/
def lexemes (level : Nat) (e : Expr) : List Lexeme :=
  Lexeme.parenthesized (e.level < level) <|
    match e with
    | .literal value _ => [ofLiteral value]
    | .ident name _ => [.name name]
    | .binary op left right _ =>
      left.lexemes op.level ++
        .space :: .symbol op.symbol :: .space :: right.lexemes (op.level + 1)
    | .logical op left right _ =>
      left.lexemes op.level ++
        .space :: .keyword op.keyword :: .space :: right.lexemes (op.level + 1)
    | .assign name value _ =>
      .name name :: .space :: .symbol .equals :: .space :: value.lexemes Level.assignment
    | .input _ => [.keyword .input]
    | .call callee arguments _ =>
      callee.lexemes Level.operand ++
        .symbol .openParen :: (separated (listLexemes arguments) ++ [.symbol .closeParen])
    | .array elements _ =>
      .symbol .openBracket :: (separated (listLexemes elements) ++ [.symbol .closeBracket])
    | .member object property _ =>
      object.lexemes Level.operand ++
        .symbol .openBracket :: (property.lexemes Level.assignment ++ [.symbol .closeBracket])

def listLexemes : List Expr → List (List Lexeme)
  | [] => []
  | e :: es => e.lexemes Level.assignment :: listLexemes es

end

theorem toList_parenthesized (needed : Bool) {text : String} {ls : List Lexeme}
    (h : text.toList = Lexeme.join ls) :
    (parenthesized needed text).toList = Lexeme.join (Lexeme.parenthesized needed ls) := by
  rw [parenthesized, Lexeme.parenthesized]
  cases needed
  · exact h
  · simp [h, Symbol.spelling]

mutual

/-- The lexemes of an expression make up its source text. -/
theorem toList_source (level : Nat) : (e : Expr) →
    (e.source level).toList = Lexeme.join (e.lexemes level)
  | .literal value _ => by
    rw [source, lexemes]
    apply toList_parenthesized
    simp [Lexeme.text_ofLiteral]
  | .ident name _ => by
    rw [source, lexemes]
    apply toList_parenthesized
    simp
  | .binary op left right _ => by
    rw [source, lexemes]
    apply toList_parenthesized
    simp [toList_source _ left, toList_source _ right]
  | .logical op left right _ => by
    rw [source, lexemes]
    apply toList_parenthesized
    simp [toList_source _ left, toList_source _ right]
  | .assign name value _ => by
    rw [source, lexemes]
    apply toList_parenthesized
    simp [Symbol.spelling, toList_source _ value]
  | .input _ => by
    rw [source, lexemes]
    apply toList_parenthesized
    simp
  | .call callee arguments _ => by
    rw [source, lexemes]
    apply toList_parenthesized
    simp [Symbol.spelling, toList_source _ callee, Lexeme.join_separated,
      toList_sources arguments]
  | .array elements _ => by
    rw [source, lexemes]
    apply toList_parenthesized
    simp [Symbol.spelling, Lexeme.join_separated, toList_sources elements]
  | .member object property _ => by
    rw [source, lexemes]
    apply toList_parenthesized
    simp [Symbol.spelling, toList_source _ object, toList_source _ property]

theorem toList_sources : (es : List Expr) →
    (sources es).map String.toList = (listLexemes es).map Lexeme.join
  | [] => rfl
  | e :: es => by
    rw [sources, listLexemes, List.map_cons, List.map_cons, toList_source _ e, toList_sources es]

end

end Expr

namespace Statement

open Lexeme (separated)

def headerLexemes (k : Keyword) (condition : Expr) : List Lexeme :=
  .keyword k :: .space :: .symbol .openParen ::
    (condition.lexemes Level.assignment ++ [.symbol .closeParen, .space, .symbol .openBrace])

mutual

def lexemes (depth : Nat) : Statement → List Lexeme
  | .declare name value _ =>
    Lexeme.line depth
      (.keyword .declare :: .space :: .name name :: .space :: .symbol .equals :: .space ::
        (value.lexemes Level.assignment ++ [.symbol .semicolon]))
  | .print value _ =>
    Lexeme.line depth
      (.keyword .print :: .space :: (value.lexemes Level.assignment ++ [.symbol .semicolon]))
  | .branch condition yes none _ =>
    Lexeme.line depth (headerLexemes .ifWord condition) ++ blockLexemes (depth + 1) yes ++
      Lexeme.line depth [.symbol .closeBrace]
  | .branch condition yes (some no) _ =>
    Lexeme.line depth (headerLexemes .ifWord condition) ++ blockLexemes (depth + 1) yes ++
      Lexeme.line depth
        [.symbol .closeBrace, .space, .keyword .elseWord, .space, .symbol .openBrace] ++
      blockLexemes (depth + 1) no ++ Lexeme.line depth [.symbol .closeBrace]
  | .loop condition body _ =>
    Lexeme.line depth (headerLexemes .whileWord condition) ++ blockLexemes (depth + 1) body ++
      Lexeme.line depth [.symbol .closeBrace]
  | .block body =>
    Lexeme.line depth [.symbol .openBrace] ++ blockLexemes (depth + 1) body ++
      Lexeme.line depth [.symbol .closeBrace]
  | .expression value _ =>
    Lexeme.line depth (value.lexemes Level.assignment ++ [.symbol .semicolon])
  | .leave _ => Lexeme.line depth [.keyword .breakWord, .symbol .semicolon]
  | .next _ => Lexeme.line depth [.keyword .continueWord, .symbol .semicolon]
  | .function _ name params body _ =>
    Lexeme.line depth
        (.keyword .function :: .space :: .name name :: .symbol .openParen ::
          (separated (params.map fun param => [.name param]) ++
            [.symbol .closeParen, .space, .symbol .openBrace])) ++
      blockLexemes (depth + 1) body ++ Lexeme.line depth [.symbol .closeBrace]
  | .give none _ => Lexeme.line depth [.keyword .returnWord, .symbol .semicolon]
  | .give (some value) _ =>
    Lexeme.line depth
      (.keyword .returnWord :: .space :: (value.lexemes Level.assignment ++ [.symbol .semicolon]))

def blockLexemes (depth : Nat) : Block → List Lexeme
  | .mk statements _ => listLexemes depth statements

def listLexemes (depth : Nat) : List Statement → List Lexeme
  | [] => []
  | s :: rest => s.lexemes depth ++ listLexemes depth rest

end

theorem toList_sourceLine (depth : Nat) {text : String} {ls : List Lexeme}
    (h : text.toList = Lexeme.join ls) :
    (sourceLine depth text).toList = Lexeme.join (Lexeme.line depth ls) := by
  have hindent : ∀ n, Lexeme.join (List.replicate n .space) = List.replicate n ' ' := by
    intro n
    induction n with
    | zero => rfl
    | succ n ih => simp [List.replicate_succ, ih]
  simp [sourceLine, Lexeme.line, h, hindent]

theorem toList_header (k : Keyword) (condition : Expr) :
    (header k condition).toList = Lexeme.join (headerLexemes k condition) := by
  simp [header, headerLexemes, Symbol.spelling, condition.toList_source]

theorem toList_closing (depth : Nat) :
    (sourceLine depth "\x7d").toList = Lexeme.join (Lexeme.line depth [.symbol .closeBrace]) :=
  toList_sourceLine depth rfl

mutual

/-- The lexemes of a statement make up its lines. -/
theorem toList_source (depth : Nat) : (s : Statement) →
    (s.source depth).toList = Lexeme.join (s.lexemes depth)
  | .declare name value _ => by
    rw [source, lexemes]
    apply toList_sourceLine
    simp [Symbol.spelling, value.toList_source]
  | .print value _ => by
    rw [source, lexemes]
    apply toList_sourceLine
    simp [Symbol.spelling, value.toList_source]
  | .branch condition yes none _ => by
    simp [source, lexemes, toList_sourceLine depth (toList_header .ifWord condition),
      toList_blockSource _ yes, toList_closing]
  | .branch condition yes (some no) _ => by
    have helse : ("\x7d " ++ Keyword.elseWord.spelling ++ " \x7b").toList =
        Lexeme.join [.symbol .closeBrace, .space, .keyword .elseWord, .space, .symbol .openBrace] := by
      simp [Symbol.spelling]
    simp [source, lexemes, toList_sourceLine depth (toList_header .ifWord condition),
      toList_blockSource _ yes, toList_blockSource _ no, toList_sourceLine depth helse,
      toList_closing]
  | .loop condition body _ => by
    simp [source, lexemes, toList_sourceLine depth (toList_header .whileWord condition),
      toList_blockSource _ body, toList_closing]
  | .block body => by
    have hopening : "\x7b".toList = Lexeme.join [.symbol .openBrace] := rfl
    simp [source, lexemes, toList_sourceLine depth hopening, toList_blockSource _ body,
      toList_closing]
  | .expression value _ => by
    rw [source, lexemes]
    apply toList_sourceLine
    simp [Symbol.spelling, value.toList_source]
  | .leave _ => toList_sourceLine depth rfl
  | .next _ => toList_sourceLine depth rfl
  | .function _ name params body _ => by
    have hparams : (params.map fun param => [Lexeme.name param]).map Lexeme.join =
        params.map String.toList := by
      simp
    have hhead : (Keyword.function.spelling ++ " " ++ name ++ "(" ++ ", ".intercalate params ++
        ") \x7b").toList =
        Lexeme.join (.keyword .function :: .space :: .name name :: .symbol .openParen ::
          (separated (params.map fun param => [.name param]) ++
            [.symbol .closeParen, .space, .symbol .openBrace])) := by
      simp [Symbol.spelling, Lexeme.join_separated, hparams]
    simp [source, lexemes, toList_sourceLine depth hhead, toList_blockSource _ body,
      toList_closing]
  | .give none _ => toList_sourceLine depth rfl
  | .give (some value) _ => by
    rw [source, lexemes]
    apply toList_sourceLine
    simp [Symbol.spelling, value.toList_source]

theorem toList_blockSource (depth : Nat) : (b : Block) →
    (blockSource depth b).toList = Lexeme.join (blockLexemes depth b)
  | .mk statements _ => by
    rw [blockSource, blockLexemes, toList_listSource depth statements]

theorem toList_listSource (depth : Nat) : (ss : List Statement) →
    (listSource depth ss).toList = Lexeme.join (listLexemes depth ss)
  | [] => rfl
  | s :: rest => by
    rw [listSource, listLexemes, String.toList_append, Lexeme.join_append, toList_source depth s,
      toList_listSource depth rest]

end

end Statement

def Program.lexemes (p : Program) : List Lexeme :=
  Lexeme.line 0 [.keyword .programStart] ++ Statement.listLexemes 1 p ++
    Lexeme.line 0 [.keyword .programEnd]

/-- The lexemes of a program make up its source text. -/
theorem Program.toList_source (p : Program) : p.source.toList = Lexeme.join p.lexemes := by
  have hstart : Keyword.programStart.spelling.toList =
      Lexeme.join [.keyword .programStart] := by simp
  have hstop : Keyword.programEnd.spelling.toList = Lexeme.join [.keyword .programEnd] := by
    simp
  simp [Program.source, Program.lexemes, Statement.toList_sourceLine 0 hstart,
    Statement.toList_listSource, Statement.toList_sourceLine 0 hstop]

end KakaLang
