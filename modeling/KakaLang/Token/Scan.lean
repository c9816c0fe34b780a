import KakaLang.Text.Blank
import KakaLang.Text.Digit
import KakaLang.Token.Basic

/-!
Scanning. At each place the longest piece is taken: a numeral, a quoted text, a word or a phrase of
two words, a symbol, or something that gives no token. A piece says only how many characters it
takes beyond its first, so the lexemes and what is passed over make up the text by construction.
Lines are counted over every piece alike.
-/

namespace KakaLang

namespace Scan

def isAsciiLetter (c : Char) : Bool := ('a' ≤ c && c ≤ 'z') || ('A' ≤ c && c ≤ 'Z')

/-- The Bengali block of Unicode, its digits included. -/
def isBengali (c : Char) : Bool := 0x980 ≤ c.toNat && c.toNat ≤ 0x9FF

def isWordStart (c : Char) : Bool :=
  isAsciiLetter c || c = '_' || (isBengali c && !Text.isBengaliDigit c)

def isWordPart (c : Char) : Bool :=
  isAsciiLetter c || Text.isAsciiDigit c || c = '_' || isBengali c

def isNumeralPart (c : Char) : Bool := Text.isDigit c || c = '.'

/-- A phrase of two words counts as a keyword only at the end of the text, before white space or
before one of these symbols. -/
def endsPhrase : List Char → Bool
  | [] => true
  | c :: _ => Text.isBlank c || ['(', ')', '{', '}', ';', ','].contains c

/-- The beginning of a text: the token it gives, if any, and how many characters follow its first. -/
structure Piece where
  kind : Option TokenKind
  extra : Nat
deriving DecidableEq, Repr

def word (c : Char) (rest : List Char) : Piece :=
  let tail := rest.takeWhile isWordPart
  let first := String.ofList (c :: tail)
  let name : Piece := ⟨some (.identifier first), tail.length⟩
  match Keyword.ofWords? [first] with
  | some k => ⟨some (.keyword k), tail.length⟩
  | none =>
    match rest.drop tail.length with
    | ' ' :: after =>
      let second := after.takeWhile isWordPart
      match Keyword.ofWords? [first, String.ofList second] with
      | some k =>
        if endsPhrase (after.drop second.length) then
          ⟨some (.keyword k), tail.length + 1 + second.length⟩
        else name
      | none => name
    | _ => name

/-- There are no escapes; without a closing quote the text runs to the end. -/
def quoted (quote : Char) (rest : List Char) : Piece :=
  let content := rest.takeWhile (· ≠ quote)
  let closing := if content.length < rest.length then 1 else 0
  ⟨some (.string (String.ofList content)), content.length + closing⟩

/-- A symbol that an equals sign may extend. -/
def extendable (alone extended : Option TokenKind) : List Char → Piece
  | '=' :: _ => ⟨extended, 1⟩
  | _ => ⟨alone, 0⟩

def symbol (s : Symbol) : Option TokenKind := some (.symbol s)

/-- The piece that starts with `c` before `rest`, unless nothing starts with it. -/
def piece? (c : Char) (rest : List Char) : Option Piece :=
  if Text.isDigit c then
    let tail := rest.takeWhile isNumeralPart
    some ⟨some (.number (String.ofList (c :: tail))), tail.length⟩
  else if isWordStart c then some (word c rest)
  else if Text.isGap c then some ⟨none, 0⟩
  else match c with
    | '"' => some (quoted '"' rest)
    | '\'' => some (quoted '\'' rest)
    | '/' =>
      match rest with
      | '/' :: _ => some ⟨none, (rest.takeWhile (· ≠ '\n')).length⟩
      | _ => some ⟨symbol .slash, 0⟩
    | '+' => some ⟨symbol .plus, 0⟩
    | '-' => some ⟨symbol .minus, 0⟩
    | '*' => some ⟨symbol .star, 0⟩
    | '%' => some ⟨symbol .percent, 0⟩
    | ';' => some ⟨symbol .semicolon, 0⟩
    | ',' => some ⟨symbol .comma, 0⟩
    | '(' => some ⟨symbol .openParen, 0⟩
    | ')' => some ⟨symbol .closeParen, 0⟩
    | '{' => some ⟨symbol .openBrace, 0⟩
    | '}' => some ⟨symbol .closeBrace, 0⟩
    | '[' => some ⟨symbol .openBracket, 0⟩
    | ']' => some ⟨symbol .closeBracket, 0⟩
    | '=' => some (extendable (symbol .equals) (symbol .equalEqual) rest)
    | '>' => some (extendable (symbol .greater) (symbol .greaterEqual) rest)
    | '<' => some (extendable (symbol .less) (symbol .lessEqual) rest)
    -- A bang alone is passed over.
    | '!' => some (extendable none (symbol .bangEqual) rest)
    | _ => none

end Scan

/-- A character that starts no piece. -/
structure UnknownCharacter where
  character : Char
  line : Nat
deriving DecidableEq, Repr

def UnknownCharacter.message (e : UnknownCharacter) : String :=
  "Error on line " ++ toString e.line ++ ": অচেনা অক্ষর (Unknown character): '" ++
    String.singleton e.character ++ "'."

namespace Token

/-- Scans a text that starts on the given line. Tokens already found are kept latest first. -/
def scanFrom (line : Nat) (text : List Char) (found : List Token) :
    Except UnknownCharacter (List Token) :=
  match text with
  | [] => .ok (⟨.endOfInput, "", line⟩ :: found).reverse
  | c :: rest =>
    match Scan.piece? c rest with
    | none => .error ⟨c, line⟩
    | some piece =>
      let lexeme := c :: rest.take piece.extra
      let next := line + lexeme.count '\n'
      match piece.kind with
      | none => scanFrom next (rest.drop piece.extra) found
      | some kind =>
        scanFrom next (rest.drop piece.extra) (⟨kind, String.ofList lexeme, line⟩ :: found)
termination_by text.length
decreasing_by all_goals simp only [List.length_drop, List.length_cons]; omega

/-- The tokens of a text, the end of input last. -/
def scan (source : String) : Except UnknownCharacter (List Token) :=
  scanFrom 1 source.toList []

end Token

end KakaLang
