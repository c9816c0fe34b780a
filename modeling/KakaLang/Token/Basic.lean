/-!
Tokens. A keyword is one word or a phrase of two words; the phrases are listed once, and both the
scanner and the printer take their spelling from that list. Besides what a scanned text can hold,
a token kind may be one of the marks that scanning passes over; they have a name and no spelling.
-/

namespace KakaLang

inductive Keyword where
  | programStart
  | programEnd
  | declare
  | print
  | input
  | ifWord
  | elseWord
  | whileWord
  | breakWord
  | continueWord
  | function
  | returnWord
  | trueWord
  | falseWord
  | null
  | and
  | or
deriving DecidableEq, Repr

namespace Keyword

def all : List Keyword :=
  [.programStart, .programEnd, .declare, .print, .input, .ifWord, .elseWord, .whileWord,
    .breakWord, .continueWord, .function, .returnWord, .trueWord, .falseWord, .null, .and, .or]

/-- The words of a keyword, one or two of them. -/
def words : Keyword → List String
  | .programStart => ["ও", "কাকা"]
  | .programEnd => ["আসি", "কাকা"]
  | .declare => ["কাকা", "রাখো"]
  | .print => ["কাকা", "বলো"]
  | .input => ["কাকা", "শোনো"]
  | .ifWord => ["যদি", "কাকা"]
  | .elseWord => ["নাহলে", "কাকা"]
  | .whileWord => ["যতক্ষণ", "কাকা"]
  | .breakWord => ["ব্যাস", "কাকা"]
  | .continueWord => ["পরেরটা", "কাকা"]
  | .function => ["ফাংশন", "কাকা"]
  | .returnWord => ["ফেরত", "নাও"]
  | .trueWord => ["ঠিক"]
  | .falseWord => ["ভুল"]
  | .null => ["ফালতু"]
  | .and => ["এবং"]
  | .or => ["অথবা"]

/-- The words with one space between them. -/
def spelling (k : Keyword) : String := " ".intercalate k.words

def ofWords? (words : List String) : Option Keyword := all.find? fun k => k.words = words

end Keyword

inductive Symbol where
  | plus
  | minus
  | star
  | slash
  | percent
  | semicolon
  | comma
  | openParen
  | closeParen
  | openBrace
  | closeBrace
  | openBracket
  | closeBracket
  | equals
  | equalEqual
  | bangEqual
  | greater
  | greaterEqual
  | less
  | lessEqual
deriving DecidableEq, Repr

def Symbol.spelling : Symbol → String
  | .plus => "+"
  | .minus => "-"
  | .star => "*"
  | .slash => "/"
  | .percent => "%"
  | .semicolon => ";"
  | .comma => ","
  | .openParen => "("
  | .closeParen => ")"
  | .openBrace => "\x7b"
  | .closeBrace => "\x7d"
  | .openBracket => "["
  | .closeBracket => "]"
  | .equals => "="
  | .equalEqual => "=="
  | .bangEqual => "!="
  | .greater => ">"
  | .greaterEqual => ">="
  | .less => "<"
  | .lessEqual => "<="

/-- What scanning passes over or takes apart. No token of a scanned text is one of these. -/
inductive Mark where
  | word
  | bang
  | comment
  | newLine
  | ignored
deriving DecidableEq, Repr

def Mark.name : Mark → String
  | .word => "Word"
  | .bang => "Bang"
  | .comment => "Comment"
  | .newLine => "NewLine"
  | .ignored => "Ignored"

inductive TokenKind where
  | number (raw : String)
  | string (content : String)
  | identifier (name : String)
  | keyword (k : Keyword)
  | symbol (s : Symbol)
  | mark (m : Mark)
  | endOfInput
deriving DecidableEq, Repr

/-- How messages speak of a token. -/
def TokenKind.display : TokenKind → String
  | .number raw => "number '" ++ raw ++ "'"
  | .string content => "string \"" ++ content ++ "\""
  | .identifier name => "identifier '" ++ name ++ "'"
  | .keyword k => "'" ++ k.spelling ++ "'"
  | .symbol s => "'" ++ s.spelling ++ "'"
  | .mark m => m.name
  | .endOfInput => "end of input"

structure Token where
  kind : TokenKind
  /-- The text the token was scanned from. -/
  lexeme : String
  /-- The line on which the token starts. -/
  line : Nat
deriving DecidableEq, Repr

end KakaLang
