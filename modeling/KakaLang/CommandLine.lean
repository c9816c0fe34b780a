import KakaLang.Session
import KakaLang.Syntax.Printer

/-!
The command line. It names one file and says what to do with it: run it, list its tokens, or print
it in canonical form. The limits of a run come from flags, and where a flag is absent from
environment variables.
-/

namespace KakaLang.CommandLine

/-- The limits that the command line sets. -/
inductive Setting where
  | outputLines
  | time
  | callDepth
deriving DecidableEq, Repr

namespace Setting

def ofFlag? (flag : String) : Option Setting :=
  if flag = "max-output-lines" then some .outputLines
  else if flag = "timeout-ms" then some .time
  else if flag = "max-call-depth" then some .callDepth
  else none

def environmentName : Setting → String
  | .outputLines => "KAKA_MAX_OUTPUT_LINES"
  | .time => "KAKA_TIMEOUT_MS"
  | .callDepth => "KAKA_MAX_CALL_DEPTH"

end Setting

inductive Mode where
  | run
  | tokens
  | format
deriving DecidableEq, Repr

structure Options where
  file : String
  mode : Mode
  limits : Limits
deriving DecidableEq, Repr

/-- Why the arguments give no options. -/
inductive Refusal where
  | usage
  | version
  | help
deriving DecidableEq, Repr

/-- What the arguments read so far have said. -/
structure Seen where
  file : Option String := none
  numbers : List (Setting × Nat) := []
  tokens : Bool := false
  format : Bool := false
deriving DecidableEq, Repr

/-- A natural number below `2 ^ 64`, with an optional plus sign. -/
def number? (text : String) : Option Nat :=
  let digits := match text.toList with
    | '+' :: rest => rest
    | digits => digits
  if digits.isEmpty || !digits.all Text.isAsciiDigit then none
  else
    let n := Text.decimalValue digits
    if n < 0x10000000000000000 then some n else none

namespace Seen

def addFile (seen : Seen) (path : String) : Except Refusal Seen :=
  if path.isEmpty || seen.file.isSome then .error .usage else .ok { seen with file := some path }

def addFiles (seen : Seen) : List String → Except Refusal Seen
  | [] => .ok seen
  | path :: rest => do (← seen.addFile path).addFiles rest

def addNumber (seen : Seen) (setting : Setting) (text : String) : Except Refusal Seen :=
  match number? text with
  | some n =>
    if (seen.numbers.lookup setting).isSome then .error .usage
    else .ok { seen with numbers := (setting, n) :: seen.numbers }
  | none => .error .usage

/-- A flag that stands alone. -/
def addFlag (seen : Seen) (flag : String) : Except Refusal Seen :=
  if flag = "version" then .error .version
  else if flag = "help" then .error .help
  else if flag = "tokens" && !seen.tokens then .ok { seen with tokens := true }
  else if flag = "format" && !seen.format then .ok { seen with format := true }
  else .error .usage

end Seen

/-- What an argument is by its dashes. A single dash alone is no flag. -/
inductive Argument where
  | plain
  | separator
  | short (letter : Char)
  | long (flag : String) (value : Option String)
deriving DecidableEq, Repr

def Argument.ofText (text : String) : Argument :=
  match text.toList with
  | ['-', '-'] => .separator
  | '-' :: '-' :: rest =>
    let flag := rest.takeWhile (· ≠ '=')
    match rest.drop flag.length with
    | [] => .long (String.ofList flag) none
    | _ :: value => .long (String.ofList flag) (some (String.ofList value))
  | '-' :: letter :: _ => .short letter
  | _ => .plain

/-- Reads arguments from left to right. The first one that cannot be taken decides. -/
def readArguments (seen : Seen) : List String → Except Refusal Seen
  | [] => .ok seen
  | text :: rest =>
    match Argument.ofText text with
    | .plain => do readArguments (← seen.addFile text) rest
    | .separator => seen.addFiles rest
    | .short 'V' => .error .version
    | .short 'h' => .error .help
    | .short _ => .error .usage
    | .long flag value =>
      match Setting.ofFlag? flag, value with
      | none, none => do readArguments (← seen.addFlag flag) rest
      | none, some _ => .error .usage
      | some setting, some value => do readArguments (← seen.addNumber setting value) rest
      | some setting, none =>
        match rest with
        | [] => .error .usage
        | next :: rest =>
          if Argument.ofText next = .plain then do
            readArguments (← seen.addNumber setting next) rest
          else .error .usage

/-- A flag goes before its environment variable. -/
def resolve (environment : String → Option String) (seen : Seen) (setting : Setting) :
    Except Refusal (Option Nat) :=
  match seen.numbers.lookup setting, environment setting.environmentName with
  | some n, _ => .ok (some n)
  | none, none => .ok none
  | none, some text =>
    match number? text with
    | some n => .ok (some n)
    | none => .error .usage

def options (environment : String → Option String) (arguments : List String) :
    Except Refusal Options := do
  let seen ← readArguments {} arguments
  let outputLines ← resolve environment seen .outputLines
  let time ← resolve environment seen .time
  let callDepth ← resolve environment seen .callDepth
  let limits : Limits :=
    { outputLines := outputLines, time := time, callDepth := callDepth.getD ({} : Limits).callDepth }
  match seen.file, seen.tokens, seen.format with
  | none, _, _ => .error .usage
  | some _, true, true => .error .usage
  | some file, true, false => .ok ⟨file, .tokens, limits⟩
  | some file, false, true => .ok ⟨file, .format, limits⟩
  | some file, false, false => .ok ⟨file, .run, limits⟩

/-- What is found where a file is looked for. -/
inductive Contents where
  | text (source : String)
  | missing
  | directory
  | notText
  | unreadable (reason : String)
deriving DecidableEq, Repr

def Contents.source (path : String) : Contents → Except String String
  | .text source => .ok source
  | .missing => .error ("Reading " ++ path ++ ": No such file or directory (os error 2)")
  | .directory => .error ("Reading " ++ path ++ ": Is a directory (os error 21)")
  | .notText => .error ("Reading " ++ path ++ ": stream did not contain valid UTF-8")
  | .unreadable reason => .error ("Reading " ++ path ++ ": " ++ reason)

/-- The outcome of a command. -/
structure Report where
  code : Nat
  output : String := ""
  complaint : String := ""
deriving DecidableEq, Repr

def Report.failure (output message : String) : Report :=
  ⟨1, output, "ভুল হয়েছে কাকা (Error): " ++ message ++ "\n"⟩

def usage : String :=
  "Usage: kaka [OPTIONS] <FILE>\n\n" ++
  "Options:\n" ++
  "  --max-output-lines <N>  Stops the program once it has printed this many lines\n" ++
  "  --timeout-ms <N>        Stops the program after this many milliseconds\n" ++
  "  --max-call-depth <N>    Maximum depth of nested function calls\n" ++
  "  --tokens                Prints the tokens instead of running the program\n" ++
  "  --format                Prints the program in canonical form instead of running it\n" ++
  "  -h, --help              Prints this text\n" ++
  "  -V, --version           Prints the version\n"

def Report.ofRefusal : Refusal → Report
  | .usage => { code := 2, complaint := usage }
  | .version => { code := 0, output := "kaka 0.1.0\n" }
  | .help => { code := 0, output := usage }

/-- One line for a token: its line number on the right of four columns, then what it is. -/
def tokenLine (t : Token) : String :=
  let line := toString t.line
  String.ofList (List.replicate (4 - line.length) ' ') ++ line ++ "  " ++ t.kind.display ++ "\n"

def listTokens (source : String) : Report :=
  match Token.scan source with
  | .ok tokens => { code := 0, output := String.join (tokens.map tokenLine) }
  | .error e => .failure "" e.message

def format (source : String) : Report :=
  match Session.program source {} with
  | .ok p _ => { code := 0, output := p.source }
  | .error e _ => .failure "" e.message

/-- The report of a finished run, from its result and the machine it left. -/
def Report.ofRun (result : Except Failure Unit) (m : Machine) : Report :=
  let output := String.join (m.console.transcript.toList.map Shown.screenText)
  match result with
  | .ok _ => { code := 0, output := output }
  | .error e => .failure output e.message

def run (settings : Settings) (steps : Nat) (console : Console) (source : String) : Report :=
  match Session.run settings steps source { console := console } with
  | .ok _ m => .ofRun (.ok ()) m
  | .error e m => .ofRun (.error e) m

/-- The whole command, given what the file and the standard input hold. -/
def command (environment : String → Option String) (file : String → Contents)
    (answers : List (Option String)) (clock : Nat → Nat) (steps : Nat)
    (arguments : List String) : Report :=
  match options environment arguments with
  | .error refusal => .ofRefusal refusal
  | .ok o =>
    match (file o.file).source o.file with
    | .error message => .failure "" message
    | .ok source =>
      match o.mode with
      | .tokens => listTokens source
      | .format => format source
      | .run => run ⟨o.limits, clock⟩ steps { answers := answers } source

/-- A line of standard input without its line ending, or nothing if it is not UTF-8. -/
def answer? (line : ByteArray) : Option String :=
  (String.fromUTF8? line).map fun text =>
    match text.toList.reverse with
    | '\n' :: '\r' :: rest => String.ofList rest.reverse
    | '\n' :: rest => String.ofList rest.reverse
    | _ => text

/-- The lines of standard input. The last one may lack its line ending. -/
def answers (input : List UInt8) (line : ByteArray) : List (Option String) :=
  match input with
  | [] => if line.isEmpty then [] else [answer? line]
  | byte :: rest =>
    if byte = 10 then answer? (line.push byte) :: answers rest .empty
    else answers rest (line.push byte)

end KakaLang.CommandLine
