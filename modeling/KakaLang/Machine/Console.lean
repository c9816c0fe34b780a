/-!
The console of a program. It holds the answers to come, each a line or the fact that none could be
had, and a transcript of what was shown. When the answers are used up, a closed console answers that
none can be had, and an open one has its host wait.
-/

namespace KakaLang

inductive Shown where
  | line (text : String)
  | prompt (text : String)
deriving DecidableEq, Repr

structure Console where
  answers : List (Option String) := []
  closed : Bool := true
  transcript : Array Shown := #[]

namespace Console

def ofLines (lines : List String) : Console := { answers := lines.map some }

def put (console : Console) (entry : Shown) : Console :=
  { console with transcript := console.transcript.push entry }

def lines (console : Console) : List String :=
  console.transcript.toList.filterMap fun
    | .line text => some text
    | .prompt _ => none

def prompts (console : Console) : List String :=
  console.transcript.toList.filterMap fun
    | .line _ => none
    | .prompt text => some text

end Console

/-- What appears on the screen: a line ends with a newline, a prompt does not. -/
def Shown.screenText : Shown → String
  | .line text => text ++ "\n"
  | .prompt text => text

end KakaLang
