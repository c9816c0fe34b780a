/-!
Records of what a run does, for its host. Each has a level and a message.
-/

namespace KakaLang

inductive Record where
  | scanned (tokens lines : Nat)
  | parsedTopLevel (statements : Nat)
  | parsed (statements : Nat)
  | interpreting (statements : Nat)
  | stopped (kind : String) (line : Nat)
  | pushed (scope parent : Nat)
  | popped (scope : Nat)
  | declaring (name : String) (params : Nat)
  | calling (name : String) (depth arguments : Nat)
  | noInput (line : Nat)
deriving DecidableEq, Repr

inductive RecordLevel where
  | trace
  | debug
  | warn
deriving DecidableEq, Repr

namespace Record

def level : Record → RecordLevel
  | .scanned .. | .parsedTopLevel .. | .parsed .. | .interpreting .. | .stopped .. => .debug
  | .pushed .. | .popped .. | .declaring .. | .calling .. => .trace
  | .noInput .. => .warn

def message : Record → String
  | .scanned tokens lines =>
    "scanned " ++ toString tokens ++ " tokens over " ++ toString lines ++ " lines"
  | .parsedTopLevel statements => "parsed " ++ toString statements ++ " top-level statements"
  | .parsed statements => "parsed " ++ toString statements ++ " statements"
  | .interpreting statements => "interpreting " ++ toString statements ++ " top-level statements"
  | .stopped kind line =>
    "top-level " ++ kind ++ " on line " ++ toString line ++ " stopped the program"
  | .pushed scope parent =>
    "pushed scope " ++ toString scope ++ " (parent " ++ toString parent ++ ")"
  | .popped scope => "popped scope " ++ toString scope
  | .declaring name params =>
    "declaring function " ++ name ++ " with " ++ toString params ++ " parameters"
  | .calling name depth arguments =>
    "calling " ++ name ++ " at depth " ++ toString depth ++ " with " ++ toString arguments ++
      " arguments"
  | .noInput line => "no input available for line " ++ toString line ++ "; using null"

end Record

end KakaLang
