import KakaLang.Machine.Console
import KakaLang.Machine.Environment
import KakaLang.Machine.Journal

/-!
The state of a run and the actions on it. An action ends with a result, with a runtime error or by
being cut off, and in every case with the state it has reached. Limits and the clock are settings
that no action changes.
-/

namespace KakaLang

structure Limits where
  outputLines : Option Nat := none
  /-- In milliseconds. -/
  time : Option Nat := none
  callDepth : Nat := 1000
deriving DecidableEq, Repr

/-- The limits of a run, and the microseconds that have passed at each look at the clock. -/
structure Settings where
  limits : Limits := {}
  clock : Nat → Nat := fun _ => 0

/-- A clock on which a microsecond passes between looks. -/
def steadyClock : Nat → Nat := fun looks => looks + 1

inductive RuntimeError where
  | undefinedVariable (name : String) (line : Nat)
  | notCallable (found : String) (line : Nat)
  | unsupportedMember (line : Nat)
  | outputLimit (limit line : Nat)
  | timeLimit (millis line : Nat)
  | callDepth (limit line : Nat)
deriving DecidableEq, Repr

namespace RuntimeError

def line : RuntimeError → Nat
  | .undefinedVariable _ line | .notCallable _ line | .unsupportedMember line
  | .outputLimit _ line | .timeLimit _ line | .callDepth _ line => line

def explanation : RuntimeError → String
  | .undefinedVariable name _ => "Variable '" ++ name ++ "' not defined."
  | .notCallable found _ => "Can only call functions, found " ++ found ++ "."
  | .unsupportedMember _ => "Only arrays and their methods are supported."
  | .outputLimit limit _ => "Output limit of " ++ toString limit ++ " lines exceeded."
  | .timeLimit millis _ => "Time limit of " ++ toString millis ++ " ms exceeded."
  | .callDepth limit _ => "Maximum call depth of " ++ toString limit ++ " exceeded."

def message (e : RuntimeError) : String :=
  "Error on line " ++ toString e.line ++ ": " ++ e.explanation

end RuntimeError

structure Machine where
  env : Environment := .initial
  heap : Heap := .empty
  console : Console := {}
  /-- How many lines have been printed. -/
  printed : Nat := 0
  callDepth : Nat := 0
  /-- How often the clock has been looked at since the start. -/
  looks : Nat := 0
  /-- The next site of a function declaration. -/
  nextSite : Nat := 0
  journal : Array Record := #[]

/-- Why an action has no result. -/
inductive Halt where
  | fault (e : RuntimeError)
  /-- The steps were used up, a walk along the parents has no end, or an open console has no answer
  yet. -/
  | cut
deriving DecidableEq, Repr

abbrev Action := EStateM Halt Machine

namespace Machine

def note (m : Machine) (r : Record) : Machine := { m with journal := m.journal.push r }

/-- Opens a scope, whose number is the size of the environment before. -/
def pushScope (m : Machine) (parent : ScopeId) : Machine :=
  let (scope, env) := m.env.push parent
  { m with env := env }.note (.pushed scope parent)

def popScope (m : Machine) (scope : ScopeId) : Machine :=
  if scope = globalScope then m else { m with env := m.env.pop scope }.note (.popped scope)

end Machine

namespace Action

def fault (e : RuntimeError) : Action α := throw (.fault e)

def cut : Action α := throw .cut

def note (r : Record) : Action Unit := modify (·.note r)

/-- Runs a body and changes the state it ends in, whether it ends with a result or not. -/
def ensuring (body : Action α) (last : Machine → Machine) : Action α := fun m =>
  match body m with
  | .ok a m => .ok a (last m)
  | .error e m => .error e (last m)

/-- Runs a body in a new scope, which is dropped afterwards however the body ends. -/
def inScope (parent : ScopeId) (body : ScopeId → Action α) : Action α := fun m =>
  let scope := m.env.size
  ensuring (body scope) (·.popScope scope) (m.pushScope parent)

/-- Runs a body one call deeper. -/
def deeper (body : Action α) : Action α := fun m =>
  ensuring body (fun m => { m with callDepth := m.callDepth - 1 })
    { m with callDepth := m.callDepth + 1 }

def define (scope : ScopeId) (name : String) (value : Value) : Action Unit :=
  modify fun m => { m with env := m.env.define scope name value }

def alloc (elements : Array Value) : Action ArrayId :=
  modifyGet fun m =>
    let (id, heap) := m.heap.alloc elements
    (id, { m with heap := heap })

/-- Looks at the clock and faults once more time has passed than is allowed. -/
def checkTime (settings : Settings) (line : Nat) : Action Unit := do
  let looks := (← get).looks
  modify fun m => { m with looks := looks + 1 }
  match settings.limits.time with
  | none => return
  | some millis =>
    if 1000 * millis < settings.clock looks then fault (.timeLimit millis line)

/-- Prints a line unless the limit is reached. -/
def print (settings : Settings) (text : String) (line : Nat) : Action Unit := do
  match settings.limits.outputLines.filter (· ≤ (← get).printed) with
  | some limit => fault (.outputLimit limit line)
  | none =>
    modify fun m =>
      { m with console := m.console.put (.line text), printed := m.printed + 1 }

/-- Asks for a line of input. -/
def ask (prompt : String) : Action (Option String) := do
  modify fun m => { m with console := m.console.put (.prompt prompt) }
  let console := (← get).console
  match console.answers with
  | answer :: rest =>
    modify fun m => { m with console := { m.console with answers := rest } }
    return answer
  | [] => if console.closed then return none else cut

end Action

end KakaLang
