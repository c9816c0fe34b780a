import KakaLang.Machine.Evaluation
import KakaLang.Syntax.Parser
import KakaLang.Token.Scan

/-!
Source text handed to a machine. A session step scans, parses and runs, and fails with the first
error of any of the three. The machine goes on living after a failure, with its globals and its
console as the failed step left them.
-/

namespace KakaLang

inductive Failure where
  | unknown (e : UnknownCharacter)
  | malformed (e : SyntaxError)
  | runtime (e : RuntimeError)
  | cut
deriving DecidableEq, Repr

namespace Failure

def message : Failure → String
  | .unknown e => e.message
  | .malformed e => e.message
  | .runtime e => e.message
  | .cut => "The run was cut off."

def ofHalt : Halt → Failure
  | .fault e => .runtime e
  | .cut => .cut

end Failure

abbrev Session := EStateM Failure Machine

namespace Session

def lift (a : Action α) : Session α := fun m =>
  match a m with
  | .ok result m => .ok result m
  | .error halt m => .error (.ofHalt halt) m

def scan (source : String) : Session (List Token) := do
  match Token.scan source with
  | .error e => throw (.unknown e)
  | .ok tokens =>
    let lines := (tokens.getLast?.map (·.line)).getD 0
    lift (Action.note (.scanned tokens.length lines))
    return tokens

/-- Parses a beginning of the tokens; what follows it is not looked at. -/
def parse (p : Parser α) (tokens : List Token) : Session α := do
  match p tokens with
  | .error e _ => throw (.malformed e)
  | .ok a _ => return a

def program (source : String) : Session Program := do
  let p ← parse Parser.program (← scan source)
  lift (Action.note (.parsedTopLevel p.length))
  return p

def interpret (settings : Settings) (steps : Nat) (p : Program) : Session Unit :=
  lift (Evaluation.interpret settings steps p)

/-- Runs a whole program. -/
def run (settings : Settings) (steps : Nat) (source : String) : Session Unit := do
  let p ← program source
  lift (Action.note (.parsed p.length))
  interpret settings steps p

/-- Runs statements without program markers directly in a scope. -/
def execute (settings : Settings) (steps : Nat) (source : String) (scope : ScopeId) :
    Session Flow := do
  let statements ← parse (Parser.statementsUntil .endOfInput) (← scan source)
  lift do Evaluation.execAll settings steps (← Evaluation.load statements) scope

/-- Runs a block in a new scope under the given one. -/
def executeBlock (settings : Settings) (steps : Nat) (source : String) (scope : ScopeId) :
    Session Flow := do
  let block ← parse Parser.block (← scan source)
  lift do
    let statements ← Evaluation.load block.statements
    Evaluation.execBlock settings steps (.mk statements block.line) scope

def evaluate (settings : Settings) (steps : Nat) (source : String) (scope : ScopeId) :
    Session Value := do
  let e ← parse Parser.expression (← scan source)
  lift (Evaluation.eval settings steps e scope)

def call (settings : Settings) (steps : Nat) (f : Function) (arguments : Array Value)
    (line : Nat) : Session Value :=
  lift (Evaluation.call settings steps f arguments line)

end Session

def Machine.global (m : Machine) (name : String) : Environment.Walk (Option Value) :=
  m.env.get globalScope name

end KakaLang
