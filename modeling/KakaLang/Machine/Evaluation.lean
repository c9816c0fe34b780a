import KakaLang.Machine.Basic
import KakaLang.Syntax.Site
import KakaLang.Text.Blank
import KakaLang.Value.Operation

/-!
Running programs. Expressions give values and statements say how control goes on. A run need not
end, so it is given a number of steps, which every call of one rule from another counts down; a run
that ends does so with the same result for every larger number.
-/

namespace KakaLang

/-- How control leaves a statement. -/
inductive Flow where
  | normal
  | leave
  | next
  | give (value : Value)

namespace Evaluation

def inputPrompt : String := "কাকা কিছু বলো (Input): "

/-- A line that is not blank and reads as a number is that number, any other is text. -/
def answerValue (answer : String) : Value :=
  if answer.toList.all Text.isBlank then .string answer
  else
    match Number.read? answer with
    | some x => .number x
    | none => .string answer

def input (line : Nat) : Action Value := do
  match ← Action.ask inputPrompt with
  | some answer => return answerValue answer
  | none =>
    Action.note (.noInput line)
    return .null

def lookup (scope : ScopeId) (name : String) (line : Nat) : Action Value := do
  match (← get).env.get scope name with
  | some (some value) => return value
  | some none => Action.fault (.undefinedVariable name line)
  | none => Action.cut

def assign (scope : ScopeId) (name : String) (value : Value) (line : Nat) : Action Value := do
  match (← get).env.assign scope name value with
  | some (assigned, env) =>
    modify fun m => { m with env := env }
    if assigned then return value else Action.fault (.undefinedVariable name line)
  | none => Action.cut

/-- An element by number, or the length or a method of an array by name. -/
def member (object property : Value) (line : Nat) : Action Value := do
  match object, property with
  | .array id, .number x =>
    let elements := (← get).heap.elements id
    return ((Number.toNat? x).bind (elements[·]?)).getD .undefined
  | .array id, .string name =>
    if name = "length" then
      return .number (Float.ofNat ((← get).heap.elements id).size)
    else
      match ArrayMethod.ofName? name with
      | some m => return .method m id
      | none => Action.fault (.unsupportedMember line)
  | _, _ => Action.fault (.unsupportedMember line)

/-- Does the left operand decide a logical expression? -/
def decides (op : LogicalOp) (left : Value) : Bool :=
  match op with
  | .and => !left.isTruthy
  | .or => left.isTruthy

def callMethod (m : ArrayMethod) (receiver : ArrayId) (arguments : Array Value) : Action Value :=
  modifyGet fun machine =>
    let (result, heap) := m.call receiver arguments machine.heap
    (result, { machine with heap := heap })

variable (settings : Settings)

/-- What comes before the body of a call: the limits, then a record. -/
def enterCall (f : Function) (arguments : Array Value) (line : Nat) : Action Unit := do
  let depth := (← get).callDepth
  if settings.limits.callDepth ≤ depth then
    Action.fault (.callDepth settings.limits.callDepth line)
  Action.checkTime settings line
  Action.note (.calling f.name (depth + 1) arguments.size)

mutual

def eval : Nat → Expr → ScopeId → Action Value
  | 0, _, _ => Action.cut
  | steps + 1, e, scope =>
    match e with
    | .literal value _ => return .ofLiteral value
    | .ident name line => lookup scope name line
    | .binary op left right _ => do
      let left ← eval steps left scope
      let right ← eval steps right scope
      return op.apply (← get).heap left right
    | .logical op left right _ => do
      let left ← eval steps left scope
      if decides op left then return left else eval steps right scope
    | .assign name value line => do
      let value ← eval steps value scope
      assign scope name value line
    | .input line => input line
    | .call callee arguments line => do
      let callee ← eval steps callee scope
      let arguments ← evalAll steps #[] arguments scope
      match callee with
      | .method m receiver => callMethod m receiver arguments
      | .function f => call steps f arguments line
      | other => Action.fault (.notCallable other.typeName line)
    | .array elements _ => do
      let elements ← evalAll steps #[] elements scope
      return .array (← Action.alloc elements)
    | .member object property line => do
      let object ← eval steps object scope
      let property ← eval steps property scope
      member object property line

/-- The values of expressions, after those already found. -/
def evalAll : Nat → Array Value → List Expr → ScopeId → Action (Array Value)
  | 0, _, _, _ => Action.cut
  | _ + 1, found, [], _ => return found
  | steps + 1, found, e :: rest, scope => do
    let value ← eval steps e scope
    evalAll steps (found.push value) rest scope

/-- Runs a function in a scope under the global one. -/
def call : Nat → Function → Array Value → Nat → Action Value
  | 0, _, _, _ => Action.cut
  | steps + 1, f, arguments, line => do
    enterCall settings f arguments line
    let flow ← Action.inScope globalScope fun frame => do
      modify fun m => { m with env := m.env.defineAll frame f.params arguments.toList }
      Action.deeper (execAll steps f.body frame)
    match flow with
    | .give value => return value
    | _ => return .null

def exec : Nat → Statement → ScopeId → Action Flow
  | 0, _, _ => Action.cut
  | steps + 1, s, scope =>
    match s with
    | .declare name value _ => do
      let value ← eval steps value scope
      Action.define scope name value
      return .normal
    | .print value line => do
      let value ← eval steps value scope
      Action.checkTime settings line
      Action.print settings (value.text (← get).heap) line
      return .normal
    | .branch condition yes no _ => do
      if (← eval steps condition scope).isTruthy then execBlock steps yes scope
      else
        match no with
        | some no => execBlock steps no scope
        | none => return .normal
    | .loop condition body line => execLoop steps condition body line scope
    | .block body => execBlock steps body scope
    | .expression value _ => do
      let _ ← eval steps value scope
      return .normal
    | .leave _ => return .leave
    | .next _ => return .next
    | .function site name params body _ => do
      Action.note (.declaring name params.length)
      Action.define globalScope name (.function ⟨site, name, params, body.statements⟩)
      return .normal
    | .give none _ => return .give .null
    | .give (some value) _ => return .give (← eval steps value scope)

/-- Runs a block in a scope of its own. -/
def execBlock : Nat → Block → ScopeId → Action Flow
  | 0, _, _ => Action.cut
  | steps + 1, block, scope =>
    Action.inScope scope fun inner => execAll steps block.statements inner

/-- Runs statements in order until one does not end normally. -/
def execAll : Nat → List Statement → ScopeId → Action Flow
  | 0, _, _ => Action.cut
  | _ + 1, [], _ => return .normal
  | steps + 1, s :: rest, scope => do
    match ← exec steps s scope with
    | .normal => execAll steps rest scope
    | flow => return flow

def execLoop : Nat → Expr → Block → Nat → ScopeId → Action Flow
  | 0, _, _, _, _ => Action.cut
  | steps + 1, condition, body, line, scope => do
    if (← eval steps condition scope).isTruthy then
      Action.checkTime settings line
      match ← execBlock steps body scope with
      | .leave => return .normal
      | .give value => return .give value
      | .normal | .next => execLoop steps condition body line scope
    else return .normal

end

/-- Gives a site to every function declaration in a list of statements. -/
def load (statements : List Statement) : Action (List Statement) :=
  modifyGet fun m =>
    let (statements, next) := Site.statements statements m.nextSite
    (statements, { m with nextSite := next })

/-- Runs top-level statements; one that does not end normally stops the program. -/
def topLevel (steps : Nat) : List Statement → Action Unit
  | [] => return
  | s :: rest => do
    match ← exec settings steps s globalScope with
    | .normal => topLevel steps rest
    | _ => Action.note (.stopped s.kindName s.line)

/-- Runs a program. Time counts from here. -/
def interpret (steps : Nat) (program : Program) : Action Unit := do
  modify fun m => { m with looks := 0 }
  Action.note (.interpreting program.length)
  topLevel settings steps (← load program)

end Evaluation

end KakaLang
