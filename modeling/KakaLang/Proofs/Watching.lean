import KakaLang.Proofs.Frames

/-!
Runs that are watched. A watched action ends as the plain one does and also lists the uses of rules
that were made on the way, each with the machine it started from. The watched rules below follow
those of evaluation word for word, and forgetting the list gives evaluation back.
-/

namespace KakaLang

/-- A rule of evaluation and what it is used on. -/
inductive Rule where
  | eval (e : Expr)
  | call (f : Function) (arguments : Array Value) (line : Nat)
  | exec (s : Statement)
  | execBlock (block : Block)
  | execAll (ss : List Statement)

/-- One use of a rule, with the steps left to it and the scope it is used in. The scope of a call is
the one it is made from. -/
structure Visit where
  rule : Rule
  steps : Nat
  scope : ScopeId
  before : Machine

/-- The machine in which the use of a rule ends, with a result or without. -/
def Visit.after (settings : Settings) (v : Visit) : Machine :=
  match v.rule with
  | .eval e => Action.final (Evaluation.eval settings v.steps e v.scope v.before)
  | .call f arguments line =>
    Action.final (Evaluation.call settings v.steps f arguments line v.before)
  | .exec s => Action.final (Evaluation.exec settings v.steps s v.scope v.before)
  | .execBlock block => Action.final (Evaluation.execBlock settings v.steps block v.scope v.before)
  | .execAll ss => Action.final (Evaluation.execAll settings v.steps ss v.scope v.before)

def Watched (α : Type) := Machine → EStateM.Result Halt Machine α × List Visit

namespace Watched

instance : Monad Watched where
  pure a := fun m => (.ok a m, [])
  bind x f := fun m =>
    match x m with
    | (.ok a m, visits) => ((f a m).1, visits ++ (f a m).2)
    | (.error e m, visits) => (.error e m, visits)

/-- An action that uses none of the rules. -/
instance : MonadLift Action Watched where
  monadLift a := fun m => (a m, [])

/-- Puts a use of a rule before those made inside it. -/
def visit (rule : Rule) (steps : Nat) (scope : ScopeId) (body : Watched α) : Watched α := fun m =>
  ((body m).1, ⟨rule, steps, scope, m⟩ :: (body m).2)

def ensuring (body : Watched α) (last : Machine → Machine) : Watched α := fun m =>
  (Action.ensuring (fun _ => (body m).1) last m, (body m).2)

def inScope (parent : ScopeId) (body : ScopeId → Watched α) : Watched α := fun m =>
  let scope := m.env.size
  ensuring (body scope) (·.popScope scope) (m.pushScope parent)

def deeper (body : Watched α) : Watched α := fun m =>
  ensuring body (fun m => { m with callDepth := m.callDepth - 1 })
    { m with callDepth := m.callDepth + 1 }

open Evaluation (lookup assign input member decides callMethod enterCall load)

variable (settings : Settings)

mutual

def eval : Nat → Expr → ScopeId → Watched Value
  | 0, e, scope => visit (.eval e) 0 scope (Action.cut (α := Value))
  | steps + 1, e, scope => visit (.eval e) (steps + 1) scope <|
    match e with
    | .literal value _ => return .ofLiteral value
    | .ident name line => lookup scope name line
    | .binary op left right _ => do
      let left ← eval steps left scope
      let right ← eval steps right scope
      return op.apply (← get).heap left right
    | .logical op left right _ => do
      let left ← eval steps left scope
      if decides op left then return left else eval steps right scope
    | .assign name value line => do
      let value ← eval steps value scope
      assign scope name value line
    | .input line => input line
    | .call callee arguments line => do
      let callee ← eval steps callee scope
      let arguments ← evalAll steps #[] arguments scope
      match callee with
      | .method m receiver => callMethod m receiver arguments
      | .function f => call steps f arguments line scope
      | other => Action.fault (.notCallable other.typeName line) (α := Value)
    | .array elements _ => do
      let elements ← evalAll steps #[] elements scope
      return .array (← Action.alloc elements)
    | .member object property line => do
      let object ← eval steps object scope
      let property ← eval steps property scope
      member object property line

def evalAll : Nat → Array Value → List Expr → ScopeId → Watched (Array Value)
  | 0, _, _, _ => Action.cut (α := Array Value)
  | _ + 1, found, [], _ => return found
  | steps + 1, found, e :: rest, scope => do
    let value ← eval steps e scope
    evalAll steps (found.push value) rest scope

def call : Nat → Function → Array Value → Nat → ScopeId → Watched Value
  | 0, f, arguments, line, scope =>
    visit (.call f arguments line) 0 scope (Action.cut (α := Value))
  | steps + 1, f, arguments, line, scope => visit (.call f arguments line) (steps + 1) scope do
    enterCall settings f arguments line
    let flow ← inScope globalScope fun frame => do
      modify fun m => { m with env := m.env.defineAll frame f.params arguments.toList }
      deeper (execAll steps f.body frame)
    match flow with
    | .give value => return value
    | _ => return .null

def exec : Nat → Statement → ScopeId → Watched Flow
  | 0, s, scope => visit (.exec s) 0 scope (Action.cut (α := Flow))
  | steps + 1, s, scope => visit (.exec s) (steps + 1) scope <|
    match s with
    | .declare name value _ => do
      let value ← eval steps value scope
      Action.define scope name value
      return .normal
    | .print value line => do
      let value ← eval steps value scope
      Action.checkTime settings line
      Action.print settings (value.text (← get).heap) line
      return .normal
    | .branch condition yes no _ => do
      if (← eval steps condition scope).isTruthy then execBlock steps yes scope
      else
        match no with
        | some no => execBlock steps no scope
        | none => return .normal
    | .loop condition body line => execLoop steps condition body line scope
    | .block body => execBlock steps body scope
    | .expression value _ => do
      let _ ← eval steps value scope
      return .normal
    | .leave _ => return .leave
    | .next _ => return .next
    | .function site name params body _ => do
      Action.note (.declaring name params.length)
      Action.define globalScope name (.function ⟨site, name, params, body.statements⟩)
      return .normal
    | .give none _ => return .give .null
    | .give (some value) _ => return .give (← eval steps value scope)

def execBlock : Nat → Block → ScopeId → Watched Flow
  | 0, block, scope => visit (.execBlock block) 0 scope (Action.cut (α := Flow))
  | steps + 1, block, scope => visit (.execBlock block) (steps + 1) scope <|
    inScope scope fun inner => execAll steps block.statements inner

def execAll : Nat → List Statement → ScopeId → Watched Flow
  | 0, ss, scope => visit (.execAll ss) 0 scope (Action.cut (α := Flow))
  | steps + 1, [], scope => visit (.execAll []) (steps + 1) scope (return .normal)
  | steps + 1, s :: rest, scope => visit (.execAll (s :: rest)) (steps + 1) scope do
    match ← exec steps s scope with
    | .normal => execAll steps rest scope
    | flow => return flow

def execLoop : Nat → Expr → Block → Nat → ScopeId → Watched Flow
  | 0, _, _, _, _ => Action.cut (α := Flow)
  | steps + 1, condition, body, line, scope => do
    if (← eval steps condition scope).isTruthy then
      Action.checkTime settings line
      match ← execBlock steps body scope with
      | .leave => return .normal
      | .give value => return .give value
      | .normal | .next => execLoop steps condition body line scope
    else return .normal

end

def topLevel (steps : Nat) : List Statement → Watched Unit
  | [] => return
  | s :: rest => do
    match ← exec settings steps s globalScope with
    | .normal => topLevel steps rest
    | _ => Action.note (.stopped s.kindName s.line)

def interpret (steps : Nat) (program : Program) : Watched Unit := do
  modify fun m => { m with looks := 0 }
  Action.note (.interpreting program.length)
  topLevel settings steps (← load program)

/-- Forgetting the visits gives a plain action. -/
def Erases (x : Watched α) (a : Action α) : Prop := ∀ m, (x m).1 = a m

namespace Erases

theorem pure (a : α) : Erases (Pure.pure a) (Pure.pure a) := fun _ => rfl

theorem lift (a : Action α) : Erases (liftM a) a := fun _ => rfl

theorem bind {x : Watched α} {a : Action α} {f : α → Watched β} {g : α → Action β}
    (hx : Erases x a) (hf : ∀ v, Erases (f v) (g v)) : Erases (x >>= f) (a >>= g) := by
  intro m
  have hm := hx m
  simp only [Bind.bind, EStateM.bind]
  rcases hresult : x m with ⟨result, visits⟩
  rw [hresult] at hm
  cases result with
  | ok v m' => simp only [← hm, hf v m']
  | error e m' => simp only [← hm]

theorem visit {rule : Rule} {steps : Nat} {scope : ScopeId} {x : Watched α} {a : Action α}
    (h : Erases x a) : Erases (Watched.visit rule steps scope x) a := h

theorem ensuring {x : Watched α} {a : Action α} (h : Erases x a) (last : Machine → Machine) :
    Erases (Watched.ensuring x last) (Action.ensuring a last) := by
  intro m
  unfold Watched.ensuring Action.ensuring
  dsimp only
  rw [h m]

theorem inScope {parent : ScopeId} {x : ScopeId → Watched α} {a : ScopeId → Action α}
    (h : ∀ scope, Erases (x scope) (a scope)) :
    Erases (Watched.inScope parent x) (Action.inScope parent a) :=
  fun m => (h m.env.size).ensuring _ (m.pushScope parent)

theorem deeper {x : Watched α} {a : Action α} (h : Erases x a) :
    Erases (Watched.deeper x) (Action.deeper a) :=
  fun m => h.ensuring _ { m with callDepth := m.callDepth + 1 }

end Erases

/-- The rules give evaluation back for some number of steps. -/
structure ErasesAt (steps : Nat) : Prop where
  eval : ∀ e scope, Erases (eval settings steps e scope) (Evaluation.eval settings steps e scope)
  evalAll : ∀ found es scope, Erases (evalAll settings steps found es scope)
    (Evaluation.evalAll settings steps found es scope)
  call : ∀ f arguments line scope, Erases (call settings steps f arguments line scope)
    (Evaluation.call settings steps f arguments line)
  exec : ∀ s scope, Erases (exec settings steps s scope) (Evaluation.exec settings steps s scope)
  execBlock : ∀ block scope, Erases (execBlock settings steps block scope)
    (Evaluation.execBlock settings steps block scope)
  execAll : ∀ ss scope, Erases (execAll settings steps ss scope)
    (Evaluation.execAll settings steps ss scope)
  execLoop : ∀ condition body line scope,
    Erases (execLoop settings steps condition body line scope)
      (Evaluation.execLoop settings steps condition body line scope)

namespace ErasesAt

variable {settings : Settings} {steps : Nat}

theorem eval_succ (h : ErasesAt settings steps) (e : Expr) (scope : ScopeId) :
    Erases (Watched.eval settings (steps + 1) e scope)
      (Evaluation.eval settings (steps + 1) e scope) := by
  unfold Watched.eval Evaluation.eval
  apply Erases.visit
  cases e with
  | literal value line => exact .pure _
  | ident name line => exact .lift _
  | binary op left right line =>
    apply (h.eval left scope).bind
    intro leftValue
    apply (h.eval right scope).bind
    intro rightValue
    exact .lift _
  | logical op left right line =>
    apply (h.eval left scope).bind
    intro leftValue
    split
    · exact .pure _
    · exact h.eval right scope
  | assign name value line =>
    apply (h.eval value scope).bind
    intro v
    exact .lift _
  | input line => exact .lift _
  | call callee arguments line =>
    apply (h.eval callee scope).bind
    intro f
    apply (h.evalAll #[] arguments scope).bind
    intro values
    cases f with
    | function f => exact h.call f values line scope
    | _ => exact .lift _
  | array elements line =>
    apply (h.evalAll #[] elements scope).bind
    intro values
    exact .lift _
  | member object property line =>
    apply (h.eval object scope).bind
    intro o
    apply (h.eval property scope).bind
    intro p
    exact .lift _

theorem evalAll_succ (h : ErasesAt settings steps) (found : Array Value) (es : List Expr)
    (scope : ScopeId) :
    Erases (Watched.evalAll settings (steps + 1) found es scope)
      (Evaluation.evalAll settings (steps + 1) found es scope) := by
  cases es with
  | nil =>
    rw [Watched.evalAll, Evaluation.evalAll]
    exact .pure _
  | cons e es =>
    rw [Watched.evalAll, Evaluation.evalAll]
    exact (h.eval e scope).bind fun v => h.evalAll (found.push v) es scope

theorem call_succ (h : ErasesAt settings steps) (f : Function) (arguments : Array Value)
    (line : Nat) (scope : ScopeId) :
    Erases (Watched.call settings (steps + 1) f arguments line scope)
      (Evaluation.call settings (steps + 1) f arguments line) := by
  rw [Watched.call, Evaluation.call]
  apply Erases.visit
  apply (Erases.lift _).bind
  intro _
  apply Erases.bind
  · apply Erases.inScope
    intro frame
    apply (Erases.lift _).bind
    intro _
    exact (h.execAll f.body frame).deeper
  · intro flow
    cases flow <;> exact .pure _

theorem exec_succ (h : ErasesAt settings steps) (s : Statement) (scope : ScopeId) :
    Erases (Watched.exec settings (steps + 1) s scope)
      (Evaluation.exec settings (steps + 1) s scope) := by
  unfold Watched.exec Evaluation.exec
  apply Erases.visit
  cases s with
  | declare name value line =>
    apply (h.eval value scope).bind
    intro v
    exact .lift _
  | print value line =>
    apply (h.eval value scope).bind
    intro v
    apply (Erases.lift _).bind
    intro _
    apply (Erases.lift _).bind
    intro m
    exact (Erases.lift _).bind fun _ => .pure _
  | branch condition yes no line =>
    apply (h.eval condition scope).bind
    intro v
    split
    · exact h.execBlock yes scope
    · cases no with
      | none => exact .pure _
      | some no => exact h.execBlock no scope
  | loop condition body line => exact h.execLoop condition body line scope
  | block body => exact h.execBlock body scope
  | expression value line => exact (h.eval value scope).bind fun _ => .pure _
  | leave line => exact .pure _
  | next line => exact .pure _
  | function site name params body line => exact .lift _
  | give value line =>
    cases value with
    | none => exact .pure _
    | some value => exact (h.eval value scope).bind fun _ => .pure _

theorem execBlock_succ (h : ErasesAt settings steps) (block : Block) (scope : ScopeId) :
    Erases (Watched.execBlock settings (steps + 1) block scope)
      (Evaluation.execBlock settings (steps + 1) block scope) := by
  rw [Watched.execBlock, Evaluation.execBlock]
  exact (Erases.inScope fun inner => h.execAll block.statements inner).visit

theorem execAll_succ (h : ErasesAt settings steps) (ss : List Statement) (scope : ScopeId) :
    Erases (Watched.execAll settings (steps + 1) ss scope)
      (Evaluation.execAll settings (steps + 1) ss scope) := by
  cases ss with
  | nil =>
    rw [Watched.execAll, Evaluation.execAll]
    exact (Erases.pure _).visit
  | cons s ss =>
    rw [Watched.execAll, Evaluation.execAll]
    apply Erases.visit
    apply (h.exec s scope).bind
    intro flow
    cases flow with
    | normal => exact h.execAll ss scope
    | _ => exact .pure _

theorem execLoop_succ (h : ErasesAt settings steps) (condition : Expr) (body : Block)
    (line : Nat) (scope : ScopeId) :
    Erases (Watched.execLoop settings (steps + 1) condition body line scope)
      (Evaluation.execLoop settings (steps + 1) condition body line scope) := by
  rw [Watched.execLoop, Evaluation.execLoop]
  apply (h.eval condition scope).bind
  intro v
  split
  · apply (Erases.lift _).bind
    intro _
    apply (h.execBlock body scope).bind
    intro flow
    cases flow with
    | normal => exact h.execLoop condition body line scope
    | leave => exact .pure _
    | next => exact h.execLoop condition body line scope
    | give value => exact .pure _
  · exact .pure _

end ErasesAt

theorem erasesAt (steps : Nat) : ErasesAt settings steps := by
  induction steps with
  | zero =>
    constructor
    · intro e scope
      rw [eval, Evaluation.eval]
      exact (Erases.lift _).visit
    · intro found es scope
      rw [evalAll, Evaluation.evalAll]
      exact .lift _
    · intro f arguments line scope
      rw [call, Evaluation.call]
      exact (Erases.lift _).visit
    · intro s scope
      rw [exec, Evaluation.exec]
      exact (Erases.lift _).visit
    · intro block scope
      rw [execBlock, Evaluation.execBlock]
      exact (Erases.lift _).visit
    · intro ss scope
      rw [execAll, Evaluation.execAll]
      exact (Erases.lift _).visit
    · intro condition body line scope
      rw [execLoop, Evaluation.execLoop]
      exact .lift _
  | succ steps h =>
    exact ⟨h.eval_succ, h.evalAll_succ, h.call_succ, h.exec_succ, h.execBlock_succ,
      h.execAll_succ, h.execLoop_succ⟩

theorem erases_topLevel (steps : Nat) (ss : List Statement) :
    Erases (topLevel settings steps ss) (Evaluation.topLevel settings steps ss) := by
  induction ss with
  | nil => exact .pure _
  | cons s ss ih =>
    rw [topLevel, Evaluation.topLevel]
    apply ((erasesAt settings steps).exec s globalScope).bind
    intro flow
    cases flow with
    | normal => exact ih
    | _ => exact .lift _

/-- A watched run ends as the run does. -/
theorem erases_interpret (steps : Nat) (p : Program) :
    Erases (interpret settings steps p) (Evaluation.interpret settings steps p) := by
  rw [interpret, Evaluation.interpret]
  apply (Erases.lift _).bind
  intro _
  apply (Erases.lift _).bind
  intro _
  apply (Erases.lift _).bind
  intro loaded
  exact erases_topLevel settings steps loaded

end Watched

end KakaLang
