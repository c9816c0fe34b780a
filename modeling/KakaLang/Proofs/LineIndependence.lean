import KakaLang.Proofs.Ending
import KakaLang.Proofs.Lineless
import KakaLang.Proofs.StackDiscipline
import KakaLang.Session

/-!
Lines make no difference to a run. Running the program without lines on the machine without lines
gives, step for step, what running the program gives, with the lines erased in it. This is shown for
each action and for each rule of evaluation, and then for whole programs. Two programs that are the
same apart from their lines are compared through the one program without lines.
-/

namespace KakaLang

def Flow.lineless : Flow → Flow
  | .give value => .give value.lineless
  | flow => flow

def Halt.lineless : Halt → Halt
  | .fault e => .fault e.lineless
  | .cut => .cut

theorem Machine.global_lineless (m : Machine) (name : String) :
    m.lineless.global name = (m.global name).map (·.map Value.lineless) :=
  m.env.get_lineless globalScope name

theorem Evaluation.lineless_answerValue (answer : String) :
    (answerValue answer).lineless = answerValue answer := by
  unfold answerValue
  split
  · rfl
  · split <;> rfl

namespace Action

/-- The end of an action without its lines, where the result loses them by the given function. -/
def erased (g : α → β) : EStateM.Result Halt Machine α → EStateM.Result Halt Machine β
  | .ok a m => .ok (g a) m.lineless
  | .error halt m => .error halt.lineless m.lineless

/-- The second action does to a machine without lines what the first does to the machine, up to
lines. -/
def Blind (g : α → β) (x : Action α) (y : Action β) : Prop := ∀ m, y m.lineless = erased g (x m)

namespace Blind

variable {g : α → β}

theorem pure {a : α} {b : β} (h : b = g a) : Blind g (Pure.pure a) (Pure.pure b) := by
  subst h
  exact fun _ => rfl

theorem fault (e : RuntimeError) : Blind g (Action.fault e) (Action.fault e.lineless) :=
  fun _ => rfl

theorem cut : Blind g Action.cut Action.cut := fun _ => rfl

theorem get : Blind Machine.lineless MonadState.get MonadState.get := fun _ => rfl

theorem modifyGet {f : Machine → α × Machine} {k : Machine → β × Machine}
    (h : ∀ m, k m.lineless = (g (f m).1, (f m).2.lineless)) :
    Blind g (MonadState.modifyGet f) (MonadState.modifyGet k) := by
  intro m
  change (match k m.lineless with | (b, m') => EStateM.Result.ok b m') = _
  rw [h m]
  rfl

/-- A change that takes no notice of lines. -/
theorem unaffected {f : Machine → Machine} (h : ∀ m, f m.lineless = (f m).lineless) :
    Blind id (modify f) (modify f) :=
  modifyGet fun m => congrArg (Prod.mk ()) (h m)

theorem bind {h : γ → δ} {x : Action α} {y : Action β} {f : α → Action γ} {k : β → Action δ}
    (hx : Blind g x y) (hf : ∀ a, Blind h (f a) (k (g a))) : Blind h (x >>= f) (y >>= k) := by
  intro m
  have hm := hx m
  cases hresult : x m with
  | ok a m' =>
    rw [hresult] at hm
    rw [bind_ok hresult, bind_ok hm]
    exact hf a m'
  | error halt m' =>
    rw [hresult] at hm
    rw [bind_error hresult, bind_error hm]
    rfl

theorem ensuring {x : Action α} {y : Action β} {last : Machine → Machine} (h : Blind g x y)
    (hlast : ∀ m, last m.lineless = (last m).lineless) :
    Blind g (Action.ensuring x last) (Action.ensuring y last) := by
  intro m
  unfold Action.ensuring
  rw [h m]
  cases x m with
  | ok a m' => exact congrArg (EStateM.Result.ok (g a)) (hlast m')
  | error halt m' => exact congrArg (EStateM.Result.error halt.lineless) (hlast m')

theorem inScope (parent : ScopeId) {x : ScopeId → Action α} {y : ScopeId → Action β}
    (h : ∀ scope, Blind g (x scope) (y scope)) :
    Blind g (Action.inScope parent x) (Action.inScope parent y) := by
  intro m
  have hsize : m.lineless.env.size = m.env.size := m.env.size_lineless
  unfold Action.inScope
  simp only [hsize, m.pushScope_lineless]
  exact ensuring (h m.env.size) (fun m' => m'.popScope_lineless m.env.size) (m.pushScope parent)

theorem deeper {x : Action α} {y : Action β} (h : Blind g x y) :
    Blind g (Action.deeper x) (Action.deeper y) := by
  intro m
  have hlast (m' : Machine) : { m'.lineless with callDepth := m'.lineless.callDepth - 1 } =
      Machine.lineless { m' with callDepth := m'.callDepth - 1 } := rfl
  exact ensuring h hlast { m with callDepth := m.callDepth + 1 }

theorem note (r : Record) : Blind id (Action.note r) (Action.note r.lineless) :=
  modifyGet fun m => congrArg (Prod.mk ()) (m.note_lineless r)

theorem define (scope : ScopeId) (name : String) (value : Value) :
    Blind id (Action.define scope name value) (Action.define scope name value.lineless) :=
  modifyGet fun m => congrArg (fun env => ((), { m.lineless with env := env }))
    (m.env.define_lineless scope name value)

theorem defineAll (scope : ScopeId) (params : List String) (arguments : Array Value) :
    Blind id
      (modify fun m => { m with env := m.env.defineAll scope params arguments.toList })
      (modify fun m => { m with
        env := m.env.defineAll scope params (arguments.map Value.lineless).toList }) := by
  rw [Array.toList_map]
  exact modifyGet fun m => congrArg (fun env => ((), { m.lineless with env := env }))
    (m.env.defineAll_lineless scope params arguments.toList)

theorem alloc (elements : Array Value) :
    Blind id (Action.alloc elements) (Action.alloc (elements.map Value.lineless)) :=
  modifyGet fun m => congrArg (fun made => (made.1, { m.lineless with heap := made.2 }))
    (m.heap.alloc_lineless elements)

theorem callMethod (method : ArrayMethod) (receiver : ArrayId) (arguments : Array Value) :
    Blind Value.lineless (Evaluation.callMethod method receiver arguments)
      (Evaluation.callMethod method receiver (arguments.map Value.lineless)) :=
  modifyGet fun m => congrArg (fun made => (made.1, { m.lineless with heap := made.2 }))
    (method.call_lineless receiver arguments m.heap)

theorem ask (prompt : String) : Blind id (Action.ask prompt) (Action.ask prompt) := by
  unfold Action.ask
  refine (unaffected fun _ => by rfl).bind fun _ => ?_
  apply get.bind
  intro m
  have hconsole : m.lineless.console = m.console := rfl
  simp only [hconsole]
  cases m.console.answers with
  | nil =>
    simp only
    split
    · exact pure rfl
    · exact cut
  | cons answer rest => exact (unaffected fun _ => by rfl).bind fun _ => pure rfl

theorem input (line : Nat) : Blind Value.lineless (Evaluation.input line) (Evaluation.input 0) := by
  unfold Evaluation.input
  apply (ask _).bind
  intro answer
  cases answer with
  | none => exact (note (.noInput line)).bind fun _ => pure rfl
  | some answer => exact pure (Evaluation.lineless_answerValue answer).symm

theorem lookup (scope : ScopeId) (name : String) (line : Nat) :
    Blind Value.lineless (Evaluation.lookup scope name line)
      (Evaluation.lookup scope name 0) := by
  unfold Evaluation.lookup
  apply get.bind
  intro m
  have hget : m.lineless.env.get scope name = (m.env.get scope name).map (·.map Value.lineless) :=
    m.env.get_lineless scope name
  rw [hget]
  cases m.env.get scope name with
  | none => exact cut
  | some found =>
    cases found with
    | none => exact fault (.undefinedVariable name line)
    | some value => exact pure rfl

theorem assign (scope : ScopeId) (name : String) (value : Value) (line : Nat) :
    Blind Value.lineless (Evaluation.assign scope name value line)
      (Evaluation.assign scope name value.lineless 0) := by
  unfold Evaluation.assign
  apply get.bind
  intro m
  have hassign : m.lineless.env.assign scope name value.lineless =
      (m.env.assign scope name value).map (·.map id Environment.lineless) :=
    m.env.assign_lineless scope name value
  rw [hassign]
  cases m.env.assign scope name value with
  | none => exact cut
  | some result =>
    obtain ⟨assigned, env⟩ := result
    have hchange : Blind id (modify fun m => { m with env := env })
        (modify fun m => { m with env := env.lineless }) := modifyGet fun _ => rfl
    apply hchange.bind
    intro _
    cases assigned with
    | true => exact pure rfl
    | false => exact fault (.undefinedVariable name line)

theorem member (object property : Value) (line : Nat) :
    Blind Value.lineless (Evaluation.member object property line)
      (Evaluation.member object.lineless property.lineless 0) := by
  cases object with
  | array id =>
    have helements (m : Machine) : m.lineless.heap.elements id =
        (m.heap.elements id).map Value.lineless := m.heap.elements_lineless id
    cases property with
    | number x =>
      apply get.bind
      intro m
      apply pure
      rw [helements]
      cases Number.toNat? x with
      | none => rfl
      | some i =>
        rw [Option.bind_some, Option.bind_some, Array.getElem?_map]
        cases (m.heap.elements id)[i]? <;> rfl
    | string name =>
      simp only [Evaluation.member, Value.lineless]
      split
      · apply get.bind
        intro m
        apply pure
        rw [helements, Array.size_map]
        rfl
      · cases ArrayMethod.ofName? name with
        | none => exact fault (.unsupportedMember line)
        | some method => exact pure rfl
    | _ => exact fault (.unsupportedMember line)
  | _ => exact fault (.unsupportedMember line)

section

variable {limits : Limits} {clock clock' : Nat → Nat}

theorem checkTime (htime : limits.time = none) (line : Nat) :
    Blind id (Action.checkTime ⟨limits, clock⟩ line) (Action.checkTime ⟨limits, clock'⟩ 0) := by
  rw [checkTime_of_none htime, checkTime_of_none htime]
  exact unaffected fun _ => rfl

theorem print (text : String) (line : Nat) :
    Blind id (Action.print ⟨limits, clock⟩ text line)
      (Action.print ⟨limits, clock'⟩ text 0) := by
  unfold Action.print
  apply get.bind
  intro m
  have hprinted : m.lineless.printed = m.printed := rfl
  rw [hprinted]
  dsimp only
  cases limits.outputLines.filter (· ≤ m.printed) with
  | none => exact unaffected fun _ => rfl
  | some limit => exact fault (.outputLimit limit line)

theorem enterCall (htime : limits.time = none) (f : Function) (arguments : Array Value)
    (line : Nat) :
    Blind id (Evaluation.enterCall ⟨limits, clock⟩ f arguments line)
      (Evaluation.enterCall ⟨limits, clock'⟩ f.lineless (arguments.map Value.lineless) 0) := by
  intro m
  have hdepth : m.lineless.callDepth = m.callDepth := rfl
  rw [Evaluation.enterCall_eq, Evaluation.enterCall_eq, hdepth, Array.size_map]
  split
  · rfl
  · have hnote := note (.calling f.name (m.callDepth + 1) arguments.size)
    exact (checkTime htime line).bind (fun _ => hnote) m

end

end Blind

end Action

open KakaLang.Action (Blind erased final)

namespace Evaluation

/-- For some number of steps, no rule takes notice of lines. The runs may have clocks of their
own. -/
structure BlindAt (limits : Limits) (clock clock' : Nat → Nat) (n : Nat) : Prop where
  eval (e : Expr) (scope : ScopeId) :
    Blind Value.lineless (eval ⟨limits, clock⟩ n e scope)
      (eval ⟨limits, clock'⟩ n (e.bare id) scope)
  evalAll (found : Array Value) (es : List Expr) (scope : ScopeId) :
    Blind (Array.map Value.lineless) (evalAll ⟨limits, clock⟩ n found es scope)
      (evalAll ⟨limits, clock'⟩ n (found.map Value.lineless) (Expr.bareAll id es) scope)
  call (f : Function) (arguments : Array Value) (line : Nat) :
    Blind Value.lineless (call ⟨limits, clock⟩ n f arguments line)
      (call ⟨limits, clock'⟩ n f.lineless (arguments.map Value.lineless) 0)
  exec (s : Statement) (scope : ScopeId) :
    Blind Flow.lineless (exec ⟨limits, clock⟩ n s scope)
      (exec ⟨limits, clock'⟩ n s.lineless scope)
  execBlock (body : Block) (scope : ScopeId) :
    Blind Flow.lineless (execBlock ⟨limits, clock⟩ n body scope)
      (execBlock ⟨limits, clock'⟩ n (Statement.linelessBlock body) scope)
  execAll (ss : List Statement) (scope : ScopeId) :
    Blind Flow.lineless (execAll ⟨limits, clock⟩ n ss scope)
      (execAll ⟨limits, clock'⟩ n (Statement.linelessAll ss) scope)
  execLoop (condition : Expr) (body : Block) (line : Nat) (scope : ScopeId) :
    Blind Flow.lineless (execLoop ⟨limits, clock⟩ n condition body line scope)
      (execLoop ⟨limits, clock'⟩ n (condition.bare id) (Statement.linelessBlock body) 0 scope)

variable {limits : Limits} {clock clock' : Nat → Nat} {n : Nat}

namespace BlindAt

theorem zero : BlindAt limits clock clock' 0 := by
  constructor
  · intro e scope
    rw [Evaluation.eval, Evaluation.eval]
    exact .cut
  · intro found es scope
    rw [Evaluation.evalAll, Evaluation.evalAll]
    exact .cut
  · intro f arguments line
    rw [Evaluation.call, Evaluation.call]
    exact .cut
  · intro s scope
    rw [Evaluation.exec, Evaluation.exec]
    exact .cut
  · intro body scope
    rw [Evaluation.execBlock, Evaluation.execBlock]
    exact .cut
  · intro ss scope
    rw [Evaluation.execAll, Evaluation.execAll]
    exact .cut
  · intro condition body line scope
    rw [Evaluation.execLoop, Evaluation.execLoop]
    exact .cut

/-- The values of all expressions, with none found before. -/
theorem values (h : BlindAt limits clock clock' n) (es : List Expr) (scope : ScopeId) :
    Blind (Array.map Value.lineless) (Evaluation.evalAll ⟨limits, clock⟩ n #[] es scope)
      (Evaluation.evalAll ⟨limits, clock'⟩ n #[] (Expr.bareAll id es) scope) := by
  have hvalues := h.evalAll #[] es scope
  rw [Array.map_empty] at hvalues
  exact hvalues

theorem eval_succ (h : BlindAt limits clock clock' n) (e : Expr) (scope : ScopeId) :
    Blind Value.lineless (Evaluation.eval ⟨limits, clock⟩ (n + 1) e scope)
      (Evaluation.eval ⟨limits, clock'⟩ (n + 1) (e.bare id) scope) := by
  unfold Evaluation.eval
  cases e with
  | literal value line => exact .pure (Value.lineless_ofLiteral value).symm
  | ident name line => exact .lookup scope name line
  | binary op left right line =>
    apply (h.eval left scope).bind
    intro l
    apply (h.eval right scope).bind
    intro r
    apply Blind.get.bind
    intro m
    exact .pure (op.apply_lineless m.heap l r)
  | logical op left right line =>
    apply (h.eval left scope).bind
    intro l
    have hdecides : decides op l.lineless = decides op l := by
      cases op <;> simp only [decides, Value.isTruthy_lineless]
    rw [hdecides]
    split
    · exact .pure rfl
    · exact h.eval right scope
  | assign name value line =>
    apply (h.eval value scope).bind
    intro v
    exact .assign scope name v line
  | input line => exact .input line
  | call callee arguments line =>
    apply (h.eval callee scope).bind
    intro f
    apply (h.values arguments scope).bind
    intro values
    cases f with
    | function f => exact h.call f values line
    | method method receiver => exact .callMethod method receiver values
    | _ => exact .fault (.notCallable _ line)
  | array elements line =>
    apply (h.values elements scope).bind
    intro values
    exact (Blind.alloc values).bind fun _ => .pure rfl
  | member object property line =>
    apply (h.eval object scope).bind
    intro o
    apply (h.eval property scope).bind
    intro p
    exact .member o p line

theorem evalAll_succ (h : BlindAt limits clock clock' n) (found : Array Value) (es : List Expr)
    (scope : ScopeId) :
    Blind (Array.map Value.lineless) (Evaluation.evalAll ⟨limits, clock⟩ (n + 1) found es scope)
      (Evaluation.evalAll ⟨limits, clock'⟩ (n + 1) (found.map Value.lineless)
        (Expr.bareAll id es) scope) := by
  cases es with
  | nil =>
    rw [Expr.bareAll, Evaluation.evalAll, Evaluation.evalAll]
    exact .pure rfl
  | cons e es =>
    rw [Expr.bareAll, Evaluation.evalAll, Evaluation.evalAll]
    apply (h.eval e scope).bind
    intro v
    rw [← Array.map_push]
    exact h.evalAll (found.push v) es scope

theorem call_succ (htime : limits.time = none) (h : BlindAt limits clock clock' n) (f : Function)
    (arguments : Array Value) (line : Nat) :
    Blind Value.lineless (Evaluation.call ⟨limits, clock⟩ (n + 1) f arguments line)
      (Evaluation.call ⟨limits, clock'⟩ (n + 1) f.lineless
        (arguments.map Value.lineless) 0) := by
  rw [Evaluation.call, Evaluation.call]
  apply (Blind.enterCall htime f arguments line).bind
  intro _
  refine .bind (g := Flow.lineless) (.inScope globalScope fun frame => ?_) fun flow => ?_
  · apply (Blind.defineAll frame f.params arguments).bind
    intro _
    exact .deeper (h.execAll f.body frame)
  · cases flow <;> exact .pure rfl

theorem exec_succ (htime : limits.time = none) (h : BlindAt limits clock clock' n)
    (s : Statement) (scope : ScopeId) :
    Blind Flow.lineless (Evaluation.exec ⟨limits, clock⟩ (n + 1) s scope)
      (Evaluation.exec ⟨limits, clock'⟩ (n + 1) s.lineless scope) := by
  unfold Evaluation.exec
  cases s with
  | declare name value line =>
    apply (h.eval value scope).bind
    intro v
    exact (Blind.define scope name v).bind fun _ => .pure rfl
  | print value line =>
    apply (h.eval value scope).bind
    intro v
    apply (Blind.checkTime htime line).bind
    intro _
    apply Blind.get.bind
    intro m
    have htext : v.lineless.text m.lineless.heap = v.text m.heap := v.text_lineless m.heap
    rw [htext]
    exact (Blind.print _ line).bind fun _ => .pure rfl
  | branch condition yes no line =>
    cases no with
    | none =>
      apply (h.eval condition scope).bind
      intro v
      rw [Value.isTruthy_lineless]
      split
      · exact h.execBlock yes scope
      · exact .pure rfl
    | some no =>
      apply (h.eval condition scope).bind
      intro v
      rw [Value.isTruthy_lineless]
      split
      · exact h.execBlock yes scope
      · exact h.execBlock no scope
  | loop condition body line => exact h.execLoop condition body line scope
  | block body => exact h.execBlock body scope
  | expression value line => exact (h.eval value scope).bind fun _ => .pure rfl
  | leave line => exact .pure rfl
  | next line => exact .pure rfl
  | function site name params body line =>
    apply (Blind.note (.declaring name params.length)).bind
    intro _
    rw [Statement.statements_linelessBlock]
    exact (Blind.define globalScope name (.function ⟨site, name, params, body.statements⟩)).bind
      fun _ => .pure rfl
  | give value line =>
    cases value with
    | none => exact .pure rfl
    | some value => exact (h.eval value scope).bind fun _ => .pure rfl

theorem execBlock_succ (h : BlindAt limits clock clock' n) (body : Block) (scope : ScopeId) :
    Blind Flow.lineless (Evaluation.execBlock ⟨limits, clock⟩ (n + 1) body scope)
      (Evaluation.execBlock ⟨limits, clock'⟩ (n + 1) (Statement.linelessBlock body) scope) := by
  rw [Evaluation.execBlock, Evaluation.execBlock, Statement.statements_linelessBlock]
  apply Blind.inScope
  intro inner
  exact h.execAll body.statements inner

theorem execAll_succ (h : BlindAt limits clock clock' n) (ss : List Statement)
    (scope : ScopeId) :
    Blind Flow.lineless (Evaluation.execAll ⟨limits, clock⟩ (n + 1) ss scope)
      (Evaluation.execAll ⟨limits, clock'⟩ (n + 1) (Statement.linelessAll ss) scope) := by
  cases ss with
  | nil =>
    rw [Statement.linelessAll, Evaluation.execAll, Evaluation.execAll]
    exact .pure rfl
  | cons s ss =>
    rw [Statement.linelessAll, Evaluation.execAll, Evaluation.execAll]
    apply (h.exec s scope).bind
    intro flow
    cases flow with
    | normal => exact h.execAll ss scope
    | _ => exact .pure rfl

theorem execLoop_succ (htime : limits.time = none) (h : BlindAt limits clock clock' n)
    (condition : Expr) (body : Block) (line : Nat) (scope : ScopeId) :
    Blind Flow.lineless (Evaluation.execLoop ⟨limits, clock⟩ (n + 1) condition body line scope)
      (Evaluation.execLoop ⟨limits, clock'⟩ (n + 1) (condition.bare id)
        (Statement.linelessBlock body) 0 scope) := by
  rw [Evaluation.execLoop, Evaluation.execLoop]
  apply (h.eval condition scope).bind
  intro v
  rw [Value.isTruthy_lineless]
  split
  · apply (Blind.checkTime htime line).bind
    intro _
    apply (h.execBlock body scope).bind
    intro flow
    cases flow with
    | leave => exact .pure rfl
    | give value => exact .pure rfl
    | normal => exact h.execLoop condition body line scope
    | next => exact h.execLoop condition body line scope
  · exact .pure rfl

end BlindAt

/-- Without a limit for time the rules take no notice of lines, however many steps there are. -/
theorem blindAt (htime : limits.time = none) (n : Nat) : BlindAt limits clock clock' n := by
  induction n with
  | zero => exact .zero
  | succ n ih =>
    exact {
      eval := ih.eval_succ
      evalAll := ih.evalAll_succ
      call := ih.call_succ htime
      exec := ih.exec_succ htime
      execBlock := ih.execBlock_succ
      execAll := ih.execAll_succ
      execLoop := ih.execLoop_succ htime }

theorem topLevel_blind (htime : limits.time = none) (n : Nat) (ss : List Statement) :
    Blind id (topLevel ⟨limits, clock⟩ n ss)
      (topLevel ⟨limits, clock'⟩ n (Statement.linelessAll ss)) := by
  induction ss with
  | nil => exact .pure rfl
  | cons s ss ih =>
    rw [Statement.linelessAll, topLevel, topLevel]
    apply ((blindAt htime n).exec s globalScope).bind
    intro flow
    rw [s.kindName_lineless, s.line_lineless]
    cases flow with
    | normal => exact ih
    | _ => exact .note (.stopped s.kindName s.line)

/-- Sites are given out in the same way with lines and without. -/
theorem load_blind (p : Program) :
    Blind Statement.linelessAll (load p) (load (p.bare id)) :=
  .modifyGet fun m => congrArg (fun made => (made.1, { m.lineless with nextSite := made.2 }))
    (Site.statements_bare p m.nextSite)

theorem interpret_blind (htime : limits.time = none) (n : Nat) (p : Program) :
    Blind id (interpret ⟨limits, clock⟩ n p) (interpret ⟨limits, clock'⟩ n (p.bare id)) := by
  unfold interpret
  rw [p.length_bare]
  refine (Blind.unaffected fun _ => by rfl).bind fun _ => ?_
  apply (Blind.note (.interpreting p.length)).bind
  intro _
  apply (load_blind p).bind
  intro loaded
  exact topLevel_blind htime n loaded

/-- What ends the same apart from lines ends at all or does not, and with the same result. -/
theorem ended_of_erased {x y : EStateM.Result Halt Machine α} {result : Except RuntimeError α}
    {m : Machine} (h : erased id x = erased id y) (hx : x = ended result m) :
    ∃ result' m', y = ended result' m' ∧
      result.mapError RuntimeError.lineless = result'.mapError RuntimeError.lineless ∧
      m.lineless = m'.lineless := by
  subst hx
  cases result with
  | ok a =>
    cases y with
    | ok b m' =>
      obtain ⟨rfl, hm⟩ : a = b ∧ m.lineless = m'.lineless := EStateM.Result.ok.inj h
      exact ⟨.ok a, m', rfl, rfl, hm⟩
    | error halt m' => cases h
  | error e =>
    cases y with
    | ok b m' => cases h
    | error halt m' =>
      obtain ⟨hhalt, hm⟩ := EStateM.Result.error.inj h
      cases halt with
      | cut => cases hhalt
      | fault e' => exact ⟨.error e', m', rfl, congrArg Except.error (Halt.fault.inj hhalt), hm⟩

/-- Where the run of a program ends, so does that of a program which is the same apart from
lines. -/
theorem interpret_ends_alike (htime : limits.time = none) {p p' : Program}
    (hp : p.bare id = p'.bare id) {m₀ m : Machine} {result : Except RuntimeError Unit}
    (hends : Ends (fun steps => interpret ⟨limits, clock⟩ steps p) m₀ result m) :
    ∃ result' m', Ends (fun steps => interpret ⟨limits, clock'⟩ steps p') m₀ result' m' ∧
      result.mapError RuntimeError.lineless = result'.mapError RuntimeError.lineless ∧
      m.lineless = m'.lineless := by
  obtain ⟨n, hrun⟩ := hends
  have hsame : erased id (interpret ⟨limits, clock⟩ n p m₀) =
      erased id (interpret ⟨limits, clock'⟩ n p' m₀) := by
    have hleft : interpret ⟨limits, clock'⟩ n (p.bare id) m₀.lineless =
        erased id (interpret ⟨limits, clock⟩ n p m₀) := interpret_blind htime n p m₀
    have hright : interpret ⟨limits, clock'⟩ n (p'.bare id) m₀.lineless =
        erased id (interpret ⟨limits, clock'⟩ n p' m₀) := interpret_blind htime n p' m₀
    rw [← hleft, ← hright, hp]
  obtain ⟨result', m', hrun', hresults, hmachines⟩ := ended_of_erased hsame hrun
  exact ⟨result', m', ⟨n, hrun'⟩, hresults, hmachines⟩

/-- The global frame never gets a parent, so a global can be read after every run. -/
theorem global_after_run {settings : Settings} {input : List String} {p : Program} {m : Machine}
    {result : Except RuntimeError Unit}
    (hends : Ends (fun steps => interpret settings steps p) (.fresh input) result m)
    (name : String) : ∃ found, m.global name = some found := by
  obtain ⟨n, hrun⟩ := hends
  change interpret settings n p (.fresh input) = ended result m at hrun
  have hstacked : Machine.Stacked settings globalScope (.fresh input) := .of_clean ⟨rfl, rfl⟩
  obtain ⟨hrestores, -⟩ := Watched.disciplined_interpret n p (.fresh input) hstacked
  rw [Watched.erases_interpret, hrun, final_ended] at hrestores
  have hroot : m.env.parent? globalScope = some none := hrestores.parents globalScope
  obtain ⟨found, hfinds⟩ := Environment.finds_of_root hroot name
  exact ⟨_, hfinds.get_eq⟩

/-- Two programs that are the same apart from lines, run from the start on the same input and under
the same limits for output and calls, both end or both do not. Then they have shown the same lines
and prompts, their results are the same up to the line of an error, and the globals and the arrays
hold the same values up to the lines of functions. -/
theorem lines_make_no_difference (input : List String) (output : Option Nat) (depth : Nat)
    (clock clock' : Nat → Nat) (p p' : Program) (hp : p.bare id = p'.bare id) :
    let limits : Limits := { outputLines := output, callDepth := depth }
    let run := fun steps => interpret ⟨limits, clock⟩ steps p
    let run' := fun steps => interpret ⟨limits, clock'⟩ steps p'
    let m₀ := Machine.fresh input
    ((∃ result m, Ends run m₀ result m) ↔ ∃ result m, Ends run' m₀ result m) ∧
    ∀ result result' m m', Ends run m₀ result m → Ends run' m₀ result' m' →
      m.console.lines = m'.console.lines ∧ m.console.prompts = m'.console.prompts ∧
      result.mapError RuntimeError.lineless = result'.mapError RuntimeError.lineless ∧
      (∀ name, ∃ found found', m.global name = some found ∧ m'.global name = some found' ∧
        found.map Value.lineless = found'.map Value.lineless) ∧
      ∀ id, (m.heap.elements id).map Value.lineless = (m'.heap.elements id).map Value.lineless := by
  intro limits run run' m₀
  refine ⟨⟨?_, ?_⟩, fun result result' m m' hends hends' => ?_⟩
  · rintro ⟨result, m, hends⟩
    obtain ⟨result', m', hends', -⟩ := interpret_ends_alike rfl hp hends
    exact ⟨result', m', hends'⟩
  · rintro ⟨result, m, hends⟩
    obtain ⟨result', m', hends', -⟩ := interpret_ends_alike rfl hp.symm hends
    exact ⟨result', m', hends'⟩
  · obtain ⟨result'', m'', halike, hresults, hmachines⟩ := interpret_ends_alike rfl hp hends
    obtain ⟨rfl, rfl⟩ := halike.unique (steady_interpret ⟨limits, clock'⟩ p') hends'
    have hconsole : m.lineless.console = m''.lineless.console := congrArg Machine.console hmachines
    change m.console = m''.console at hconsole
    refine ⟨?_, ?_, hresults, fun name => ?_, fun id => ?_⟩
    · rw [hconsole]
    · rw [hconsole]
    · obtain ⟨found, hfound⟩ := global_after_run hends name
      obtain ⟨found', hfound'⟩ := global_after_run hends' name
      have hglobal := congrArg (·.global name) hmachines
      simp only [Machine.global_lineless, hfound, hfound', Option.map_some,
        Option.some.injEq] at hglobal
      exact ⟨found, found', hfound, hfound', hglobal⟩
    · rw [← m.heap.elements_lineless, ← m''.heap.elements_lineless]
      exact congrArg (fun m => m.heap.elements id) hmachines

/-- A function in an array, a call with an answer and an unknown variable, over several lines and
all on one. -/
theorem lines_make_no_difference_one_line :
    let p (l₁ l₂ l₃ l₄ : Nat) : Program :=
      [.function 0 "f" ["x"] (.mk [.print (.ident "x" l₂) l₂] l₁) l₁,
        .declare "a" (.array [.ident "f" l₃] l₃) l₃,
        .expression (.call (.ident "f" l₃) [.input l₄] l₃) l₃, .expression (.ident "z" l₄) l₄]
    let run := fun steps => interpret ⟨{}, fun _ => 0⟩ steps (p 1 2 4 5)
    let run' := fun steps => interpret ⟨{}, fun _ => 0⟩ steps (p 1 1 1 1)
    let m := final (run 9 (.fresh ["k"]))
    let m' := final (run' 9 (.fresh ["k"]))
    (p 1 2 4 5).bare id = (p 1 1 1 1).bare id ∧
      Ends run (.fresh ["k"]) (.error (.undefinedVariable "z" 5)) m ∧
      Ends run' (.fresh ["k"]) (.error (.undefinedVariable "z" 1)) m' ∧
      m.console.lines = ["k"] ∧ m'.console.lines = ["k"] ∧
      ∃ found found', m.global "f" = some found ∧ m'.global "f" = some found' ∧
        found.map Value.lineless = found'.map Value.lineless := by
  intro p run run' m m'
  have hends : Ends run (.fresh ["k"]) (.error (.undefinedVariable "z" 5)) m :=
    ends_of_fault? (by decide +kernel)
  have hends' : Ends run' (.fresh ["k"]) (.error (.undefinedVariable "z" 1)) m' :=
    ends_of_fault? (by decide +kernel)
  have hlines : m.console.lines = ["k"] := by decide +kernel
  have hsame := (lines_make_no_difference ["k"] none 1000 (fun _ => 0) (fun _ => 0) (p 1 2 4 5)
    (p 1 1 1 1) rfl).2 _ _ m m' hends hends'
  exact ⟨rfl, hends, hends', hlines, hsame.1.symm.trans hlines, hsame.2.2.2.1 "f"⟩

end Evaluation

end KakaLang
