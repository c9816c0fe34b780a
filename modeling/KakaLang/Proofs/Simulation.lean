import KakaLang.Proofs.Watching

/-!
Two runs side by side, a plain one under the settings on the left and a watched one under those on
the right. A relation between actions is a simulation when it goes through sequencing, scopes and
visits and holds between the actions that use no rule. Then it holds between all rules of
evaluation, by one induction on the steps; what the runs have to do with each other is up to the
relation. It may depend on a world, which says where the two runs are, and the scopes of a world are
those in which they may be there.
-/

namespace KakaLang

open Evaluation (lookup assign input member callMethod enterCall load)

section

variable {World : Type}

/-- A relation that the actions without rules satisfy and that the ways to put actions together
keep. -/
structure Simulation (left right : Settings) (At : World → ScopeId → ScopeId → Prop)
    (Rel : World → {α : Type} → Action α → Watched α → Prop) : Prop where
  pure (w : World) {α : Type} (a : α) : Rel w (Pure.pure a) (Pure.pure a)
  bind {w : World} {α β : Type} {x : Action α} {y : Watched α} {f : α → Action β}
    {g : α → Watched β} : Rel w x y → (∀ a, Rel w (f a) (g a)) → Rel w (x >>= f) (y >>= g)
  visit {w : World} {α : Type} {x : Action α} {y : Watched α} (rule : Rule) (steps : Nat)
    (scope : ScopeId) : Rel w x y → Rel w x (Watched.visit rule steps scope y)
  /-- A block, whose scope is under the one it is in. -/
  block {w : World} {α : Type} {s t : ScopeId} {x : ScopeId → Action α}
    {y : ScopeId → Watched α} : At w s t →
    (∀ w' s' t', At w' s' t' → Rel w' (x s') (y t')) →
    Rel w (Action.inScope s x) (Watched.inScope t y)
  /-- The body of a call, whose scope is under the global one and holds the parameters. -/
  body (w : World) {α : Type} {x : ScopeId → Action α} {y : ScopeId → Watched α}
    (params : List String) (arguments : List Value) :
    (∀ w' s' t', At w' s' t' → Rel w' (x s') (y t')) →
    Rel w
      (Action.inScope globalScope fun frame => do
        modify fun m => { m with env := m.env.defineAll frame params arguments }
        Action.deeper (x frame))
      (Watched.inScope globalScope fun frame => do
        modify fun m => { m with env := m.env.defineAll frame params arguments }
        Watched.deeper (y frame))
  /-- A print statement is taken as a whole, because a visit of it says what it has printed. -/
  print {w : World} {s t : ScopeId} {n k : Nat} {value : Expr} (line : Nat) : At w s t →
    Rel w (Evaluation.eval left n value s) (Watched.eval right k value t) →
    Rel w (Evaluation.exec left (n + 1) (.print value line) s)
      (Watched.exec right (k + 1) (.print value line) t)
  /-- So is a declaration of a function, because a visit of it says which name it declares. -/
  function {w : World} {s t : ScopeId} {n k : Nat} (site : Nat) (name : String)
    (params : List String) (body : Block) (line : Nat) : At w s t →
    Rel w (Evaluation.exec left (n + 1) (.function site name params body line) s)
      (Watched.exec right (k + 1) (.function site name params body line) t)
  fault (w : World) {α : Type} (e : RuntimeError) :
    Rel w (Action.fault e : Action α) (liftM (Action.fault e : Action α))
  readHeap (w : World) (f : Heap → Value) :
    Rel w (do return f (← get).heap) (do return f (← get).heap)
  note (w : World) (r : Record) : Rel w (Action.note r) (liftM (Action.note r))
  alloc (w : World) (elements : Array Value) :
    Rel w (Action.alloc elements) (liftM (Action.alloc elements))
  define {w : World} {s t : ScopeId} (name : String) (value : Value) : At w s t →
    Rel w (Action.define s name value) (liftM (Action.define t name value))
  lookup {w : World} {s t : ScopeId} (name : String) (line : Nat) : At w s t →
    Rel w (lookup s name line) (liftM (lookup t name line))
  assign {w : World} {s t : ScopeId} (name : String) (value : Value) (line : Nat) : At w s t →
    Rel w (assign s name value line) (liftM (assign t name value line))
  input (w : World) (line : Nat) : Rel w (input line) (liftM (input line))
  member (w : World) (object property : Value) (line : Nat) :
    Rel w (member object property line) (liftM (member object property line))
  callMethod (w : World) (method : ArrayMethod) (receiver : ArrayId) (arguments : Array Value) :
    Rel w (callMethod method receiver arguments) (liftM (callMethod method receiver arguments))
  checkTime (w : World) (line : Nat) :
    Rel w (Action.checkTime left line) (liftM (Action.checkTime right line))
  enterCall (w : World) (f : Function) (arguments : Array Value) (line : Nat) :
    Rel w (enterCall left f arguments line) (liftM (enterCall right f arguments line))

/-- The rules are related for some numbers of steps. -/
structure SimulatedAt (left right : Settings) (At : World → ScopeId → ScopeId → Prop)
    (Rel : World → {α : Type} → Action α → Watched α → Prop) (n k : Nat) : Prop where
  eval {w : World} {s t : ScopeId} (e : Expr) : At w s t →
    Rel w (Evaluation.eval left n e s) (Watched.eval right k e t)
  evalAll {w : World} {s t : ScopeId} (found : Array Value) (es : List Expr) : At w s t →
    Rel w (Evaluation.evalAll left n found es s) (Watched.evalAll right k found es t)
  call (w : World) (f : Function) (arguments : Array Value) (line : Nat) (scope : ScopeId) :
    Rel w (Evaluation.call left n f arguments line) (Watched.call right k f arguments line scope)
  exec {w : World} {s t : ScopeId} (statement : Statement) : At w s t →
    Rel w (Evaluation.exec left n statement s) (Watched.exec right k statement t)
  execBlock {w : World} {s t : ScopeId} (block : Block) : At w s t →
    Rel w (Evaluation.execBlock left n block s) (Watched.execBlock right k block t)
  execAll {w : World} {s t : ScopeId} (ss : List Statement) : At w s t →
    Rel w (Evaluation.execAll left n ss s) (Watched.execAll right k ss t)
  execLoop {w : World} {s t : ScopeId} (condition : Expr) (body : Block) (line : Nat) : At w s t →
    Rel w (Evaluation.execLoop left n condition body line s)
      (Watched.execLoop right k condition body line t)

end

namespace Simulation

variable {World : Type} {left right : Settings} {At : World → ScopeId → ScopeId → Prop}
variable {Rel : World → {α : Type} → Action α → Watched α → Prop}
variable {w : World} {s t : ScopeId} {n k : Nat}

theorem eval_succ (S : Simulation left right At Rel) (h : SimulatedAt left right At Rel n k)
    (e : Expr) (hat : At w s t) :
    Rel w (Evaluation.eval left (n + 1) e s) (Watched.eval right (k + 1) e t) := by
  unfold Evaluation.eval Watched.eval
  apply S.visit
  cases e with
  | literal value line => exact S.pure w _
  | ident name line => exact S.lookup name line hat
  | binary op l r line =>
    apply S.bind (h.eval l hat)
    intro lv
    apply S.bind (h.eval r hat)
    intro rv
    exact S.readHeap w fun heap => op.apply heap lv rv
  | logical op l r line =>
    apply S.bind (h.eval l hat)
    intro lv
    split
    · exact S.pure w _
    · exact h.eval r hat
  | assign name value line =>
    apply S.bind (h.eval value hat)
    intro v
    exact S.assign name v line hat
  | input line => exact S.input w line
  | call callee arguments line =>
    apply S.bind (h.eval callee hat)
    intro f
    apply S.bind (h.evalAll #[] arguments hat)
    intro values
    cases f with
    | function f => exact h.call w f values line t
    | method method receiver => exact S.callMethod w method receiver values
    | _ => exact S.fault w _
  | array elements line =>
    apply S.bind (h.evalAll #[] elements hat)
    intro values
    exact S.bind (S.alloc w values) fun _ => S.pure w _
  | member object property line =>
    apply S.bind (h.eval object hat)
    intro o
    apply S.bind (h.eval property hat)
    intro p
    exact S.member w o p line

theorem evalAll_succ (S : Simulation left right At Rel) (h : SimulatedAt left right At Rel n k)
    (found : Array Value) (es : List Expr) (hat : At w s t) :
    Rel w (Evaluation.evalAll left (n + 1) found es s)
      (Watched.evalAll right (k + 1) found es t) := by
  cases es with
  | nil =>
    rw [Evaluation.evalAll, Watched.evalAll]
    exact S.pure w _
  | cons e es =>
    rw [Evaluation.evalAll, Watched.evalAll]
    apply S.bind (h.eval e hat)
    intro v
    exact h.evalAll (found.push v) es hat

theorem call_succ (S : Simulation left right At Rel) (h : SimulatedAt left right At Rel n k)
    (w : World) (f : Function) (arguments : Array Value) (line : Nat) (scope : ScopeId) :
    Rel w (Evaluation.call left (n + 1) f arguments line)
      (Watched.call right (k + 1) f arguments line scope) := by
  rw [Evaluation.call, Watched.call]
  apply S.visit
  apply S.bind (S.enterCall w f arguments line)
  intro _
  apply S.bind (S.body w f.params arguments.toList fun _ _ _ hat => h.execAll f.body hat)
  intro flow
  cases flow <;> exact S.pure w _

theorem exec_succ (S : Simulation left right At Rel) (h : SimulatedAt left right At Rel n k)
    (statement : Statement) (hat : At w s t) :
    Rel w (Evaluation.exec left (n + 1) statement s)
      (Watched.exec right (k + 1) statement t) := by
  by_cases hwhole : (∃ value line, statement = .print value line) ∨
      ∃ site name params body line, statement = .function site name params body line
  · rcases hwhole with ⟨value, line, rfl⟩ | ⟨site, name, params, body, line, rfl⟩
    · exact S.print line hat (h.eval value hat)
    · exact S.function site name params body line hat
  · unfold Evaluation.exec Watched.exec
    apply S.visit
    cases statement with
    | print value line => exact absurd (.inl ⟨value, line, rfl⟩) hwhole
    | function site name params body line =>
      exact absurd (.inr ⟨site, name, params, body, line, rfl⟩) hwhole
    | declare name value line =>
      apply S.bind (h.eval value hat)
      intro v
      exact S.bind (S.define name v hat) fun _ => S.pure w _
    | branch condition yes no line =>
      apply S.bind (h.eval condition hat)
      intro v
      split
      · exact h.execBlock yes hat
      · cases no with
        | none => exact S.pure w _
        | some no => exact h.execBlock no hat
    | loop condition body line => exact h.execLoop condition body line hat
    | block body => exact h.execBlock body hat
    | expression value line => exact S.bind (h.eval value hat) fun _ => S.pure w _
    | leave line => exact S.pure w _
    | next line => exact S.pure w _
    | give value line =>
      cases value with
      | none => exact S.pure w _
      | some value => exact S.bind (h.eval value hat) fun _ => S.pure w _

theorem execBlock_succ (S : Simulation left right At Rel) (h : SimulatedAt left right At Rel n k)
    (block : Block) (hat : At w s t) :
    Rel w (Evaluation.execBlock left (n + 1) block s)
      (Watched.execBlock right (k + 1) block t) := by
  rw [Evaluation.execBlock, Watched.execBlock]
  apply S.visit
  apply S.block hat
  intro _ _ _ hinner
  exact h.execAll block.statements hinner

theorem execAll_succ (S : Simulation left right At Rel) (h : SimulatedAt left right At Rel n k)
    (ss : List Statement) (hat : At w s t) :
    Rel w (Evaluation.execAll left (n + 1) ss s) (Watched.execAll right (k + 1) ss t) := by
  cases ss with
  | nil =>
    rw [Evaluation.execAll, Watched.execAll]
    exact S.visit _ _ _ (S.pure w _)
  | cons statement ss =>
    rw [Evaluation.execAll, Watched.execAll]
    apply S.visit
    apply S.bind (h.exec statement hat)
    intro flow
    cases flow with
    | normal => exact h.execAll ss hat
    | _ => exact S.pure w _

theorem execLoop_succ (S : Simulation left right At Rel) (h : SimulatedAt left right At Rel n k)
    (condition : Expr) (body : Block) (line : Nat) (hat : At w s t) :
    Rel w (Evaluation.execLoop left (n + 1) condition body line s)
      (Watched.execLoop right (k + 1) condition body line t) := by
  rw [Evaluation.execLoop, Watched.execLoop]
  apply S.bind (h.eval condition hat)
  intro v
  split
  · apply S.bind (S.checkTime w line)
    intro _
    apply S.bind (h.execBlock body hat)
    intro flow
    cases flow with
    | normal => exact h.execLoop condition body line hat
    | leave => exact S.pure w _
    | next => exact h.execLoop condition body line hat
    | give value => exact S.pure w _
  · exact S.pure w _

theorem succ (S : Simulation left right At Rel) (h : SimulatedAt left right At Rel n k) :
    SimulatedAt left right At Rel (n + 1) (k + 1) where
  eval e hat := S.eval_succ h e hat
  evalAll found es hat := S.evalAll_succ h found es hat
  call w f arguments line scope := S.call_succ h w f arguments line scope
  exec statement hat := S.exec_succ h statement hat
  execBlock block hat := S.execBlock_succ h block hat
  execAll ss hat := S.execAll_succ h ss hat
  execLoop condition body line hat := S.execLoop_succ h condition body line hat

/-- The rules are related for all steps once they are without steps on the left. The run on the
right may have more steps by a fixed number. -/
theorem simulatedAt (S : Simulation left right At Rel) {lag : Nat}
    (h : SimulatedAt left right At Rel 0 lag) (n : Nat) :
    SimulatedAt left right At Rel n (lag + n) := by
  induction n with
  | zero => exact h
  | succ n ih => exact S.succ ih

/-- Without steps on both sides only being cut off has to be related. -/
theorem simulatedAt_zero (S : Simulation left right At Rel)
    (hcut : ∀ (w : World) {α : Type},
      Rel w (Action.cut : Action α) (liftM (Action.cut : Action α))) :
    SimulatedAt left right At Rel 0 0 := by
  constructor
  · intro w s t e _
    rw [Evaluation.eval, Watched.eval]
    exact S.visit _ _ _ (hcut w)
  · intro w s t found es _
    rw [Evaluation.evalAll, Watched.evalAll]
    exact hcut w
  · intro w f arguments line scope
    rw [Evaluation.call, Watched.call]
    exact S.visit _ _ _ (hcut w)
  · intro w s t statement _
    rw [Evaluation.exec, Watched.exec]
    exact S.visit _ _ _ (hcut w)
  · intro w s t block _
    rw [Evaluation.execBlock, Watched.execBlock]
    exact S.visit _ _ _ (hcut w)
  · intro w s t ss _
    rw [Evaluation.execAll, Watched.execAll]
    exact S.visit _ _ _ (hcut w)
  · intro w s t condition body line _
    rw [Evaluation.execLoop, Watched.execLoop]
    exact hcut w

theorem topLevel (S : Simulation left right At Rel) (h : SimulatedAt left right At Rel n k)
    (hat : At w globalScope globalScope) (ss : List Statement) :
    Rel w (Evaluation.topLevel left n ss) (Watched.topLevel right k ss) := by
  induction ss with
  | nil => exact S.pure w _
  | cons statement ss ih =>
    rw [Evaluation.topLevel, Watched.topLevel]
    apply S.bind (h.exec statement hat)
    intro flow
    cases flow with
    | normal => exact ih
    | _ => exact S.note w _

/-- Whole programs are related when loading them and starting the clock are. -/
theorem interpret (S : Simulation left right At Rel) (h : SimulatedAt left right At Rel n k)
    (hat : At w globalScope globalScope) (p : Program)
    (hstart : Rel w (modify fun m => { m with looks := 0 })
      (liftM (modify fun m => { m with looks := 0 } : Action Unit)))
    (hload : Rel w (load p) (liftM (load p))) :
    Rel w (Evaluation.interpret left n p) (Watched.interpret right k p) := by
  rw [Evaluation.interpret, Watched.interpret]
  apply S.bind hstart
  intro _
  apply S.bind (S.note w _)
  intro _
  apply S.bind hload
  intro loaded
  exact S.topLevel h hat loaded

end Simulation

end KakaLang
