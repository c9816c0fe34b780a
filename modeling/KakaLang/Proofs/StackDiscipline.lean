import KakaLang.Proofs.Watching

/-!
Frames stay stacked. In a run every rule is used in the last frame of a stack, with calls nested no
deeper than the limit allows, and leaves the frames, their parents and the depth of calls as it found
them, however it ends. This is shown for every use of a rule by watching the run.
-/

namespace KakaLang

open Machine (Restores Stacked)

/-- A rule is used in the last frame and leaves the frames as they were. -/
def Visit.Sound (settings : Settings) (v : Visit) : Prop :=
  Stacked settings v.scope v.before ∧ Restores v.before (v.after settings)

namespace Watched

variable {settings : Settings} {scope : ScopeId} {m : Machine}

/-- From one machine, the action leaves the frames as they were and so does every visit. -/
def Behaves (settings : Settings) (x : Watched α) (m : Machine) : Prop :=
  Restores m (Action.final (x m).1) ∧ ∀ v ∈ (x m).2, v.Sound settings

namespace Behaves

theorem lift {a : Action α} (h : a.Restoring) (m : Machine) : Behaves settings (liftM a) m :=
  ⟨h m, fun _ hv => absurd hv List.not_mem_nil⟩

theorem bind {x : Watched α} {f : α → Watched β} (hx : Behaves settings x m)
    (hf : ∀ v m', (x m).1 = .ok v m' → Restores m m' → Behaves settings (f v) m') :
    Behaves settings (x >>= f) m := by
  obtain ⟨hrestores, hvisits⟩ := hx
  unfold Behaves
  simp only [Bind.bind]
  rcases hresult : x m with ⟨result, visits⟩
  rw [hresult] at hrestores hvisits hf
  cases result with
  | error e m' => exact ⟨hrestores, hvisits⟩
  | ok v m' =>
    obtain ⟨hrest, hlater⟩ := hf v m' rfl hrestores
    refine ⟨hrestores.trans hrest, fun w hw => ?_⟩
    rcases List.mem_append.mp hw with hw | hw
    · exact hvisits w hw
    · exact hlater w hw

theorem visit {rule : Rule} {steps : Nat} {x : Watched α} (hm : Stacked settings scope m)
    (hafter : Visit.after settings ⟨rule, steps, scope, m⟩ = Action.final (x m).1)
    (h : Behaves settings x m) : Behaves settings (Watched.visit rule steps scope x) m := by
  refine ⟨h.1, fun v hv => ?_⟩
  rcases List.mem_cons.mp hv with rfl | hv
  · refine ⟨hm, ?_⟩
    rw [hafter]
    exact h.1
  · exact h.2 v hv

theorem inScope {parent : ScopeId} {x : ScopeId → Watched α} (hm : Stacked settings scope m)
    (h : Behaves settings (x m.env.size) (m.pushScope parent)) :
    Behaves settings (Watched.inScope parent x) m := by
  have hpositive : 0 < m.env.size := by
    rw [hm.last]
    exact Nat.succ_pos scope
  refine ⟨?_, h.2⟩
  have hinside := h.1
  unfold Watched.inScope Watched.ensuring Action.ensuring
  dsimp only
  cases hresult : (x m.env.size (m.pushScope parent)).1 with
  | ok v m' =>
    rw [hresult] at hinside
    exact hinside.popScope hpositive
  | error e m' =>
    rw [hresult] at hinside
    exact hinside.popScope hpositive

theorem deeper {x : Watched α} (h : Behaves settings x { m with callDepth := m.callDepth + 1 }) :
    Behaves settings (Watched.deeper x) m := by
  have hback : ∀ m', Restores { m with callDepth := m.callDepth + 1 } m' →
      Restores m { m' with callDepth := m'.callDepth - 1 } := by
    intro m' hm'
    refine ⟨hm'.size, hm'.parents, ?_⟩
    have hdepth : m'.callDepth = m.callDepth + 1 := hm'.depth
    change m'.callDepth - 1 = m.callDepth
    omega
  refine ⟨?_, h.2⟩
  have hinside := h.1
  unfold Watched.deeper Watched.ensuring Action.ensuring
  dsimp only
  cases hresult : (x { m with callDepth := m.callDepth + 1 }).1 with
  | ok v m' =>
    rw [hresult] at hinside
    exact hback m' hinside
  | error e m' =>
    rw [hresult] at hinside
    exact hback m' hinside

end Behaves

/-- Where the scope is the last frame of a stack, the action behaves. -/
def Disciplined (settings : Settings) (scope : ScopeId) (x : Watched α) : Prop :=
  ∀ m, Stacked settings scope m → Behaves settings x m

namespace Disciplined

theorem lift {a : Action α} (h : a.Restoring) : Disciplined settings scope (liftM a) :=
  fun m _ => .lift h m

theorem pure (a : α) : Disciplined settings scope (Pure.pure a) := lift (.pure a)

theorem bind {x : Watched α} {f : α → Watched β} (hx : Disciplined settings scope x)
    (hf : ∀ v, Disciplined settings scope (f v)) : Disciplined settings scope (x >>= f) :=
  fun m hm => (hx m hm).bind fun v m' _ hm' => hf v m' (hm.of_restores hm')

/-- A visit ends where the plain rule does, because watching changes nothing. -/
theorem visit {rule : Rule} {steps : Nat} {x : Watched α} {a : Action α}
    (herases : Erases (Watched.visit rule steps scope x) a)
    (hafter : ∀ m, Visit.after settings ⟨rule, steps, scope, m⟩ = Action.final (a m))
    (h : Disciplined settings scope x) :
    Disciplined settings scope (Watched.visit rule steps scope x) := by
  intro m hm
  apply (h m hm).visit hm
  rw [hafter, ← herases m]
  rfl

end Disciplined

/-- The rules are disciplined for some number of steps. -/
structure DisciplinedAt (settings : Settings) (steps : Nat) : Prop where
  eval : ∀ e scope, Disciplined settings scope (eval settings steps e scope)
  evalAll : ∀ found es scope, Disciplined settings scope (evalAll settings steps found es scope)
  call : ∀ f arguments line scope,
    Disciplined settings scope (call settings steps f arguments line scope)
  exec : ∀ s scope, Disciplined settings scope (exec settings steps s scope)
  execBlock : ∀ block scope, Disciplined settings scope (execBlock settings steps block scope)
  execAll : ∀ ss scope, Disciplined settings scope (execAll settings steps ss scope)
  execLoop : ∀ condition body line scope,
    Disciplined settings scope (execLoop settings steps condition body line scope)

namespace DisciplinedAt

open KakaLang.Action (Restoring)

variable {steps : Nat}

theorem eval_succ (h : DisciplinedAt settings steps) (e : Expr) (scope : ScopeId) :
    Disciplined settings scope (Watched.eval settings (steps + 1) e scope) := by
  have herases := (erasesAt settings (steps + 1)).eval e scope
  unfold Watched.eval at herases ⊢
  apply Disciplined.visit herases fun _ => rfl
  cases e with
  | literal value line => exact .pure _
  | ident name line => exact .lift (.lookup scope name line)
  | binary op left right line =>
    apply (h.eval left scope).bind
    intro leftValue
    apply (h.eval right scope).bind
    intro rightValue
    exact (Disciplined.lift .get).bind fun _ => .pure _
  | logical op left right line =>
    apply (h.eval left scope).bind
    intro leftValue
    split
    · exact .pure _
    · exact h.eval right scope
  | assign name value line =>
    apply (h.eval value scope).bind
    intro v
    exact .lift (.assign scope name v line)
  | input line => exact .lift (.input line)
  | call callee arguments line =>
    apply (h.eval callee scope).bind
    intro f
    apply (h.evalAll #[] arguments scope).bind
    intro values
    cases f with
    | function f => exact h.call f values line scope
    | method method receiver => exact .lift (.callMethod method receiver values)
    | _ => exact .lift (.fault _)
  | array elements line =>
    apply (h.evalAll #[] elements scope).bind
    intro values
    exact (Disciplined.lift (.alloc values)).bind fun _ => .pure _
  | member object property line =>
    apply (h.eval object scope).bind
    intro o
    apply (h.eval property scope).bind
    intro p
    exact .lift (.member o p line)

theorem evalAll_succ (h : DisciplinedAt settings steps) (found : Array Value) (es : List Expr)
    (scope : ScopeId) :
    Disciplined settings scope (Watched.evalAll settings (steps + 1) found es scope) := by
  cases es with
  | nil =>
    rw [Watched.evalAll]
    exact .pure _
  | cons e es =>
    rw [Watched.evalAll]
    exact (h.eval e scope).bind fun v => h.evalAll (found.push v) es scope

/-- The body of a function runs in a new last frame under the global one, one call deeper. -/
theorem call_succ (h : DisciplinedAt settings steps) (f : Function) (arguments : Array Value)
    (line : Nat) (scope : ScopeId) :
    Disciplined settings scope
      (Watched.call settings (steps + 1) f arguments line scope) := by
  have herases := (erasesAt settings (steps + 1)).call f arguments line scope
  rw [Watched.call] at herases ⊢
  apply Disciplined.visit herases fun _ => rfl
  intro m hm
  apply (Behaves.lift (.enterCall settings f arguments line) m).bind
  intro _ entered hentered hrestores
  -- The limit was checked just before, which leaves room for the call.
  have hdepth : entered.callDepth < settings.limits.callDepth := by
    rw [hrestores.depth]
    exact Evaluation.depth_of_enterCall hentered
  have hstacked := hm.of_restores hrestores
  refine Behaves.bind (Behaves.inScope hstacked ?_) fun flow m' _ _ => ?_
  · -- Parameters are bindings of the new frame.
    have hparams : ∀ frame, Restoring
        (modify fun m => { m with env := m.env.defineAll frame f.params arguments.toList }) :=
      fun frame => .modifyGet fun m =>
        ⟨m.env.size_defineAll frame _ _, m.env.parent?_defineAll frame _ _, rfl⟩
    apply (Behaves.lift (hparams _) _).bind
    intro _ defined _ hdefined
    have hinner := (hstacked.pushScope (Or.inr rfl)).of_restores hdefined
    apply Behaves.deeper
    apply h.execAll f.body _
    refine ⟨hinner.last, hinner.parents, ?_⟩
    have hsame : defined.callDepth = entered.callDepth := hdefined.depth
    change defined.callDepth + 1 ≤ settings.limits.callDepth
    omega
  · cases flow <;> exact .lift (.pure _) m'

theorem exec_succ (h : DisciplinedAt settings steps) (s : Statement) (scope : ScopeId) :
    Disciplined settings scope (Watched.exec settings (steps + 1) s scope) := by
  have herases := (erasesAt settings (steps + 1)).exec s scope
  unfold Watched.exec at herases ⊢
  apply Disciplined.visit herases fun _ => rfl
  cases s with
  | declare name value line =>
    apply (h.eval value scope).bind
    intro v
    exact (Disciplined.lift (.define scope name v)).bind fun _ => .pure _
  | print value line =>
    apply (h.eval value scope).bind
    intro v
    apply (Disciplined.lift (.checkTime settings line)).bind
    intro _
    apply (Disciplined.lift .get).bind
    intro m
    exact (Disciplined.lift (.print settings _ line)).bind fun _ => .pure _
  | branch condition yes no line =>
    apply (h.eval condition scope).bind
    intro v
    split
    · exact h.execBlock yes scope
    · cases no with
      | none => exact .pure _
      | some no => exact h.execBlock no scope
  | loop condition body line => exact h.execLoop condition body line scope
  | block body => exact h.execBlock body scope
  | expression value line => exact (h.eval value scope).bind fun _ => .pure _
  | leave line => exact .pure _
  | next line => exact .pure _
  | function site name params body line =>
    apply (Disciplined.lift (.note _)).bind
    intro _
    exact (Disciplined.lift (.define globalScope name _)).bind fun _ => .pure _
  | give value line =>
    cases value with
    | none => exact .pure _
    | some value => exact (h.eval value scope).bind fun _ => .pure _

/-- The statements of a block run in a new last frame under the one before it. -/
theorem execBlock_succ (h : DisciplinedAt settings steps) (block : Block) (scope : ScopeId) :
    Disciplined settings scope (Watched.execBlock settings (steps + 1) block scope) := by
  have herases := (erasesAt settings (steps + 1)).execBlock block scope
  rw [Watched.execBlock] at herases ⊢
  apply Disciplined.visit herases fun _ => rfl
  intro m hm
  apply Behaves.inScope hm
  exact h.execAll block.statements _ _ (hm.pushScope (Or.inl rfl))

theorem execAll_succ (h : DisciplinedAt settings steps) (ss : List Statement) (scope : ScopeId) :
    Disciplined settings scope (Watched.execAll settings (steps + 1) ss scope) := by
  have herases := (erasesAt settings (steps + 1)).execAll ss scope
  cases ss with
  | nil =>
    rw [Watched.execAll] at herases ⊢
    exact Disciplined.visit herases (fun _ => rfl) (.pure _)
  | cons s ss =>
    rw [Watched.execAll] at herases ⊢
    apply Disciplined.visit herases fun _ => rfl
    apply (h.exec s scope).bind
    intro flow
    cases flow with
    | normal => exact h.execAll ss scope
    | _ => exact .pure _

theorem execLoop_succ (h : DisciplinedAt settings steps) (condition : Expr) (body : Block)
    (line : Nat) (scope : ScopeId) :
    Disciplined settings scope
      (Watched.execLoop settings (steps + 1) condition body line scope) := by
  rw [Watched.execLoop]
  apply (h.eval condition scope).bind
  intro v
  split
  · apply (Disciplined.lift (.checkTime settings line)).bind
    intro _
    apply (h.execBlock body scope).bind
    intro flow
    cases flow with
    | normal => exact h.execLoop condition body line scope
    | leave => exact .pure _
    | next => exact h.execLoop condition body line scope
    | give value => exact .pure _
  · exact .pure _

end DisciplinedAt

/-- Every rule is disciplined. The induction is on the steps, which every use of one rule by another
counts down. -/
theorem disciplinedAt (settings : Settings) (steps : Nat) : DisciplinedAt settings steps := by
  induction steps with
  | zero =>
    constructor
    · intro e scope
      have herases := (erasesAt settings 0).eval e scope
      rw [eval] at herases ⊢
      exact Disciplined.visit herases (fun _ => rfl) (.lift .cut)
    · intro found es scope
      rw [evalAll]
      exact .lift .cut
    · intro f arguments line scope
      have herases := (erasesAt settings 0).call f arguments line scope
      rw [call] at herases ⊢
      exact Disciplined.visit herases (fun _ => rfl) (.lift .cut)
    · intro s scope
      have herases := (erasesAt settings 0).exec s scope
      rw [exec] at herases ⊢
      exact Disciplined.visit herases (fun _ => rfl) (.lift .cut)
    · intro block scope
      have herases := (erasesAt settings 0).execBlock block scope
      rw [execBlock] at herases ⊢
      exact Disciplined.visit herases (fun _ => rfl) (.lift .cut)
    · intro ss scope
      have herases := (erasesAt settings 0).execAll ss scope
      rw [execAll] at herases ⊢
      exact Disciplined.visit herases (fun _ => rfl) (.lift .cut)
    · intro condition body line scope
      rw [execLoop]
      exact .lift .cut
  | succ steps h =>
    exact ⟨h.eval_succ, h.evalAll_succ, h.call_succ, h.exec_succ, h.execBlock_succ,
      h.execAll_succ, h.execLoop_succ⟩

theorem disciplined_topLevel (steps : Nat) (ss : List Statement) :
    Disciplined settings globalScope (topLevel settings steps ss) := by
  induction ss with
  | nil => exact .pure _
  | cons s ss ih =>
    rw [topLevel]
    apply ((disciplinedAt settings steps).exec s globalScope).bind
    intro flow
    cases flow with
    | normal => exact ih
    | _ => exact .lift (.note _)

theorem disciplined_interpret (steps : Nat) (p : Program) :
    Disciplined settings globalScope (interpret settings steps p) := by
  rw [interpret]
  apply (Disciplined.lift (.modifyGet fun _ => .of_env rfl rfl)).bind
  intro _
  apply (Disciplined.lift (.note _)).bind
  intro _
  apply (Disciplined.lift (.load p)).bind
  intro loaded
  exact disciplined_topLevel steps loaded

end Watched

namespace Evaluation

/-- A fresh machine is clean. In a run from a clean machine every use of a rule starts in the last
frame of a stack, with calls within their limit, and ends with the frames, their parents and the
depth of calls that it started with. The machine is clean again after the run, however that ended. -/
theorem interpret_keeps_stack (settings : Settings) :
    (∀ console, Machine.Clean { console := console }) ∧
    ∀ (steps : Nat) (p : Program) (m : Machine), m.Clean →
      (Watched.interpret settings steps p m).1 = interpret settings steps p m ∧
      (∀ v ∈ (Watched.interpret settings steps p m).2,
        Stacked settings v.scope v.before ∧ Restores v.before (v.after settings)) ∧
      (Action.final (interpret settings steps p m)).Clean := by
  refine ⟨fun _ => ⟨rfl, rfl⟩, fun steps p m hclean => ?_⟩
  have herases := Watched.erases_interpret settings steps p m
  obtain ⟨hrestores, hvisits⟩ := Watched.disciplined_interpret steps p m (.of_clean hclean)
  refine ⟨herases, hvisits, ?_⟩
  rw [← herases]
  exact hclean.of_restores hrestores

/-- Why a run has no result, if it has none. -/
def halt? : EStateM.Result Halt Machine Unit → Option Halt
  | .ok _ _ => none
  | .error halt _ => some halt

/-- A fault inside a block of a called function leaves no frame behind. -/
theorem interpret_keeps_stack_fault :
    let body : Block := .mk [.block (.mk [.expression (.ident "y" 2) 2] 2)] 1
    let p : Program := [.function 0 "f" ["x"] body 1, .expression (.call (.ident "f" 3) [] 3) 3]
    halt? (interpret {} 9 p {}) = some (.fault (.undefinedVariable "y" 2)) ∧
      (Action.final (interpret {} 9 p {})).Clean := by
  intro body p
  have hclean := ((interpret_keeps_stack {}).2 9 p {} ⟨rfl, rfl⟩).2.2
  exact ⟨by decide +kernel, hclean⟩

end Evaluation

end KakaLang
