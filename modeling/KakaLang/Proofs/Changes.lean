import KakaLang.Machine.Evaluation
import KakaLang.Proofs.ScopeWalk

/-!
What actions do to a machine. Apart from printing, the actions that use no rule of evaluation are
put together from a few changes: a record, a binding, the heap, a look at the clock, a prompt, an
answer taken. A relation between the machine before and the machine after that allows for these and
goes through sequencing therefore holds along all of them. Only definitions and assignments bind
names, so for the others the relation need not allow for that.
-/

namespace KakaLang

namespace Action

/-- The machine in which an action ends, with a result or without. -/
def final : EStateM.Result Halt Machine α → Machine
  | .ok _ m => m
  | .error _ m => m

/-- What comes after a look at the machine is given that machine. -/
theorem get_bind (f : Machine → Action β) (m : Machine) :
    (MonadState.get >>= f : Action β) m = f m m := rfl

theorem bind_ok {a : Action α} {f : α → Action β} {v : α} {m m' : Machine}
    (h : a m = .ok v m') : (a >>= f) m = f v m' := by
  simp only [Bind.bind, EStateM.bind, h]

theorem bind_error {a : Action α} {f : α → Action β} {halt : Halt} {m m' : Machine}
    (h : a m = .error halt m') : (a >>= f) m = .error halt m' := by
  simp only [Bind.bind, EStateM.bind, h]

/-- A look at the clock is counted, and then time may be up. -/
theorem checkTime_cases (settings : Settings) (line : Nat) (m : Machine) :
    checkTime settings line m = .ok () { m with looks := m.looks + 1 } ∨
      ∃ millis, checkTime settings line m =
        .error (.fault (.timeLimit millis line)) { m with looks := m.looks + 1 } := by
  unfold checkTime
  rw [get_bind]
  cases settings.limits.time with
  | none => exact .inl rfl
  | some millis =>
    by_cases hlate : 1000 * millis < settings.clock m.looks
    · refine .inr ⟨millis, ?_⟩
      simp only [if_pos hlate]
      rfl
    · left
      simp only [if_neg hlate]
      rfl

theorem checkTime_of_none {settings : Settings} (h : settings.limits.time = none) (line : Nat) :
    checkTime settings line = modify fun m => { m with looks := m.looks + 1 } := by
  unfold checkTime
  rw [h]
  rfl

theorem print_eq (settings : Settings) (text : String) (line : Nat) (m : Machine) :
    print settings text line m =
      match settings.limits.outputLines.filter (· ≤ m.printed) with
      | some limit => .error (.fault (.outputLimit limit line)) m
      | none => .ok () { m with
          console := m.console.put (.line text)
          printed := m.printed + 1 } := by
  unfold print
  rw [get_bind]
  cases settings.limits.outputLines.filter (· ≤ m.printed) with
  | some limit => rfl
  | none => rfl

/-- The machine an action ends in is related to the one it started from. -/
def Along (R : Machine → Machine → Prop) (a : Action α) : Prop := ∀ m, R m (final (a m))

theorem Along.modifyGet {R : Machine → Machine → Prop} {f : Machine → α × Machine}
    (h : ∀ m, R m (f m).2) : Along R (MonadState.modifyGet f : Action α) := h

end Action

open KakaLang.Action (Along)

/-- A call is refused at the limit, and otherwise entered after a look at the clock. -/
theorem Evaluation.enterCall_eq (settings : Settings) (f : Function) (arguments : Array Value)
    (line : Nat) (m : Machine) :
    enterCall settings f arguments line m =
      if settings.limits.callDepth ≤ m.callDepth then
        .error (.fault (.callDepth settings.limits.callDepth line)) m
      else
        (do
          Action.checkTime settings line
          Action.note (.calling f.name (m.callDepth + 1) arguments.size) : Action Unit) m := by
  unfold enterCall
  rw [Action.get_bind]
  by_cases hdeep : settings.limits.callDepth ≤ m.callDepth
  · simp only [if_pos hdeep]
    rfl
  · simp only [if_neg hdeep]

/-- An assignment gives a new value to a binding that is already there, or changes nothing. -/
theorem Evaluation.final_assign (scope : ScopeId) (name : String) (value : Value) (line : Nat)
    (m : Machine) :
    Action.final (assign scope name value line m) = m ∨
      ∃ nearest, Environment.Finds m.env name scope (some nearest) ∧
        Action.final (assign scope name value line m) =
          { m with env := m.env.define nearest name value } := by
  unfold assign
  rw [Action.get_bind]
  cases hassign : m.env.assign scope name value with
  | none => exact .inl rfl
  | some result =>
    obtain ⟨found, hfound, rfl⟩ := Environment.finds_of_assignWithin hassign
    cases found with
    | none => exact .inl rfl
    | some nearest => exact .inr ⟨nearest, hfound, rfl⟩

/-- A relation that allows for the changes that bind no name. -/
structure Quiet (R : Machine → Machine → Prop) : Prop where
  refl (m : Machine) : R m m
  trans {m m' m'' : Machine} : R m m' → R m' m'' → R m m''
  recorded (m : Machine) (r : Record) : R m (m.note r)
  heapChanged (m : Machine) (heap : Heap) : R m { m with heap := heap }
  looked (m : Machine) (looks : Nat) : R m { m with looks := looks }
  loaded (m : Machine) (site : Nat) : R m { m with nextSite := site }
  prompted (m : Machine) (prompt : String) :
    R m { m with console := m.console.put (.prompt prompt) }
  answered (m : Machine) (rest : List (Option String)) :
    R m { m with console := { m.console with answers := rest } }

/-- A relation that allows for the changes actions are made of. -/
structure Routine (R : Machine → Machine → Prop) : Prop extends Quiet R where
  defined (m : Machine) (scope : ScopeId) (name : String) (value : Value) :
    R m { m with env := m.env.define scope name value }

namespace Quiet

variable {R : Machine → Machine → Prop}

theorem pure (h : Quiet R) (a : α) : Along R (Pure.pure a) := h.refl

theorem fault (h : Quiet R) (e : RuntimeError) : Along R (Action.fault e : Action α) := h.refl

theorem cut (h : Quiet R) : Along R (Action.cut : Action α) := h.refl

theorem get (h : Quiet R) : Along R (MonadState.get : Action Machine) := h.refl

theorem bind (h : Quiet R) {a : Action α} {f : α → Action β} (ha : Along R a)
    (hf : ∀ v, Along R (f v)) : Along R (a >>= f) := by
  intro m
  have hm := ha m
  cases hresult : a m with
  | ok v m' =>
    rw [hresult] at hm
    rw [Action.bind_ok hresult]
    exact h.trans hm (hf v m')
  | error e m' =>
    rw [hresult] at hm
    rw [Action.bind_error hresult]
    exact hm

theorem note (h : Quiet R) (r : Record) : Along R (Action.note r) := fun m => h.recorded m r

theorem alloc (h : Quiet R) (elements : Array Value) : Along R (Action.alloc elements) :=
  fun m => h.heapChanged m _

theorem checkTime (h : Quiet R) (settings : Settings) (line : Nat) :
    Along R (Action.checkTime settings line) := by
  unfold Action.checkTime
  apply h.bind h.get
  intro m
  apply h.bind (Along.modifyGet fun m' => h.looked m' _)
  intro _
  split
  · exact h.pure _
  · split
    · exact h.fault _
    · exact h.pure _

theorem ask (h : Quiet R) (prompt : String) : Along R (Action.ask prompt) := by
  unfold Action.ask
  apply h.bind (Along.modifyGet fun m => h.prompted m prompt)
  intro _
  apply h.bind h.get
  intro m
  dsimp only
  split
  · exact h.bind (Along.modifyGet fun m' => h.answered m' _) fun _ => h.pure _
  · split
    · exact h.pure _
    · exact h.cut

theorem lookup (h : Quiet R) (scope : ScopeId) (name : String) (line : Nat) :
    Along R (Evaluation.lookup scope name line) := by
  unfold Evaluation.lookup
  apply h.bind h.get
  intro m
  split
  · exact h.pure _
  · exact h.fault _
  · exact h.cut

theorem input (h : Quiet R) (line : Nat) : Along R (Evaluation.input line) := by
  unfold Evaluation.input
  apply h.bind (h.ask _)
  intro answer
  cases answer with
  | none => exact h.bind (h.note _) fun _ => h.pure _
  | some answer => exact h.pure _

theorem member (h : Quiet R) (object property : Value) (line : Nat) :
    Along R (Evaluation.member object property line) := by
  unfold Evaluation.member
  split
  · exact h.bind h.get fun _ => h.pure _
  · split
    · exact h.bind h.get fun _ => h.pure _
    · split
      · exact h.pure _
      · exact h.fault _
  · exact h.fault _

theorem callMethod (h : Quiet R) (method : ArrayMethod) (receiver : ArrayId)
    (arguments : Array Value) : Along R (Evaluation.callMethod method receiver arguments) :=
  fun m => h.heapChanged m _

theorem enterCall (h : Quiet R) (settings : Settings) (f : Function) (arguments : Array Value)
    (line : Nat) : Along R (Evaluation.enterCall settings f arguments line) := by
  unfold Evaluation.enterCall
  apply h.bind h.get
  intro m
  dsimp only
  split
  · exact h.bind (h.fault _) fun _ => h.bind (h.checkTime _ _) fun _ => h.note _
  · exact h.bind (h.checkTime _ _) fun _ => h.note _

theorem load (h : Quiet R) (statements : List Statement) :
    Along R (Evaluation.load statements) := fun m => h.loaded m _

end Quiet

namespace Routine

variable {R : Machine → Machine → Prop}

theorem define (h : Routine R) (scope : ScopeId) (name : String) (value : Value) :
    Along R (Action.define scope name value) := fun m => h.defined m scope name value

theorem assign (h : Routine R) (scope : ScopeId) (name : String) (value : Value) (line : Nat) :
    Along R (Evaluation.assign scope name value line) := by
  intro m
  rcases Evaluation.final_assign scope name value line m with hsame | ⟨nearest, -, hassigned⟩
  · rw [hsame]
    exact h.refl m
  · rw [hassigned]
    exact h.defined m nearest name value

end Routine

end KakaLang
