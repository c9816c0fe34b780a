import KakaLang.Proofs.Changes

/-!
How control leaves a statement. An exit in a statement is free when no loop of the statement takes
it and no function of the statement holds it. Control leaves a statement by an exit only if that
exit is free in it: branches and blocks pass exits on, a loop takes those that are meant for it, and
a call ends with a value whatever exit its body ended with. The functions that are called are in the
machine and not in the statement, so they do not matter. A program without free exits therefore
comes to its last statement unless it faults.
-/

namespace KakaLang

/-- The ways out of a statement before its end. -/
inductive Exit where
  | leave
  | next
  | give
deriving DecidableEq, Repr

/-- The exit that control takes, if it does. -/
def Flow.exit? : Flow → Option Exit
  | .normal => none
  | .leave => some .leave
  | .next => some .next
  | .give _ => some .give

namespace Exit

/-- A loop takes the exits that end it or one of its rounds. -/
def isForLoop : Exit → Bool
  | .leave | .next => true
  | .give => false

mutual

/-- The statement has the exit outside the loops that take it and outside functions. -/
def freeIn (exit : Exit) : Statement → Bool
  | .leave _ => exit = .leave
  | .next _ => exit = .next
  | .give _ _ => exit = .give
  | .branch _ yes none _ => exit.freeInBlock yes
  | .branch _ yes (some no) _ => exit.freeInBlock yes || exit.freeInBlock no
  | .loop _ body _ => !exit.isForLoop && exit.freeInBlock body
  | .block body => exit.freeInBlock body
  | .declare .. | .print .. | .expression .. | .function .. => false

def freeInBlock (exit : Exit) : Block → Bool
  | .mk statements _ => exit.freeInAny statements

def freeInAny (exit : Exit) : List Statement → Bool
  | [] => false
  | s :: rest => exit.freeIn s || exit.freeInAny rest

end

theorem freeInBlock_eq (exit : Exit) (block : Block) :
    exit.freeInBlock block = exit.freeInAny block.statements := by
  cases block
  rw [freeInBlock]
  rfl

end Exit

namespace Site

mutual

/-- The numbers of functions have nothing to do with exits. -/
theorem freeIn_statement (exit : Exit) (s : Statement) (next : Nat) :
    exit.freeIn (statement s next).1 = exit.freeIn s := by
  match s with
  | .branch condition yes none line => exact freeInBlock_block exit yes next
  | .branch condition yes (some no) line =>
    have hyes := freeInBlock_block exit yes next
    have hno := freeInBlock_block exit no (block yes next).2
    rw [Exit.freeIn, ← hyes, ← hno]
    rfl
  | .loop condition body line =>
    have hbody := freeInBlock_block exit body next
    rw [Exit.freeIn, ← hbody]
    rfl
  | .block body => exact freeInBlock_block exit body next
  | .declare .. | .print .. | .expression .. | .leave .. | .next .. | .function .. | .give .. => rfl

theorem freeInBlock_block (exit : Exit) (body : Block) (next : Nat) :
    exit.freeInBlock (block body next).1 = exit.freeInBlock body := by
  match body with
  | .mk body line => exact freeInAny_statements exit body next

theorem freeInAny_statements (exit : Exit) (ss : List Statement) (next : Nat) :
    exit.freeInAny (statements ss next).1 = exit.freeInAny ss := by
  match ss with
  | [] => rfl
  | s :: rest =>
    have hs := freeIn_statement exit s next
    have hrest := freeInAny_statements exit rest (statement s next).2
    rw [Exit.freeInAny, ← hs, ← hrest]
    rfl

end

end Site

namespace Action

/-- Whatever the machine, a result of the action has the property. -/
def Yields (P : α → Prop) (a : Action α) : Prop := ∀ m v m', a m = .ok v m' → P v

namespace Yields

variable {P : α → Prop} {Q : β → Prop}

theorem pure {a : α} (h : P a) : Yields P (Pure.pure a) := by
  intro m v m' hrun
  cases hrun
  exact h

theorem cut : Yields P (Action.cut : Action α) := by
  intro m v m' hrun
  cases hrun

theorem bind {a : Action α} {f : α → Action β} (ha : Yields P a)
    (hf : ∀ v, P v → Yields Q (f v)) : Yields Q (a >>= f) := by
  intro m w m'' hrun
  cases hresult : a m with
  | ok v m' =>
    rw [bind_ok hresult] at hrun
    exact hf v (ha m v m' hresult) m' w m'' hrun
  | error e m' =>
    rw [bind_error hresult] at hrun
    cases hrun

/-- What comes first does not matter. -/
theorem after {a : Action α} {f : α → Action β} (hf : ∀ v, Yields Q (f v)) :
    Yields Q (a >>= f) :=
  bind (P := fun _ => True) (fun _ _ _ _ => trivial) fun v _ => hf v

theorem mono {P' : α → Prop} {a : Action α} (h : Yields P a) (hP : ∀ v, P v → P' v) :
    Yields P' a :=
  fun m v m' hrun => hP v (h m v m' hrun)

theorem inScope {parent : ScopeId} {body : ScopeId → Action α}
    (h : ∀ scope, Yields P (body scope)) : Yields P (Action.inScope parent body) := by
  intro m v m' hrun
  unfold Action.inScope ensuring at hrun
  cases hresult : body m.env.size (m.pushScope parent) with
  | ok w m'' =>
    simp only [hresult] at hrun
    cases hrun
    exact h m.env.size _ v m'' hresult
  | error e m'' =>
    simp only [hresult] at hrun
    cases hrun

end Yields

end Action

namespace Evaluation

open KakaLang.Action (Yields)

/-- Control takes an exit only if it is one of those that are free. -/
def Follows (free : Exit → Bool) (flow : Flow) : Prop :=
  ∀ exit, flow.exit? = some exit → free exit = true

theorem follows_normal (free : Exit → Bool) : Follows free .normal := by
  intro exit hexit
  cases hexit

theorem Follows.mono {free free' : Exit → Bool} {flow : Flow} (h : Follows free flow)
    (hfree : ∀ exit, free exit = true → free' exit = true) : Follows free' flow :=
  fun exit hexit => hfree exit (h exit hexit)

/-- Control follows the exits that are free, for some number of steps. -/
structure FollowsAt (settings : Settings) (steps : Nat) : Prop where
  exec : ∀ s scope, Yields (Follows (·.freeIn s)) (exec settings steps s scope)
  execBlock : ∀ block scope,
    Yields (Follows (·.freeInBlock block)) (execBlock settings steps block scope)
  execAll : ∀ ss scope, Yields (Follows (·.freeInAny ss)) (execAll settings steps ss scope)
  execLoop : ∀ condition body line scope,
    Yields (Follows fun exit => !exit.isForLoop && exit.freeInBlock body)
      (execLoop settings steps condition body line scope)

namespace FollowsAt

variable {settings : Settings} {steps : Nat}

theorem exec_succ (h : FollowsAt settings steps) (s : Statement) (scope : ScopeId) :
    Yields (Follows (·.freeIn s)) (Evaluation.exec settings (steps + 1) s scope) := by
  unfold Evaluation.exec
  cases s with
  | declare name value line =>
    exact .after fun _ => .after fun _ => .pure (follows_normal _)
  | print value line =>
    exact .after fun _ => .after fun _ => .after fun _ => .after fun _ => .pure (follows_normal _)
  | branch condition yes no line =>
    refine .after fun v => ?_
    cases no with
    | none =>
      split
      · exact h.execBlock yes scope
      · exact .pure (follows_normal _)
    | some no =>
      split
      · refine (h.execBlock yes scope).mono fun flow hflow => ?_
        exact hflow.mono fun exit hexit => by simp [Exit.freeIn, hexit]
      · refine (h.execBlock no scope).mono fun flow hflow => ?_
        exact hflow.mono fun exit hexit => by simp [Exit.freeIn, hexit]
  | loop condition body line => exact h.execLoop condition body line scope
  | block body => exact h.execBlock body scope
  | expression value line => exact .after fun _ => .pure (follows_normal _)
  | leave line =>
    apply Yields.pure
    rintro exit ⟨⟩
    rfl
  | next line =>
    apply Yields.pure
    rintro exit ⟨⟩
    rfl
  | function site name params body line =>
    exact .after fun _ => .after fun _ => .pure (follows_normal _)
  | give value line =>
    have hgive : ∀ v, Follows (·.freeIn (.give value line)) (.give v) := by
      rintro v exit ⟨⟩
      rfl
    cases value with
    | none => exact .pure (hgive _)
    | some value => exact .after fun v => .pure (hgive v)

theorem execBlock_succ (h : FollowsAt settings steps) (block : Block) (scope : ScopeId) :
    Yields (Follows (·.freeInBlock block))
      (Evaluation.execBlock settings (steps + 1) block scope) := by
  rw [Evaluation.execBlock]
  apply Yields.inScope
  intro inner
  simp only [Exit.freeInBlock_eq]
  exact h.execAll block.statements inner

theorem execAll_succ (h : FollowsAt settings steps) (ss : List Statement) (scope : ScopeId) :
    Yields (Follows (·.freeInAny ss)) (Evaluation.execAll settings (steps + 1) ss scope) := by
  cases ss with
  | nil =>
    rw [Evaluation.execAll]
    exact .pure (follows_normal _)
  | cons s rest =>
    rw [Evaluation.execAll]
    refine (h.exec s scope).bind fun flow hflow => ?_
    have hfirst : Follows (·.freeInAny (s :: rest)) flow :=
      hflow.mono fun exit hexit => by simp [Exit.freeInAny, hexit]
    cases flow with
    | normal =>
      refine (h.execAll rest scope).mono fun flow hflow => ?_
      exact hflow.mono fun exit hexit => by simp [Exit.freeInAny, hexit]
    | _ => exact .pure hfirst

/-- A round that ends with an exit for loops ends the loop normally or is followed by the next
one. -/
theorem execLoop_succ (h : FollowsAt settings steps) (condition : Expr) (body : Block)
    (line : Nat) (scope : ScopeId) :
    Yields (Follows fun exit => !exit.isForLoop && exit.freeInBlock body)
      (Evaluation.execLoop settings (steps + 1) condition body line scope) := by
  rw [Evaluation.execLoop]
  refine .after fun v => ?_
  split
  · refine .after fun _ => (h.execBlock body scope).bind fun flow hflow => ?_
    -- The exits for loops end here; what is left is the one that the loop passes on.
    cases flow with
    | normal => exact h.execLoop condition body line scope
    | leave => exact .pure (follows_normal _)
    | next => exact h.execLoop condition body line scope
    | give value =>
      apply Yields.pure
      rintro exit ⟨⟩
      exact hflow .give rfl
  · exact .pure (follows_normal _)

end FollowsAt

theorem followsAt (settings : Settings) (steps : Nat) : FollowsAt settings steps := by
  induction steps with
  | zero =>
    constructor
    · intro s scope
      rw [exec]
      exact .cut
    · intro block scope
      rw [execBlock]
      exact .cut
    · intro ss scope
      rw [execAll]
      exact .cut
    · intro condition body line scope
      rw [execLoop]
      exact .cut
  | succ steps h => exact ⟨h.exec_succ, h.execBlock_succ, h.execAll_succ, h.execLoop_succ⟩

/-- The statements have been run one after the other in the global scope, and each has ended
normally. -/
inductive Completes (settings : Settings) (steps : Nat) :
    List Statement → Machine → Machine → Prop where
  | nil (m : Machine) : Completes settings steps [] m m
  | cons {s : Statement} {rest : List Statement} {m m' m'' : Machine}
      (hs : exec settings steps s globalScope m = .ok .normal m')
      (hrest : Completes settings steps rest m' m'') : Completes settings steps (s :: rest) m m''

theorem completes_of_topLevel {settings : Settings} {steps : Nat} {ss : List Statement}
    {m m' : Machine} (hfree : ∀ exit : Exit, exit.freeInAny ss = false)
    (h : topLevel settings steps ss m = .ok () m') : Completes settings steps ss m m' := by
  induction ss generalizing m with
  | nil =>
    cases h
    exact .nil _
  | cons s rest ih =>
    have hfirst : ∀ exit : Exit, exit.freeIn s = false ∧ exit.freeInAny rest = false := by
      intro exit
      have hexit := hfree exit
      rw [Exit.freeInAny, Bool.or_eq_false_iff] at hexit
      exact hexit
    rw [topLevel] at h
    cases hs : exec settings steps s globalScope m with
    | error e m₁ =>
      rw [Action.bind_error hs] at h
      cases h
    | ok flow m₁ =>
      rw [Action.bind_ok hs] at h
      have hflow := (followsAt settings steps).exec s globalScope m flow m₁ hs
      -- A flow with an exit would be free in the statement, so the program was not stopped here.
      cases hexit : flow.exit? with
      | some exit =>
        have htaken : exit.freeIn s = true := hflow exit hexit
        rw [(hfirst exit).1] at htaken
        cases htaken
      | none =>
        cases flow with
        | normal => exact .cons hs (ih (fun exit => (hfirst exit).2) h)
        | _ => cases hexit

/-- The machine in which the first statement of a program starts. -/
def started (p : Program) (m : Machine) : Machine :=
  { Machine.note { m with looks := 0 } (.interpreting p.length) with
    nextSite := (Site.statements p m.nextSite).2 }

theorem interpret_eq (settings : Settings) (steps : Nat) (p : Program) (m : Machine) :
    interpret settings steps p m =
      topLevel settings steps (Site.statements p m.nextSite).1 (started p m) := rfl

/-- Control leaves a statement by an exit only if that exit is free in it, whatever the machine and
the functions in it. A loop is never left by an exit for loops. And a program without free exits
ends without a fault only after each of its statements has been run to its end, in order. -/
theorem control_follows_exits (settings : Settings) (steps : Nat) :
    (∀ s scope m flow m', exec settings steps s scope m = .ok flow m' →
      (flow = .leave → Exit.leave.freeIn s = true) ∧
      (flow = .next → Exit.next.freeIn s = true) ∧
      (∀ v, flow = .give v → Exit.give.freeIn s = true)) ∧
    (∀ condition body line scope m flow m',
      exec settings steps (.loop condition body line) scope m = .ok flow m' →
      flow ≠ .leave ∧ flow ≠ .next) ∧
    ∀ p : Program, (∀ exit : Exit, exit.freeInAny p = false) →
      ∀ m m', interpret settings steps p m = .ok () m' →
        Completes settings steps (Site.statements p m.nextSite).1 (started p m) m' := by
  have hexec : ∀ s scope m flow m', exec settings steps s scope m = .ok flow m' →
      Follows (·.freeIn s) flow :=
    fun s scope => (followsAt settings steps).exec s scope
  refine ⟨?_, ?_, ?_⟩
  · intro s scope m flow m' hrun
    have hflow := hexec s scope m flow m' hrun
    refine ⟨?_, ?_, ?_⟩
    · rintro rfl
      exact hflow .leave rfl
    · rintro rfl
      exact hflow .next rfl
    · rintro v rfl
      exact hflow .give rfl
  · intro condition body line scope m flow m' hrun
    have hflow := hexec _ scope m flow m' hrun
    refine ⟨?_, ?_⟩
    · rintro rfl
      cases hflow .leave rfl
    · rintro rfl
      cases hflow .next rfl
  · intro p hfree m m' hrun
    rw [interpret_eq] at hrun
    apply completes_of_topLevel _ hrun
    intro exit
    rw [Site.freeInAny_statements]
    exact hfree exit

/-- The result that an action has ended with, if it has. -/
def result? : EStateM.Result Halt Machine α → Option α
  | .ok a _ => some a
  | .error _ _ => none

theorem eq_ok_of_result? {result : EStateM.Result Halt Machine α} {a : α}
    (h : result? result = some a) : result = .ok a (Action.final result) := by
  cases result with
  | ok b m =>
    cases h
    rfl
  | error e m => cases h

/-- The body of a function is an exit, and a loop calls the function before it comes to an exit of
its own. Neither keeps the program from its last statement. -/
theorem control_follows_exits_called :
    let f : Statement := .function 0 "f" [] (.mk [.leave 2] 1) 1
    let body : Block := .mk [.expression (.call (.ident "f" 5) [] 5) 5,
      .print (.literal (.string "a") 6) 6, .leave 7] 4
    let p : Program := [f, .loop (.literal (.bool true) 4) body 4,
      .print (.literal (.string "b") 9) 9]
    ∃ m, interpret {} 9 p {} = .ok () m ∧ m.console.lines = ["a", "b"] ∧
      Completes {} 9 (Site.statements p 0).1 (started p {}) m := by
  intro f body p
  have hrun : interpret {} 9 p {} = .ok () _ := eq_ok_of_result? (by decide +kernel)
  have hfree : ∀ exit : Exit, exit.freeInAny p = false := by
    intro exit
    cases exit <;> decide
  exact ⟨_, hrun, by decide +kernel, (control_follows_exits {} 9).2.2 p hfree {} _ hrun⟩

end Evaluation

end KakaLang
