import KakaLang.Proofs.CutShort

/-!
Runs that end. A run is given a number of steps, and one that is not cut off ends in the same way
with any larger number: the run with fewer steps is cut short by the one with more, and being cut
off is the only stop. So a run has at most one end, and two runs that end do so with a common number
of steps.
-/

namespace KakaLang

open KakaLang.Action (final)
open Machine (Grows)

namespace Evaluation

/-- The result of an action that was not cut off. -/
def ended : Except RuntimeError α → Machine → EStateM.Result Halt Machine α
  | .ok a, m => .ok a m
  | .error e, m => .error (.fault e) m

/-- Given enough steps, the run from one machine ends with the result in the other. -/
def Ends (run : Nat → Action α) (m : Machine) (result : Except RuntimeError α) (m' : Machine) :
    Prop :=
  ∃ steps, run steps m = ended result m'

/-- More steps make no difference unless the run is cut off. -/
def Steady (run : Nat → Action α) : Prop :=
  ∀ lag n m, (∃ m', run n m = .error .cut m') ∨ run (lag + n) m = run n m

theorem final_ended (result : Except RuntimeError α) (m : Machine) :
    final (ended result m) = m := by
  cases result <;> rfl

theorem ended_ne_cut (result : Except RuntimeError α) (m m' : Machine) :
    ended result m ≠ .error .cut m' := by
  cases result with
  | ok a => intro h; cases h
  | error e => intro h; cases h

theorem ended_injective {result result' : Except RuntimeError α} {m m' : Machine}
    (h : ended result m = ended result' m') : result = result' ∧ m = m' := by
  cases result with
  | ok a =>
    cases result' with
    | ok a' => cases h; exact ⟨rfl, rfl⟩
    | error e' => cases h
  | error e =>
    cases result' with
    | ok a' => cases h
    | error e' => cases h; exact ⟨rfl, rfl⟩

/-- The fault that an action has ended with, if it has. -/
def fault? : EStateM.Result Halt Machine α → Option RuntimeError
  | .error (.fault e) _ => some e
  | _ => none

theorem ends_of_fault? {run : Nat → Action α} {steps : Nat} {m : Machine} {e : RuntimeError}
    (h : fault? (run steps m) = some e) : Ends run m (.error e) (final (run steps m)) := by
  refine ⟨steps, ?_⟩
  cases hrun : run steps m with
  | ok a m' =>
    rw [hrun] at h
    cases h
  | error halt m' =>
    rw [hrun] at h
    cases halt with
    | fault e' =>
      cases h
      rfl
    | cut => cases h

theorem Steady.of_ended {run : Nat → Action α} (hrun : Steady run) {n : Nat} {m m' : Machine}
    {result : Except RuntimeError α} (h : run n m = ended result m') (lag : Nat) :
    run (lag + n) m = ended result m' := by
  rcases hrun lag n m with ⟨m'', hcut⟩ | hsame
  · exact absurd (h.symm.trans hcut) (ended_ne_cut result m' m'')
  · rw [hsame, h]

/-- Two runs that end do so with a common number of steps. -/
theorem Ends.common {run : Nat → Action α} {run' : Nat → Action β} (hrun : Steady run)
    (hrun' : Steady run') {m₁ m₂ m₁' m₂' : Machine} {result : Except RuntimeError α}
    {result' : Except RuntimeError β} (h : Ends run m₁ result m₁')
    (h' : Ends run' m₂ result' m₂') :
    ∃ n, run n m₁ = ended result m₁' ∧ run' n m₂ = ended result' m₂' := by
  obtain ⟨n, hn⟩ := h
  obtain ⟨k, hk⟩ := h'
  refine ⟨k + n, hrun.of_ended hn k, ?_⟩
  rw [Nat.add_comm]
  exact hrun'.of_ended hk n

theorem Ends.unique {run : Nat → Action α} (hrun : Steady run) {m m₁ m₂ : Machine}
    {result result' : Except RuntimeError α} (h : Ends run m result m₁)
    (h' : Ends run m result' m₂) : result = result' ∧ m₁ = m₂ := by
  obtain ⟨n, hn, hn'⟩ := h.common hrun hrun h'
  exact ended_injective (hn.symm.trans hn')

/-- The only stop is being cut off. -/
def cutOff : Stop := fun halt _ _ _ => halt = .cut

theorem tighter_cutOff (settings : Settings) : Tighter settings settings cutOff where
  lasting := ⟨fun h _ _ => h, fun h _ _ => h⟩
  checkTime line := .lift ((Machine.grows_routine settings).checkTime settings line)
  enterCall f arguments line :=
    .lift ((Machine.grows_routine settings).enterCall settings f arguments line)
  print line h := Tighter.print_of ⟨fun h _ _ => h, fun h _ _ => h⟩ line
    (.lift ((Machine.grows_routine settings).checkTime settings line)) rfl h

/-- What has no steps is cut off, whatever it is compared with. -/
theorem cutShort_cut {settings : Settings} {y : Watched α}
    (h : ∀ m, Grows settings m (final (y m).1)) : CutShort settings cutOff Action.cut y :=
  ⟨h, fun m => .inr ⟨.cut, m, rfl, rfl⟩⟩

/-- A run is cut off or has the end of the run with more steps. -/
theorem simulatedAt_lag (settings : Settings) (lag n : Nat) :
    SimulatedAt settings settings (fun (_ : Unit) s t => s = t)
      (fun _ => CutShort settings cutOff) n (lag + n) := by
  have hlag := (tighter_cutOff settings).simulatedAt lag
  apply (tighter_cutOff settings).simulation.simulatedAt
  constructor
  · rintro _ s _ e rfl
    rw [eval]
    exact cutShort_cut (hlag.eval (w := ()) e rfl).grows
  · rintro _ s _ found es rfl
    rw [evalAll]
    exact cutShort_cut (hlag.evalAll (w := ()) found es rfl).grows
  · intro _ f arguments line scope
    rw [call]
    exact cutShort_cut (hlag.call () f arguments line scope).grows
  · rintro _ s _ statement rfl
    rw [exec]
    exact cutShort_cut (hlag.exec (w := ()) statement rfl).grows
  · rintro _ s _ block rfl
    rw [execBlock]
    exact cutShort_cut (hlag.execBlock (w := ()) block rfl).grows
  · rintro _ s _ ss rfl
    rw [execAll]
    exact cutShort_cut (hlag.execAll (w := ()) ss rfl).grows
  · rintro _ s _ condition body line rfl
    rw [execLoop]
    exact cutShort_cut (hlag.execLoop (w := ()) condition body line rfl).grows

theorem steady_interpret (settings : Settings) (p : Program) :
    Steady fun steps => interpret settings steps p := by
  intro lag n m
  have hrun := (tighter_cutOff settings).interpret_of (simulatedAt_lag settings lag n) p
  rcases hrun.ends m with hsame | ⟨halt, m', hcut, rfl⟩
  · exact .inr ((Watched.erases_interpret settings (lag + n) p m).symm.trans hsame.symm)
  · exact .inl ⟨m', hcut⟩

theorem steady_call (settings : Settings) (f : Function) (arguments : Array Value) (line : Nat) :
    Steady fun steps => call settings steps f arguments line := by
  intro lag n m
  have hrun := (simulatedAt_lag settings lag n).call () f arguments line globalScope
  rcases hrun.ends m with hsame | ⟨halt, m', hcut, rfl⟩
  · have herases := (Watched.erasesAt settings (lag + n)).call f arguments line globalScope m
    exact .inr (herases.symm.trans hsame.symm)
  · exact .inl ⟨m', hcut⟩

/-- Running a program takes nothing back and counts its lines, however it ends. -/
theorem grows_interpret (settings : Settings) (n : Nat) (p : Program) (m : Machine) :
    Grows settings m (final (interpret settings n p m)) := by
  rw [← Watched.erases_interpret settings n p m]
  exact ((tighter_cutOff settings).interpret n p).grows m

end Evaluation

/-- A machine that has not run anything, with the given lines of input. -/
def Machine.fresh (input : List String) : Machine := { console := .ofLines input }

end KakaLang
