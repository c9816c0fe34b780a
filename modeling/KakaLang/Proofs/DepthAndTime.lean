import KakaLang.Proofs.Ending

/-!
The limits for the depth of calls and for time. They are looked at before an iteration, a call and a
line of output, and reaching one of them stops the run. A run under a smaller depth and with a clock
therefore is the run under a larger depth without one, or it stops on the way and has shown the
beginning of what the other run shows.
-/

namespace KakaLang

open KakaLang.Action (final)
open Machine (Grows)

/-- Faults that say that calls went too deep or that time was up. -/
def RuntimeError.isDepthOrTime : RuntimeError → Bool
  | .callDepth _ _ | .timeLimit _ _ => true
  | _ => false

/-- A stop at one of the two limits: what was shown is the beginning of what the other run
shows. -/
def broken : Stop := fun halt m m₁ _ =>
  (∃ e : RuntimeError, halt = .fault e ∧ e.isDepthOrTime = true) ∧
    m.console.transcript.toList <+: m₁.console.transcript.toList

theorem broken_lasting (settings : Settings) : broken.Lasting settings := by
  constructor
  · rintro halt m m₁ m₂ visits visits' ⟨hfault, hshown⟩ hgrows -
    exact ⟨hfault, hshown.trans hgrows.shown⟩
  · rintro halt m m' m₁ visits ⟨hfault, hshown⟩ hconsole -
    refine ⟨hfault, ?_⟩
    rw [hconsole]
    exact hshown

section

variable {left right : Settings}

theorem cutShort_checkTime (htime : right.limits.time = none) (line : Nat) :
    CutShort right broken (Action.checkTime left line) (liftM (Action.checkTime right line)) := by
  refine ⟨(Machine.grows_routine right).checkTime right line, fun m => ?_⟩
  have hright : Action.checkTime right line m = .ok () { m with looks := m.looks + 1 } := by
    rw [Action.checkTime_of_none htime]
    rfl
  change Action.checkTime left line m = Action.checkTime right line m ∨ ∃ halt m', _ ∧
    broken halt m' (final (Action.checkTime right line m)) []
  rw [hright]
  rcases Action.checkTime_cases left line m with hok | ⟨millis, hlate⟩
  · exact .inl hok
  · exact .inr ⟨_, _, hlate, ⟨_, rfl, rfl⟩, List.prefix_rfl⟩

/-- A call refused at the smaller depth may be entered on the right; one that is entered on the left
is entered on the right too. -/
theorem cutShort_enterCall (htime : right.limits.time = none)
    (hdepth : left.limits.callDepth ≤ right.limits.callDepth) (f : Function)
    (arguments : Array Value) (line : Nat) :
    CutShort right broken (Evaluation.enterCall left f arguments line)
      (liftM (Evaluation.enterCall right f arguments line)) := by
  have hgrows := (Machine.grows_routine right).enterCall right f arguments line
  refine ⟨hgrows, fun m => ?_⟩
  change Evaluation.enterCall left f arguments line m =
    Evaluation.enterCall right f arguments line m ∨ ∃ halt m', _ ∧
      broken halt m' (final (Evaluation.enterCall right f arguments line m)) []
  by_cases hdeep : left.limits.callDepth ≤ m.callDepth
  · right
    rw [Evaluation.enterCall_eq left, if_pos hdeep]
    exact ⟨_, _, rfl, ⟨_, rfl, rfl⟩, (hgrows m).shown⟩
  · have hdeep' : ¬ right.limits.callDepth ≤ m.callDepth := by omega
    have hlook : Action.checkTime right line m = .ok () { m with looks := m.looks + 1 } := by
      rw [Action.checkTime_of_none htime]
      rfl
    have hright := Evaluation.enterCall_eq right f arguments line m
    have hleft := Evaluation.enterCall_eq left f arguments line m
    rw [if_neg hdeep', Action.bind_ok hlook] at hright
    rw [if_neg hdeep] at hleft
    rcases Action.checkTime_cases left line m with hok | ⟨millis, hlate⟩
    · rw [Action.bind_ok hok] at hleft
      exact .inl (hleft.trans hright.symm)
    · rw [Action.bind_error hlate] at hleft
      exact .inr ⟨_, _, hleft, ⟨_, rfl, rfl⟩, (hgrows m).shown⟩

/-- A smaller depth and a limit for time make no other difference. -/
theorem tighter_depthAndTime (htime : right.limits.time = none)
    (hdepth : left.limits.callDepth ≤ right.limits.callDepth)
    (houtput : left.limits.outputLines = right.limits.outputLines) :
    Tighter left right broken where
  lasting := broken_lasting right
  checkTime := cutShort_checkTime htime
  enterCall := cutShort_enterCall htime hdepth
  print line h :=
    Tighter.print_of (broken_lasting right) line (cutShort_checkTime htime line) houtput h

end

namespace Evaluation

/-- The run was stopped by the limit for the depth of calls or for time. -/
def BrokenOff (result : Except RuntimeError Unit) : Prop :=
  ∃ e : RuntimeError, result = .error e ∧ e.isDepthOrTime = true

/-- A run under a depth of calls and with any clock that is broken off has printed and asked the
beginning of what the run under a larger depth and without a limit for time does, if that one
ends. A run that is not broken off has the same end there. The clock is a number for each look at
it, so every look may find time left or not, whatever the looks before it found. -/
theorem depth_and_time_break_off (input : List String) (output time : Option Nat)
    (depth depth' : Nat) (hdepth : depth ≤ depth') (clock clock' : Nat → Nat) (p : Program) :
    let short : Settings := ⟨{ outputLines := output, time := time, callDepth := depth }, clock⟩
    let long : Settings := ⟨{ outputLines := output, callDepth := depth' }, clock'⟩
    let m₀ := Machine.fresh input
    ∀ result m, Ends (fun steps => interpret short steps p) m₀ result m →
      (BrokenOff result → ∀ result' m', Ends (fun steps => interpret long steps p) m₀ result' m' →
        m.console.lines <+: m'.console.lines ∧ m.console.prompts <+: m'.console.prompts) ∧
      (¬ BrokenOff result → Ends (fun steps => interpret long steps p) m₀ result m) := by
  intro short long m₀ result m hends
  have htighter : Tighter short long broken := tighter_depthAndTime rfl hdepth rfl
  refine ⟨fun _ result' m' hends' => ?_, fun hbroken => ?_⟩
  · obtain ⟨n, hshort, hlong⟩ :=
      hends.common (steady_interpret short p) (steady_interpret long p) hends'
    change interpret short n p m₀ = _ at hshort
    change interpret long n p m₀ = _ at hlong
    have hrun := (htighter.interpret n p).ends m₀
    rw [Watched.erases_interpret long n p m₀, hshort, hlong] at hrun
    have hshown : m.console.transcript.toList <+: m'.console.transcript.toList := by
      rcases hrun with hsame | ⟨halt, m'', hhalt, -, hshown⟩
      · exact (ended_injective hsame).2 ▸ List.prefix_rfl
      · have hm : m = m'' := by
          rw [← final_ended result m, hhalt]
          rfl
        rw [final_ended] at hshown
        rw [hm]
        exact hshown
    exact ⟨Console.lines_isPrefix hshown, Console.prompts_isPrefix hshown⟩
  · obtain ⟨n, hshort⟩ := hends
    change interpret short n p m₀ = _ at hshort
    have hrun := (htighter.interpret n p).ends m₀
    rw [Watched.erases_interpret long n p m₀, hshort] at hrun
    rcases hrun with hsame | ⟨halt, m', hhalt, ⟨e, rfl, he⟩, -⟩
    · exact ⟨n, hsame.symm⟩
    · have hresult : result = .error e := (ended_injective (hhalt : _ = ended (.error e) m')).1
      exact absurd ⟨e, hresult, he⟩ hbroken

/-- A recursion without end, one call deep and two calls deep. -/
theorem depth_and_time_break_off_recursion :
    let body : Block := .mk [.print (.literal (.string "a") 2) 2,
      .expression (.call (.ident "f" 3) [] 3) 3] 1
    let p : Program := [.function 0 "f" [] body 1, .expression (.call (.ident "f" 5) [] 5) 5]
    let short : Settings := ⟨{ callDepth := 1 }, fun _ => 0⟩
    let long : Settings := ⟨{ callDepth := 2 }, fun _ => 0⟩
    let m := final (interpret short 9 p (.fresh []))
    let m' := final (interpret long 19 p (.fresh []))
    Ends (fun steps => interpret short steps p) (.fresh []) (.error (.callDepth 1 3)) m ∧
      Ends (fun steps => interpret long steps p) (.fresh []) (.error (.callDepth 2 3)) m' ∧
      m.console.lines = ["a"] ∧ m.console.lines <+: m'.console.lines := by
  intro body p short long m m'
  have hshort : Ends (fun steps => interpret short steps p) (.fresh [])
      (.error (.callDepth 1 3)) m := ends_of_fault? (by decide +kernel)
  have hlong : Ends (fun steps => interpret long steps p) (.fresh [])
      (.error (.callDepth 2 3)) m' := ends_of_fault? (by decide +kernel)
  have hprefix := ((depth_and_time_break_off [] none none 1 2 (by decide) (fun _ => 0)
    (fun _ => 0) p _ m hshort).1 ⟨_, rfl, rfl⟩ _ m' hlong).1
  exact ⟨hshort, hlong, by decide +kernel, hprefix⟩

end Evaluation

end KakaLang
