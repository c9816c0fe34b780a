import KakaLang.Proofs.Ending

/-!
The limit for output. A run with the limit is a run without it up to the print statement that has
one line too many: either the limit is never reached and nothing is different, or the run stops
there and what was shown is the beginning of what the other run shows. Runs on one machine share the
count of lines, so together they print no more than the limit.
-/

namespace KakaLang

open KakaLang.Action (final)
open Machine (Grows)

/-- The visit is of a print statement on the line, and it ends after printing the line of output
with the number. -/
def Visit.Prints (settings : Settings) (v : Visit) (number line : Nat) : Prop :=
  ∃ value m, v.rule = .exec (.print value line) ∧
    Evaluation.exec settings v.steps (.print value line) v.scope v.before = .ok .normal m ∧
    m.printed = number

namespace Evaluation

variable {settings : Settings} {n line : Nat} {value : Expr} {scope : ScopeId} {m m' : Machine}

theorem exec_print_of_error {halt : Halt} (h : eval settings n value scope m = .error halt m') :
    exec settings (n + 1) (.print value line) scope m = .error halt m' := by
  rw [exec]
  exact Action.bind_error h

/-- The machine after a print statement whose value was found in the given machine. -/
def afterPrint (v : Value) (m : Machine) : Machine :=
  { m with
    looks := m.looks + 1
    console := m.console.put (.line (v.text m.heap))
    printed := m.printed + 1 }

/-- Once the value is there and no time is up, a line is printed or refused. -/
theorem exec_print_of_ok (htime : settings.limits.time = none) (line : Nat) {v : Value}
    (h : eval settings n value scope m = .ok v m') :
    exec settings (n + 1) (.print value line) scope m =
      match settings.limits.outputLines.filter (· ≤ m'.printed) with
      | some limit => .error (.fault (.outputLimit limit line)) { m' with looks := m'.looks + 1 }
      | none => .ok .normal (afterPrint v m') := by
  have hlook : Action.checkTime settings line m' = .ok () { m' with looks := m'.looks + 1 } := by
    rw [Action.checkTime_of_none htime]
    rfl
  have hprint := Action.print_eq settings (v.text m'.heap) line { m' with looks := m'.looks + 1 }
  rw [exec, Action.bind_ok h, Action.bind_ok hlook, Action.get_bind]
  cases hlimit : settings.limits.outputLines.filter (· ≤ m'.printed) with
  | some limit =>
    rw [hlimit] at hprint
    exact Action.bind_error hprint
  | none =>
    rw [hlimit] at hprint
    exact Action.bind_ok hprint

end Evaluation

/-- A stop at the limit for output: the other run has gone on to print the next line, and a print
statement on the line named by the fault did it. -/
def overflow (settings : Settings) (limit : Nat) : Stop := fun halt m m₁ visits =>
  ∃ line, halt = .fault (.outputLimit limit line) ∧ limit ≤ m.printed ∧ m.printed < m₁.printed ∧
    m.console.transcript.toList <+: m₁.console.transcript.toList ∧
    ∃ v ∈ visits, v.Prints settings (m.printed + 1) line

theorem overflow_lasting (settings : Settings) (limit : Nat) :
    (overflow settings limit).Lasting settings := by
  constructor
  · rintro halt m m₁ m₂ visits visits' ⟨line, rfl, hlimit, hlt, hshown, v, hv, hprints⟩ hgrows hsub
    refine ⟨line, rfl, hlimit, ?_, hshown.trans hgrows.shown, v, hsub hv, hprints⟩
    exact Nat.lt_of_lt_of_le hlt hgrows.printed_le
  · rintro halt m m' m₁ visits ⟨line, rfl, hlimit, hlt, hshown, hvisit⟩ hconsole hprinted
    refine ⟨line, rfl, ?_, ?_, ?_, ?_⟩
    · rw [hprinted]
      exact hlimit
    · rw [hprinted]
      exact hlt
    · rw [hconsole]
      exact hshown
    · rw [hprinted]
      exact hvisit

section

variable {left right : Settings} {limit : Nat}

/-- Where the print statement has one line too many, the visit of it on the right is the one that
prints that line. -/
theorem cutShort_print (htime : left.limits.time = none) (htime' : right.limits.time = none)
    (hlimit : left.limits.outputLines = some limit) (hnone : right.limits.outputLines = none)
    {n k : Nat} {value : Expr} {scope : ScopeId} (line : Nat)
    (h : CutShort right (overflow right limit) (Evaluation.eval left n value scope)
      (Watched.eval right k value scope)) :
    CutShort right (overflow right limit)
      (Evaluation.exec left (n + 1) (.print value line) scope)
      (Watched.exec right (k + 1) (.print value line) scope) := by
  have hstop := overflow_lasting right limit
  have hlook : CutShort right (overflow right limit) (Action.checkTime right line)
      (liftM (Action.checkTime right line)) :=
    .lift ((Machine.grows_routine right).checkTime right line)
  have hrest := Tighter.printValue hstop line hlook rfl
  have herases := Watched.erasesAt right
  have hgrows := ((Evaluation.tighter_cutOff right).simulatedAt (k + 1)).exec (w := ())
    (.print value line) (Eq.refl scope)
  refine ⟨hgrows.grows, fun m => ?_⟩
  rcases h.ends m with hsame | ⟨halt, m', hhalt, hoverflow⟩
  · rw [(herases k).eval value scope m] at hsame
    cases hvalue : Evaluation.eval right k value scope m with
    | error halt m' =>
      rw [hvalue] at hsame
      left
      rw [(herases (k + 1)).exec (.print value line) scope m,
        Evaluation.exec_print_of_error hsame, Evaluation.exec_print_of_error hvalue]
    | ok v m' =>
      rw [hvalue] at hsame
      have hleft := Evaluation.exec_print_of_ok htime line hsame
      have hright := Evaluation.exec_print_of_ok htime' line hvalue
      rw [hlimit] at hleft
      rw [hnone] at hright
      by_cases hfull : limit ≤ m'.printed
      · have hfilter : (some limit).filter (· ≤ m'.printed) = some limit := by
          rw [Option.filter_some, if_pos (decide_eq_true hfull)]
        rw [hfilter] at hleft
        right
        refine ⟨_, _, hleft, line, rfl, hfull, ?_, ?_, ?_⟩
        · rw [(herases (k + 1)).exec (.print value line) scope m, hright]
          exact Nat.lt_succ_self _
        · rw [(herases (k + 1)).exec (.print value line) scope m, hright]
          exact m'.console.transcript_put _
        · refine ⟨⟨.exec (.print value line), k + 1, scope, m⟩, ?_, value, _, rfl, hright, rfl⟩
          rw [Watched.exec]
          exact List.mem_cons_self
      · have hfilter : (some limit).filter (· ≤ m'.printed) = none := by
          rw [Option.filter_some, if_neg (by simpa using hfull)]
        rw [hfilter] at hleft
        left
        rw [(herases (k + 1)).exec (.print value line) scope m, hleft, hright]
        rfl
  · refine .inr ⟨halt, m', Evaluation.exec_print_of_error hhalt, ?_⟩
    rw [Watched.exec]
    apply hstop.later (hstop.bind (fun v => (hrest v).grows) hoverflow) (.refl _)
    exact List.subset_cons_self _ _

/-- Without a limit for time, a limit for output makes no other difference. -/
theorem tighter_output (htime : left.limits.time = none) (htime' : right.limits.time = none)
    (hdepth : left.limits.callDepth = right.limits.callDepth)
    (hlimit : left.limits.outputLines = some limit) (hnone : right.limits.outputLines = none) :
    Tighter left right (overflow right limit) := by
  have hlook : ∀ line, Action.checkTime left line = Action.checkTime right line := by
    intro line
    rw [Action.checkTime_of_none htime, Action.checkTime_of_none htime']
  refine ⟨overflow_lasting right limit, fun line => ?_, fun f arguments line => ?_, ?_⟩
  · rw [hlook]
    exact .lift ((Machine.grows_routine right).checkTime right line)
  · have hsame : Evaluation.enterCall left f arguments line =
        Evaluation.enterCall right f arguments line := by
      unfold Evaluation.enterCall
      rw [hlook, hdepth]
    rw [hsame]
    exact .lift ((Machine.grows_routine right).enterCall right f arguments line)
  · intro n k value scope line h
    exact cutShort_print htime htime' hlimit hnone line h

end

namespace Evaluation

/-- In the run of the program from the machine, a print statement on the line prints the line of
output with the number. -/
def PrintedBy (settings : Settings) (p : Program) (m : Machine) (number line : Nat) : Prop :=
  ∃ steps, ∃ v ∈ (Watched.interpret settings steps p m).2, v.Prints settings number line

/-- The machines that some runs, one after the other and under the same limits, lead to. Each run
has a clock of its own. -/
inductive Reached (limits : Limits) (m : Machine) : Machine → Prop
  | start : Reached limits m m
  | interpret {m' : Machine} (h : Reached limits m m') (clock : Nat → Nat) (steps : Nat)
      (p : Program) :
      Reached limits m (final (Evaluation.interpret ⟨limits, clock⟩ steps p m'))

theorem Reached.grows {limits : Limits} {m m' : Machine} (h : Reached limits m m')
    (clock : Nat → Nat) : Grows ⟨limits, clock⟩ m m' := by
  induction h with
  | start => exact .refl m
  | @interpret m' h clock' steps p ih =>
    have hrun := grows_interpret ⟨limits, clock'⟩ steps p m'
    exact ih.trans ⟨hrun.shown, hrun.counted, hrun.bounded⟩

/-- What was printed since the start is counted and, if it is limited, within the limit. -/
theorem counted_of_grows {settings : Settings} {input : List String} {m : Machine}
    (h : Grows settings (Machine.fresh input) m) :
    m.console.lines.length = m.printed ∧ ∀ n ∈ settings.limits.outputLines, m.printed ≤ n := by
  have hcounted : m.printed + 0 = 0 + m.console.lines.length := h.counted
  exact ⟨by omega, fun n hn => h.bounded n hn (Nat.zero_le n)⟩

/-- With a limit for output the run without it is the same, if it keeps within the limit. Otherwise
the run stops at the print statement that prints the first line beyond the limit, after printing
the lines before that one. All runs on one machine together keep within the limit. -/
theorem output_limit_truncates (input : List String) (depth limit : Nat) (p : Program)
    (clock clock' : Nat → Nat) :
    let free : Settings := ⟨{ callDepth := depth }, clock⟩
    let limited : Settings := ⟨{ outputLines := some limit, callDepth := depth }, clock'⟩
    let m₀ := Machine.fresh input
    (∀ result m, Ends (fun steps => interpret free steps p) m₀ result m →
      (m.console.lines.length ≤ limit →
        Ends (fun steps => interpret limited steps p) m₀ result m) ∧
      (limit < m.console.lines.length →
        ∃ line m', Ends (fun steps => interpret limited steps p) m₀
            (.error (.outputLimit limit line)) m' ∧
          m'.console.lines = m.console.lines.take limit ∧
          PrintedBy free p m₀ (limit + 1) line)) ∧
    ∀ limits : Limits, limits.outputLines = some limit → ∀ m, Reached limits m₀ m →
      m.console.lines.length = m.printed ∧ m.printed ≤ limit := by
  intro free limited m₀
  refine ⟨fun result m hends => ?_, fun limits hlimits m hreached => ?_⟩
  · obtain ⟨steps, hrun⟩ := hends
    change interpret free steps p m₀ = ended result m at hrun
    have hfree := counted_of_grows (grows_interpret free steps p m₀)
    have hlimited := counted_of_grows (grows_interpret limited steps p m₀)
    rw [hrun, final_ended] at hfree
    have htighter : Tighter limited free (overflow free limit) :=
      tighter_output rfl rfl rfl rfl rfl
    have hends := (htighter.interpret steps p).ends m₀
    rw [Watched.erases_interpret free steps p m₀, hrun] at hends
    rcases hends with hsame | ⟨halt, m', hhalt, line, rfl, hle, hlt, hshown, v, hv, hprints⟩
    · rw [hsame, final_ended] at hlimited
      have hwithin : m.printed ≤ limit := hlimited.2 limit rfl
      exact ⟨fun _ => ⟨steps, hsame⟩, fun hover => by omega⟩
    · rw [hhalt] at hlimited
      have hlines : m'.console.lines.length = m'.printed := hlimited.1
      have hwithin : m'.printed ≤ limit := hlimited.2 limit rfl
      rw [final_ended] at hlt hshown
      refine ⟨fun hover => by omega, fun _ => ⟨line, m', ⟨steps, hhalt⟩, ?_, steps, v, hv, ?_⟩⟩
      · have htake := List.prefix_iff_eq_take.mp (Console.lines_isPrefix hshown)
        rw [htake]
        congr 1
        omega
      · have hfull : m'.printed = limit := Nat.le_antisymm hwithin hle
        rw [← hfull]
        exact hprints
  · have hcounted := counted_of_grows (hreached.grows clock)
    exact ⟨hcounted.1, hcounted.2 limit hlimits⟩

/-- The line too many is printed by a statement whose expression prints the line before it. -/
theorem output_limit_truncates_nested :
    let body : Block := .mk [.print (.literal (.string "a") 2) 2,
      .give (some (.literal (.string "b") 3)) 3] 1
    let p : Program := [.function 0 "f" [] body 1, .print (.call (.ident "f" 5) [] 5) 5,
      .expression (.ident "z" 6) 6]
    let free : Settings := ⟨{ callDepth := 1 }, fun _ => 0⟩
    let limited : Settings := ⟨{ outputLines := some 1, callDepth := 1 }, fun _ => 0⟩
    let m := final (interpret free 9 p (.fresh []))
    m.console.lines = ["a", "b"] ∧
      ∃ line m', Ends (fun steps => interpret limited steps p) (.fresh [])
        (.error (.outputLimit 1 line)) m' ∧ m'.console.lines = ["a"] ∧
          PrintedBy free p (.fresh []) 2 line := by
  intro body p free limited m
  have hlines : m.console.lines = ["a", "b"] := by decide +kernel
  have hends : Ends (fun steps => interpret free steps p) (.fresh [])
      (.error (.undefinedVariable "z" 6)) m := ends_of_fault? (by decide +kernel)
  obtain ⟨line, m', hlimited, htake, hprinted⟩ :=
    ((output_limit_truncates [] 1 1 p (fun _ => 0) (fun _ => 0)).1 _ m hends).2
      (by rw [hlines]; decide)
  refine ⟨hlines, line, m', hlimited, ?_, hprinted⟩
  rw [htake, hlines]
  rfl

end Evaluation

end KakaLang
