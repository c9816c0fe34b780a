import KakaLang.Proofs.Simulation
import KakaLang.Proofs.Transcript

/-!
Runs that are cut short. Two runs start from the same machine. Either they end alike, or the first
one is stopped while the second goes on. What a stop is, and what it has to do with where the second
run goes from there, is left open here; it only has to stay true while the second run shows more and
uses more rules, and while the first one leaves its scopes.
-/

namespace KakaLang

open KakaLang.Action (Along final)
open Machine (Grows grows_routine)

/-- A stop of the first run: why it has no result, its machine, the machine of the second run and
the uses of rules in the second run. -/
abbrev Stop := Halt → Machine → Machine → List Visit → Prop

/-- A stop stays one while the second run goes on and the first leaves its scopes. -/
structure Stop.Lasting (settings : Settings) (stop : Stop) : Prop where
  later {halt : Halt} {m m₁ m₂ : Machine} {visits visits' : List Visit} :
    stop halt m m₁ visits → Grows settings m₁ m₂ → visits ⊆ visits' → stop halt m m₂ visits'
  left {halt : Halt} {m m' m₁ : Machine} {visits : List Visit} :
    stop halt m m₁ visits → m'.console = m.console → m'.printed = m.printed →
      stop halt m' m₁ visits

/-- Once the first run is stopped, whatever comes next in the second one is more of the same. -/
theorem Stop.Lasting.bind {settings : Settings} {stop : Stop} {y : Watched α}
    {g : α → Watched β} {halt : Halt} {m m' : Machine} (hstop : stop.Lasting settings)
    (hg : ∀ a m, Grows settings m (final (g a m).1))
    (h : stop halt m' (final (y m).1) (y m).2) :
    stop halt m' (final ((y >>= g) m).1) ((y >>= g) m).2 := by
  simp only [Bind.bind]
  rcases hy : y m with ⟨result, visits⟩
  rw [hy] at h
  cases result with
  | error e m₁ => exact h
  | ok a m₁ => exact hstop.later h (hg a m₁) (List.subset_append_left _ _)

/-- The first action ends as the second does, unless it is stopped. -/
structure CutShort (settings : Settings) (stop : Stop) (x : Action α) (y : Watched α) : Prop where
  grows : ∀ m, Grows settings m (final (y m).1)
  ends : ∀ m, x m = (y m).1 ∨
    ∃ halt m', x m = .error halt m' ∧ stop halt m' (final (y m).1) (y m).2

namespace CutShort

variable {settings : Settings} {stop : Stop}

theorem lift {a : Action α} (h : Along (Grows settings) a) : CutShort settings stop a (liftM a) :=
  ⟨h, fun _ => .inl rfl⟩

theorem pure (a : α) : CutShort settings stop (Pure.pure a) (Pure.pure a) :=
  lift ((grows_routine settings).pure a)

theorem visit {x : Action α} {y : Watched α} (hstop : stop.Lasting settings)
    (h : CutShort settings stop x y) (rule : Rule) (steps : Nat) (scope : ScopeId) :
    CutShort settings stop x (Watched.visit rule steps scope y) := by
  refine ⟨h.grows, fun m => ?_⟩
  rcases h.ends m with hsame | ⟨halt, m', hx, hstopped⟩
  · exact .inl hsame
  · refine .inr ⟨halt, m', hx, hstop.later hstopped (.refl _) ?_⟩
    exact List.subset_cons_self _ _

theorem bind {x : Action α} {y : Watched α} {f : α → Action β} {g : α → Watched β}
    (hstop : stop.Lasting settings) (hx : CutShort settings stop x y)
    (hf : ∀ a, CutShort settings stop (f a) (g a)) :
    CutShort settings stop (x >>= f) (y >>= g) := by
  refine ⟨fun m => ?_, fun m => ?_⟩
  · have hgrows := hx.grows m
    simp only [Bind.bind]
    rcases hy : y m with ⟨result, visits⟩
    rw [hy] at hgrows
    cases result with
    | ok a m' => exact hgrows.trans ((hf a).grows m')
    | error e m' => exact hgrows
  · rcases hx.ends m with hsame | ⟨halt, m', hhalt, hstopped⟩
    · simp only [Bind.bind, EStateM.bind, hsame]
      rcases hy : y m with ⟨result, visits⟩
      cases result with
      | error e m' => exact .inl rfl
      | ok a m' =>
        rcases (hf a).ends m' with hnext | ⟨halt, m'', hnext, hstopped⟩
        · exact .inl hnext
        · refine .inr ⟨halt, m'', hnext, hstop.later hstopped (.refl _) ?_⟩
          exact List.subset_append_right _ _
    · refine .inr ⟨halt, m', Action.bind_error hhalt, ?_⟩
      exact hstop.bind (fun a => (hf a).grows) hstopped

/-- A change at the start and another one at the end, neither of which shows anything. -/
theorem ensuring {x : Action α} {y : Watched α} (hstop : stop.Lasting settings)
    (h : CutShort settings stop x y) {first last : Machine → Machine}
    (hfirst : ∀ m, (first m).console = m.console ∧ (first m).printed = m.printed)
    (hlast : ∀ m, (last m).console = m.console ∧ (last m).printed = m.printed) :
    CutShort settings stop (fun m => Action.ensuring x last (first m))
      (fun m => Watched.ensuring y last (first m)) := by
  have hquiet : ∀ {change : Machine → Machine} (m : Machine),
      (change m).console = m.console ∧ (change m).printed = m.printed →
      Grows settings m (change m) := by
    intro change m hm
    exact .of_shown (congrArg _ hm.1) hm.2
  refine ⟨fun m => ?_, fun m => ?_⟩
  · have hgrows := (hquiet m (hfirst m)).trans (h.grows (first m))
    unfold Watched.ensuring Action.ensuring
    dsimp only
    cases hy : (y (first m)).1 with
    | ok a m' =>
      rw [hy] at hgrows
      exact hgrows.trans (hquiet m' (hlast m'))
    | error e m' =>
      rw [hy] at hgrows
      exact hgrows.trans (hquiet m' (hlast m'))
  · have hends := h.ends (first m)
    unfold Watched.ensuring Action.ensuring
    dsimp only
    rcases hends with hsame | ⟨halt, m', hsame, hstopped⟩
    · rw [hsame]
      exact .inl rfl
    · rw [hsame]
      refine .inr ⟨halt, last m', rfl, ?_⟩
      have hleft := hstop.left hstopped (hlast m').1 (hlast m').2
      cases hy : (y (first m)).1 with
      | ok a m₁ =>
        rw [hy] at hleft
        exact hstop.later hleft (hquiet m₁ (hlast m₁)) (List.Subset.refl _)
      | error e m₁ =>
        rw [hy] at hleft
        exact hstop.later hleft (hquiet m₁ (hlast m₁)) (List.Subset.refl _)

theorem inScope {x : ScopeId → Action α} {y : ScopeId → Watched α} (parent : ScopeId)
    (hstop : stop.Lasting settings) (h : ∀ scope, CutShort settings stop (x scope) (y scope)) :
    CutShort settings stop (Action.inScope parent x) (Watched.inScope parent y) := by
  have hpop : ∀ scope (m : Machine),
      (m.popScope scope).console = m.console ∧ (m.popScope scope).printed = m.printed := by
    intro scope m
    unfold Machine.popScope
    split <;> exact ⟨rfl, rfl⟩
  have hpush : ∀ m : Machine,
      (m.pushScope parent).console = m.console ∧ (m.pushScope parent).printed = m.printed :=
    fun _ => ⟨rfl, rfl⟩
  -- The new scope depends on the machine, so the lemma on changes is used at each one.
  exact ⟨fun m => ((h m.env.size).ensuring hstop hpush (hpop m.env.size)).grows m,
    fun m => ((h m.env.size).ensuring hstop hpush (hpop m.env.size)).ends m⟩

theorem deeper {x : Action α} {y : Watched α} (hstop : stop.Lasting settings)
    (h : CutShort settings stop x y) :
    CutShort settings stop (Action.deeper x) (Watched.deeper y) :=
  h.ensuring hstop (fun _ => ⟨rfl, rfl⟩) (fun _ => ⟨rfl, rfl⟩)

end CutShort

/-- Limits that differ only in when they stop a run. -/
structure Tighter (left right : Settings) (stop : Stop) : Prop where
  lasting : stop.Lasting right
  checkTime (line : Nat) :
    CutShort right stop (Action.checkTime left line) (liftM (Action.checkTime right line))
  enterCall (f : Function) (arguments : Array Value) (line : Nat) :
    CutShort right stop (Evaluation.enterCall left f arguments line)
      (liftM (Evaluation.enterCall right f arguments line))
  print {n k : Nat} {value : Expr} {scope : ScopeId} (line : Nat) :
    CutShort right stop (Evaluation.eval left n value scope)
      (Watched.eval right k value scope) →
    CutShort right stop (Evaluation.exec left (n + 1) (.print value line) scope)
      (Watched.exec right (k + 1) (.print value line) scope)

namespace Tighter

variable {left right : Settings} {stop : Stop}

/-- What a print statement does once its value is there. -/
theorem printValue (hstop : stop.Lasting right) (line : Nat)
    (htime : CutShort right stop (Action.checkTime left line)
      (liftM (Action.checkTime right line)))
    (hlimit : left.limits.outputLines = right.limits.outputLines) (v : Value) :
    CutShort right stop
      (do
        Action.checkTime left line
        Action.print left (v.text (← get).heap) line
        return Flow.normal)
      (do
        Action.checkTime right line
        Action.print right (v.text (← get).heap) line
        return Flow.normal) := by
  have hsame : ∀ text, Action.print left text line = Action.print right text line := by
    intro text
    unfold Action.print
    rw [hlimit]
  apply CutShort.bind hstop htime
  intro _
  apply CutShort.bind hstop (CutShort.lift (grows_routine right).get)
  intro m
  apply CutShort.bind hstop
  · rw [hsame]
    exact .lift (Action.along_print right _ line)
  · intro _
    exact .pure _

/-- With the same limit for output, a print statement is cut short where its expression or the
look at the clock is. -/
theorem print_of (hstop : stop.Lasting right) {n k : Nat} {value : Expr} {scope : ScopeId}
    (line : Nat)
    (htime : CutShort right stop (Action.checkTime left line)
      (liftM (Action.checkTime right line)))
    (hlimit : left.limits.outputLines = right.limits.outputLines)
    (h : CutShort right stop (Evaluation.eval left n value scope)
      (Watched.eval right k value scope)) :
    CutShort right stop (Evaluation.exec left (n + 1) (.print value line) scope)
      (Watched.exec right (k + 1) (.print value line) scope) := by
  rw [Evaluation.exec, Watched.exec]
  apply CutShort.visit hstop
  exact CutShort.bind hstop h (printValue hstop line htime hlimit)

/-- Being cut short is a simulation, in which both runs are in the same scope. -/
theorem simulation (T : Tighter left right stop) :
    Simulation left right (fun (_ : Unit) s t => s = t) (fun _ => CutShort right stop) where
  pure _ _ a := .pure a
  bind hx hf := .bind T.lasting hx hf
  visit rule steps scope h := h.visit T.lasting rule steps scope
  block := by
    rintro _ _ s _ x y rfl h
    exact .inScope s T.lasting fun scope => h () scope scope rfl
  body := by
    intro _ _ x y params arguments h
    apply CutShort.inScope globalScope T.lasting
    intro frame
    apply CutShort.bind T.lasting
    · exact .lift (.modifyGet fun _ => .of_shown rfl rfl)
    · intro _
      exact (h () frame frame rfl).deeper T.lasting
  print := by
    rintro _ s _ n k value line rfl h
    exact T.print line h
  function := by
    rintro _ s _ n k site name params body line rfl
    rw [Evaluation.exec, Watched.exec]
    apply CutShort.visit T.lasting
    apply CutShort.bind T.lasting (.lift ((grows_routine right).note _))
    intro _
    exact .lift ((grows_routine right).bind ((grows_routine right).define _ _ _) fun _ =>
      (grows_routine right).pure _)
  fault _ _ e := .lift ((grows_routine right).fault e)
  readHeap _ f := .lift ((grows_routine right).bind (grows_routine right).get fun _ =>
    (grows_routine right).pure _)
  note _ r := .lift ((grows_routine right).note r)
  alloc _ elements := .lift ((grows_routine right).alloc elements)
  define := by
    rintro _ s _ name value rfl
    exact .lift ((grows_routine right).define s name value)
  lookup := by
    rintro _ s _ name line rfl
    exact .lift ((grows_routine right).lookup s name line)
  assign := by
    rintro _ s _ name value line rfl
    exact .lift ((grows_routine right).assign s name value line)
  input _ line := .lift ((grows_routine right).input line)
  member _ object property line := .lift ((grows_routine right).member object property line)
  callMethod _ method receiver arguments :=
    .lift ((grows_routine right).callMethod method receiver arguments)
  checkTime _ line := T.checkTime line
  enterCall _ f arguments line := T.enterCall f arguments line

/-- With the same number of steps, the rules on the left are cut short. -/
theorem simulatedAt (T : Tighter left right stop) (n : Nat) :
    SimulatedAt left right (fun (_ : Unit) s t => s = t) (fun _ => CutShort right stop) n n := by
  have hzero := T.simulation.simulatedAt_zero fun _ => CutShort.lift (grows_routine right).cut
  have hn := T.simulation.simulatedAt hzero n
  rw [Nat.zero_add] at hn
  exact hn

theorem interpret_of (T : Tighter left right stop) {n k : Nat}
    (h : SimulatedAt left right (fun (_ : Unit) s t => s = t) (fun _ => CutShort right stop) n k)
    (p : Program) :
    CutShort right stop (Evaluation.interpret left n p) (Watched.interpret right k p) :=
  T.simulation.interpret (w := ()) h rfl p (.lift (.modifyGet fun _ => .of_shown rfl rfl))
    (.lift ((grows_routine right).load p))

/-- A whole program on the left is cut short. -/
theorem interpret (T : Tighter left right stop) (n : Nat) (p : Program) :
    CutShort right stop (Evaluation.interpret left n p) (Watched.interpret right n p) :=
  T.interpret_of (T.simulatedAt n) p

end Tighter

end KakaLang
