import KakaLang.Proofs.Ending
import KakaLang.Proofs.ScopeChain

/-!
What running in a scope leaves of the frames. The frames that assignments reach are those on the
chain of parents from the scope, and declarations bind in the scope itself, so the other frames stay
as they are and the chain gets no new names. Two constructs reach further. A function is declared in
the global frame from wherever its declaration is run, and a call runs its body in a frame of its
own under the global one. Scopes opened on the way are dropped again, so nothing of this depends on
whether the run ends with a result or is stopped.
-/

namespace KakaLang

open KakaLang.Action (Along final)

namespace Environment

/-- Does the frame bind the name? -/
def binds (env : Environment) (i : ScopeId) (name : String) : Bool :=
  (env.frame? i).any (·.bindings.binds name)

/-- The frame is the scope, its parent, the parent of that one, and so on. -/
def OnChain (env : Environment) : ScopeId → ScopeId → Prop :=
  Relation.ReflTransGen fun scope parent => env.parent? scope = some (some parent)

variable {env env' env'' : Environment} {scope parent target i : ScopeId} {name : String}

theorem binds_of_frame? (h : env'.frame? i = env.frame? i) (name : String) :
    env'.binds i name = env.binds i name := by
  rw [binds, binds, h]

theorem binds_define (env : Environment) (target : ScopeId) (name : String) (value : Value)
    (i : ScopeId) (other : String) :
    (env.define target name value).binds i other =
      (env.binds i other || decide (env.IsLive target ∧ target = i ∧ name = other)) := by
  rw [binds, binds, frame?_define]
  by_cases htarget : target = i
  · subst htarget
    cases hframe : env.frame? target with
    | none =>
      have hdead : ¬ env.IsLive target := Nat.not_lt.mpr (Array.getElem?_eq_none_iff.mp hframe)
      simp [hdead]
    | some frame =>
      have hlive : env.IsLive target := (Array.getElem?_eq_some_iff.mp hframe).1
      by_cases hname : name = other <;>
        simp [Bindings.binds, Bindings.get?_set, hlive, hname]
  · simp [htarget]

theorem Finds.onChain {nearest : ScopeId} (h : Finds env name scope (some nearest)) :
    env.OnChain scope nearest := by
  generalize hfound : some nearest = found at h
  induction h with
  | ended hvisit =>
    subst hfound
    rw [(visit_eq_ended_some hvisit).1]
    exact .refl
  | onward hnext _ ih =>
    obtain ⟨frame, hframe, -, hparent⟩ := next_iff.mp hnext
    refine .head ?_ (ih hfound)
    rw [parent?, hframe, Option.map_some, hparent]

/-- Only the parents matter for a chain. -/
theorem onChain_iff (h : ∀ i, env'.parent? i = env.parent? i) :
    env'.OnChain scope i ↔ env.OnChain scope i := by
  unfold OnChain
  simp only [h]

theorem OnChain.le (h : env.OnChain scope i) (henv : env.Descending) : i ≤ scope := by
  induction h with
  | refl => exact Nat.le_refl scope
  | tail _ hparent ih => exact Nat.le_trans (Nat.le_of_lt (descending_iff.mp henv _ _ hparent)) ih

/-- A new frame is on no chain of a frame that was there. -/
theorem OnChain.of_push (h : (env.push parent).2.OnChain scope i) (henv : env.Descending)
    (hscope : env.IsLive scope) : env.OnChain scope i := by
  induction h with
  | refl => exact .refl
  | @tail j k _ hparent ih =>
    have hj : j < env.size := Nat.lt_of_le_of_lt (ih.le henv) hscope
    rw [parent?_push, if_neg (Nat.ne_of_lt hj)] at hparent
    exact .tail ih hparent

/-- The chain of a new frame goes on with the chain of its parent. -/
theorem OnChain.of_push_new (h : (env.push parent).2.OnChain env.size i) (henv : env.Descending)
    (hparent : env.IsLive parent) : i = env.size ∨ env.OnChain parent i := by
  rcases h.cases_head with rfl | ⟨next, hnext, hrest⟩
  · exact .inl rfl
  · rw [parent?_push, if_pos rfl] at hnext
    cases hnext
    exact .inr (OnChain.of_push hrest henv hparent)

/-- When a new frame has been dropped, a frame from before is there as it was until then, and there
is no other. -/
theorem dropped_cases (env env' : Environment) (parent i : ScopeId) (h : 0 < env.size) :
    (i < env.size ∧ (env.push parent).2.frame? i = env.frame? i ∧
      (env'.pop env.size).frame? i = env'.frame? i) ∨
    (env.frame? i = none ∧ (env'.pop env.size).frame? i = none) := by
  rw [frame?_push, frame?_pop env' h]
  by_cases hi : i < env.size
  · rw [if_neg (Nat.ne_of_lt hi), if_pos hi]
    exact .inl ⟨hi, rfl, rfl⟩
  · rw [if_neg hi]
    exact .inr ⟨Array.getElem?_eq_none (Nat.not_lt.mp hi), rfl⟩

/-- What running in a scope leaves of the frames. Open frames may get new names, and the global one
may get those that are declared. -/
structure Confined (scope : ScopeId) (opened : ScopeId → Prop) (declared : String → Prop)
    (env env' : Environment) : Prop where
  size : env'.size = env.size
  parents : ∀ i, env'.parent? i = env.parent? i
  kept : ∀ i name, env.binds i name = true → env'.binds i name = true
  apart : ∀ i, i ≠ globalScope → ¬ env.OnChain scope i → env'.frame? i = env.frame? i
  fresh : ∀ i name, env'.binds i name = true →
    env.binds i name = true ∨ opened i ∨ i = globalScope ∧ declared name

namespace Confined

variable {opened opened' : ScopeId → Prop} {declared declared' : String → Prop}

theorem refl (env : Environment) : Confined scope opened declared env env :=
  ⟨rfl, fun _ => rfl, fun _ _ h => h, fun _ _ _ => rfl, fun _ _ h => .inl h⟩

theorem mono (h : Confined scope opened declared env env') (hopened : ∀ i, opened i → opened' i)
    (hdeclared : ∀ name, declared name → declared' name) :
    Confined scope opened' declared' env env' := by
  refine ⟨h.size, h.parents, h.kept, h.apart, fun i name hbinds => ?_⟩
  rcases h.fresh i name hbinds with hold | hopen | ⟨hglobal, hname⟩
  · exact .inl hold
  · exact .inr (.inl (hopened i hopen))
  · exact .inr (.inr ⟨hglobal, hdeclared name hname⟩)

theorem trans (h : Confined scope opened declared env env')
    (h' : Confined scope opened declared env' env'') :
    Confined scope opened declared env env'' := by
  refine ⟨h'.size.trans h.size, fun i => (h'.parents i).trans (h.parents i),
    fun i name hbinds => h'.kept i name (h.kept i name hbinds), fun i hglobal hchain => ?_,
    fun i name hbinds => ?_⟩
  · have hchain' : ¬ env'.OnChain scope i := mt (onChain_iff h.parents).mp hchain
    exact (h'.apart i hglobal hchain').trans (h.apart i hglobal hchain)
  · rcases h'.fresh i name hbinds with hbefore | hnew
    · exact h.fresh i name hbefore
    · exact .inr hnew

theorem descending (h : Confined scope opened declared env env') (henv : env.Descending) :
    env'.Descending := by
  rw [descending_iff] at henv ⊢
  intro i parent hparent
  rw [h.parents] at hparent
  exact henv i parent hparent

theorem isLive (h : Confined scope opened declared env env') (hi : env.IsLive i) :
    env'.IsLive i := by
  unfold IsLive
  rw [h.size]
  exact hi

theorem binds_eq (h : Confined scope opened declared env env') (hopen : ¬ opened i)
    (hglobal : i ≠ globalScope) (name : String) : env'.binds i name = env.binds i name := by
  apply Bool.eq_iff_iff.mpr
  refine ⟨fun hbinds => ?_, h.kept i name⟩
  rcases h.fresh i name hbinds with hold | hopen' | ⟨hglobal', -⟩
  · exact hold
  · exact absurd hopen' hopen
  · exact absurd hglobal' hglobal

theorem declared_of_new (h : Confined scope opened declared env env')
    (hopen : ¬ opened globalScope) (hbefore : env.binds globalScope name = false)
    (hafter : env'.binds globalScope name = true) : declared name := by
  rcases h.fresh globalScope name hafter with hold | hopen' | ⟨-, hname⟩
  · rw [hbefore] at hold
    cases hold
  · exact absurd hopen' hopen
  · exact hname

/-- A name is given a value in the global frame or on the chain. -/
theorem define (hchain : target = globalScope ∨ env.OnChain scope target)
    (hname : env.binds target name = true ∨ opened target ∨
      target = globalScope ∧ declared name) (value : Value) :
    Confined scope opened declared env (env.define target name value) := by
  refine ⟨env.size_define target name value, env.parent?_define target name value,
    fun i other hbinds => ?_, fun i hglobal hoff => ?_, fun i other hbinds => ?_⟩
  · rw [binds_define, hbinds, Bool.true_or]
  · have htarget : target ≠ i := by
      rintro rfl
      exact hchain.elim hglobal hoff
    rw [frame?_define, if_neg htarget]
  · rw [binds_define, Bool.or_eq_true, decide_eq_true_eq] at hbinds
    rcases hbinds with hold | ⟨-, rfl, rfl⟩
    · exact .inl hold
    · exact hname

theorem define_self (env : Environment) (scope : ScopeId) (name : String) (value : Value) :
    Confined scope (· = scope) declared env (env.define scope name value) := by
  refine define (.inr .refl) (.inr (.inl ?_)) value
  rfl

theorem defineAll (env : Environment) (scope : ScopeId) (params : List String)
    (arguments : List Value) :
    Confined scope (· = scope) declared env (env.defineAll scope params arguments) := by
  induction params generalizing env arguments with
  | nil =>
    rw [Environment.defineAll]
    exact .refl env
  | cons param params ih =>
    cases arguments with
    | nil =>
      rw [Environment.defineAll]
      exact (define_self env scope param _).trans (ih _ [])
    | cons argument arguments =>
      rw [Environment.defineAll]
      exact (define_self env scope param argument).trans (ih _ arguments)

/-- What is done in a new frame, which is then dropped, leaves no name on the chain of its
parent. -/
theorem pop (henv : env.Descending) (hparent : env.IsLive parent)
    (h : Confined env.size (· = env.size) declared (env.push parent).2 env') :
    Confined parent (fun _ => False) declared env (env'.pop env.size) := by
  have hpos : 0 < env.size := Nat.zero_lt_of_lt hparent
  have hcases := fun i => dropped_cases env env' parent i hpos
  refine ⟨?_, fun i => ?_, fun i name hbinds => ?_, fun i hglobal hoff => ?_,
    fun i name hbinds => ?_⟩
  · rw [size_pop env' hpos, h.size, size_push]
    omega
  · rcases hcases i with ⟨-, hpush, hpop⟩ | ⟨hbefore, hafter⟩
    · have hparents := h.parents i
      unfold parent? at hparents ⊢
      rw [hpop, hparents, hpush]
    · rw [parent?, hafter, parent?, hbefore]
  · rcases hcases i with ⟨-, hpush, hpop⟩ | ⟨hbefore, -⟩
    · rw [binds_of_frame? hpop]
      rw [← binds_of_frame? hpush] at hbinds
      exact h.kept i name hbinds
    · rw [binds, hbefore] at hbinds
      cases hbinds
  · rcases hcases i with ⟨hi, hpush, hpop⟩ | ⟨hbefore, hafter⟩
    · have hoff' : ¬ (env.push parent).2.OnChain env.size i := by
        intro hchain
        rcases hchain.of_push_new henv hparent with rfl | hchain
        · exact Nat.lt_irrefl _ hi
        · exact hoff hchain
      rw [hpop, h.apart i hglobal hoff', hpush]
    · rw [hbefore, hafter]
  · rcases hcases i with ⟨hi, hpush, hpop⟩ | ⟨-, hafter⟩
    · rw [binds_of_frame? hpop] at hbinds
      rcases h.fresh i name hbinds with hold | rfl | hglobal
      · rw [binds_of_frame? hpush] at hold
        exact .inl hold
      -- Only the new frame was open, and it is gone.
      · exact absurd hi (Nat.lt_irrefl _)
      · exact .inr (.inr hglobal)
    · rw [binds, hafter] at hbinds
      cases hbinds

/-- The global frame is the whole chain of the global scope. -/
theorem of_global (h : Confined globalScope opened declared env env') (henv : env.Descending) :
    Confined scope opened declared env env' := by
  refine ⟨h.size, h.parents, h.kept, fun i hglobal _ => ?_, h.fresh⟩
  apply h.apart i hglobal
  intro hchain
  exact hglobal (Nat.le_zero.mp (hchain.le henv))

end Confined

end Environment

open Environment (Confined)

/-- One of the visits is of a declaration of a function with the name. -/
def Declared (visits : List Visit) (name : String) : Prop :=
  ∃ v ∈ visits, ∃ site params body line, v.rule = .exec (.function site name params body line)

theorem Declared.mono {visits visits' : List Visit} (h : visits ⊆ visits') (name : String) :
    Declared visits name → Declared visits' name := by
  rintro ⟨v, hv, hrule⟩
  exact ⟨v, h hv, hrule⟩

/-- The frames stay as they are. -/
theorem Machine.sameFrames_quiet : Quiet fun m m' : Machine => m'.env = m.env where
  refl _ := rfl
  trans h h' := h'.trans h
  recorded _ _ := rfl
  heapChanged _ _ := rfl
  looked _ _ := rfl
  loaded _ _ := rfl
  prompted _ _ := rfl
  answered _ _ := rfl

open Machine (sameFrames_quiet)

namespace Watched

variable {scope : ScopeId} {opened : ScopeId → Prop}

/-- Where parents are lower, running in the scope is confined, with the functions declared on the
way. -/
def Confines (scope : ScopeId) (opened : ScopeId → Prop) (x : Watched α) : Prop :=
  ∀ m, m.env.Descending → m.env.IsLive scope →
    Confined scope opened (Declared (x m).2) m.env (final (x m).1).env

namespace Confines

theorem lift {a : Action α} (h : Along (fun m m' => m'.env = m.env) a) :
    Confines scope opened (liftM a) := by
  intro m _ _
  change Confined scope opened _ m.env (final (a m)).env
  rw [h m]
  exact .refl m.env

theorem bind {x : Watched α} {f : α → Watched β} (hx : Confines scope opened x)
    (hf : ∀ v, Confines scope opened (f v)) : Confines scope opened (x >>= f) := by
  intro m henv hlive
  have hfirst := hx m henv hlive
  simp only [Bind.bind]
  rcases hresult : x m with ⟨result, visits⟩
  rw [hresult] at hfirst
  cases result with
  | error e m' => exact hfirst
  | ok v m' =>
    have hthen := hf v m' (hfirst.descending henv) (hfirst.isLive hlive)
    exact (hfirst.mono (fun _ h => h) (Declared.mono (List.subset_append_left _ _))).trans
      (hthen.mono (fun _ h => h) (Declared.mono (List.subset_append_right _ _)))

theorem visit {x : Watched α} (h : Confines scope opened x) (rule : Rule) (steps : Nat)
    (place : ScopeId) : Confines scope opened (Watched.visit rule steps place x) :=
  fun m henv hlive =>
    (h m henv hlive).mono (fun _ h => h) (Declared.mono (List.subset_cons_self _ _))

/-- A new scope is dropped with what was declared in it. -/
theorem inScope {x : ScopeId → Watched α} (h : ∀ inner, Confines inner (· = inner) (x inner)) :
    Confines scope (fun _ => False) (Watched.inScope scope x) := by
  intro m henv hlive
  have hpos : m.env.size ≠ globalScope := Nat.ne_of_gt (Nat.zero_lt_of_lt hlive)
  have hpushed : (m.env.push scope).2.IsLive m.env.size := by
    unfold Environment.IsLive
    rw [Environment.size_push]
    exact Nat.lt_succ_self _
  have hinner := h m.env.size (m.pushScope scope) (henv.push hlive) hpushed
  have hpop : ∀ m', (Machine.popScope m' m.env.size).env = m'.env.pop m.env.size := by
    intro m'
    rw [Machine.popScope, if_neg hpos]
    rfl
  have hfinal : (final (Watched.inScope scope x m).1).env =
      (final (x m.env.size (m.pushScope scope)).1).env.pop m.env.size := by
    unfold Watched.inScope Watched.ensuring Action.ensuring
    dsimp only
    cases (x m.env.size (m.pushScope scope)).1 with
    | ok a m' => exact hpop m'
    | error e m' => exact hpop m'
  rw [hfinal]
  exact hinner.pop henv hlive

theorem deeper {x : Watched α} (h : Confines scope opened x) :
    Confines scope opened (Watched.deeper x) := by
  intro m henv hlive
  have hinner := h { m with callDepth := m.callDepth + 1 } henv hlive
  unfold Watched.deeper Watched.ensuring Action.ensuring
  dsimp only
  cases hresult : (x { m with callDepth := m.callDepth + 1 }).1 with
  | ok a m' =>
    rw [hresult] at hinner
    exact hinner
  | error e m' =>
    rw [hresult] at hinner
    exact hinner

/-- The body of a call starts from the global scope wherever the call is made. -/
theorem of_global {x : Watched α} (h : Confines globalScope (fun _ => False) x) :
    Confines scope opened x := by
  intro m henv hlive
  have hglobal : m.env.IsLive globalScope := Nat.zero_lt_of_lt hlive
  exact ((h m henv hglobal).mono (fun _ h => h.elim) fun _ h => h).of_global henv

theorem define (scope : ScopeId) (name : String) (value : Value) :
    Confines scope (· = scope) (liftM (Action.define scope name value)) :=
  fun m _ _ => .define_self m.env scope name value

/-- An assignment binds no name. -/
theorem assign (scope : ScopeId) (name : String) (value : Value) (line : Nat) :
    Confines scope opened (liftM (Evaluation.assign scope name value line)) := by
  intro m _ _
  change Confined scope opened _ m.env (final (Evaluation.assign scope name value line m)).env
  rcases Evaluation.final_assign scope name value line m with hsame | ⟨nearest, hfinds, hassigned⟩
  · rw [hsame]
    exact .refl m.env
  · rw [hassigned]
    obtain ⟨frame, hframe, hbinds⟩ := hfinds.binds
    refine .define (.inr hfinds.onChain) (.inl ?_) value
    rw [Environment.binds, hframe]
    exact hbinds

theorem print (settings : Settings) (text : String) (line : Nat) :
    Confines scope opened (liftM (Action.print settings text line)) := by
  apply lift
  intro m
  rw [Action.print_eq]
  split <;> rfl

end Confines

/-- Being confined is a simulation. It says nothing about the plain run, and the world is the
scope. -/
theorem confines_simulation (settings : Settings) :
    Simulation settings settings (fun scope _ t => t = scope)
      (fun scope _ _ y => Confines scope (· = scope) y) where
  pure _ _ a := .lift (sameFrames_quiet.pure a)
  bind hx hf := hx.bind hf
  visit rule steps place h := h.visit rule steps place
  block := by
    rintro scope _ s _ x y rfl h m henv hlive
    refine (Confines.inScope (fun inner => h inner inner inner rfl) m henv hlive).mono ?_ ?_
    · exact fun _ hopen => hopen.elim
    · exact fun _ hdeclared => hdeclared
  body := by
    intro scope _ x y params arguments h
    apply Confines.of_global
    apply Confines.inScope
    intro inner
    apply Confines.bind
    · exact fun m _ _ => .defineAll m.env inner params arguments
    · exact fun _ => (h inner inner inner rfl).deeper
  print := by
    rintro scope s _ n k value line rfl h
    rw [Watched.exec]
    apply Confines.visit
    apply h.bind
    intro v
    apply (Confines.lift (sameFrames_quiet.checkTime settings line)).bind
    intro _
    apply (Confines.lift sameFrames_quiet.get).bind
    intro m
    exact (Confines.print settings _ line).bind fun _ => .lift (sameFrames_quiet.pure _)
  function := by
    rintro scope s _ n k site name params body line rfl
    rw [Watched.exec]
    intro m _ _
    refine .define (.inl rfl) (.inr (.inr ⟨rfl, ?_⟩)) _
    exact ⟨_, List.mem_cons_self, site, params, body, line, rfl⟩
  fault _ _ e := .lift (sameFrames_quiet.fault e)
  readHeap _ f := .lift (sameFrames_quiet.bind sameFrames_quiet.get fun _ =>
    sameFrames_quiet.pure _)
  note _ r := .lift (sameFrames_quiet.note r)
  alloc _ elements := .lift (sameFrames_quiet.alloc elements)
  define := by
    rintro scope s _ name value rfl
    exact .define _ name value
  lookup name line _ := .lift (sameFrames_quiet.lookup _ name line)
  assign := by
    rintro scope s _ name value line rfl
    exact .assign _ name value line
  input _ line := .lift (sameFrames_quiet.input line)
  member _ object property line := .lift (sameFrames_quiet.member object property line)
  callMethod _ method receiver arguments :=
    .lift (sameFrames_quiet.callMethod method receiver arguments)
  checkTime _ line := .lift (sameFrames_quiet.checkTime settings line)
  enterCall _ f arguments line := .lift (sameFrames_quiet.enterCall settings f arguments line)

theorem confinesAt (settings : Settings) (steps : Nat) :
    SimulatedAt settings settings (fun scope _ t => t = scope)
      (fun scope _ _ y => Confines scope (· = scope) y) steps steps := by
  have hzero := (confines_simulation settings).simulatedAt_zero fun _ =>
    .lift sameFrames_quiet.cut
  have hsteps := (confines_simulation settings).simulatedAt hzero steps
  rw [Nat.zero_add] at hsteps
  exact hsteps

theorem confines_execBlock (settings : Settings) (steps : Nat) (block : Block) :
    Confines scope (fun _ => False) (execBlock settings steps block scope) := by
  cases steps with
  | zero =>
    rw [execBlock]
    exact (Confines.lift sameFrames_quiet.cut).visit _ _ _
  | succ steps =>
    rw [execBlock]
    apply Confines.visit
    apply Confines.inScope
    intro inner
    exact (confinesAt settings steps).execAll (s := inner) block.statements rfl

end Watched

namespace Evaluation

open KakaLang.Environment (IsLive Reached)

/-- Running a statement in a scope, where parents are lower, takes no name from a frame, leaves the
frames off the chain of the scope as they are, the global one apart, and leaves the names of those
on the chain as they are, the scope and the global one apart. A name that is new in the global frame
is then that of a function whose declaration was visited, unless the global frame is the scope.
Running a block does not give names to the scope either. -/
theorem running_is_confined (settings : Settings) (steps : Nat) (scope : ScopeId) (m : Machine)
    (henv : m.env.Descending) (hlive : m.env.IsLive scope) :
    (∀ s, let run := Watched.exec settings steps s scope m
      let after := (final (exec settings steps s scope m)).env
      run.1 = exec settings steps s scope m ∧
      (∀ i name, m.env.binds i name = true → after.binds i name = true) ∧
      (∀ i, i ≠ globalScope → ¬ m.env.OnChain scope i → after.frame? i = m.env.frame? i) ∧
      (∀ i, m.env.OnChain scope i → i ≠ scope → i ≠ globalScope →
        ∀ name, after.binds i name = m.env.binds i name) ∧
      (scope ≠ globalScope → ∀ name, m.env.binds globalScope name = false →
        after.binds globalScope name = true → Declared run.2 name)) ∧
    ∀ block, let run := Watched.execBlock settings steps block scope m
      let after := (final (execBlock settings steps block scope m)).env
      run.1 = execBlock settings steps block scope m ∧
      (∀ i name, m.env.binds i name = true → after.binds i name = true) ∧
      (∀ i, i ≠ globalScope → ¬ m.env.OnChain scope i → after.frame? i = m.env.frame? i) ∧
      (∀ i, m.env.OnChain scope i → i ≠ globalScope →
        ∀ name, after.binds i name = m.env.binds i name) ∧
      ∀ name, m.env.binds globalScope name = false →
        after.binds globalScope name = true → Declared run.2 name := by
  refine ⟨fun s => ?_, fun block => ?_⟩
  · intro run after
    have hrun : run.1 = exec settings steps s scope m :=
      (Watched.erasesAt settings steps).exec s scope m
    have hconfined : Confined scope (· = scope) (Declared run.2) m.env after := by
      have hexec := (Watched.confinesAt settings steps).exec (s := scope) s rfl m henv hlive
      rw [hrun] at hexec
      exact hexec
    refine ⟨hrun, hconfined.kept, hconfined.apart, fun i _ hi hglobal name => ?_,
      fun hscope name hbefore hafter => ?_⟩
    · exact hconfined.binds_eq hi hglobal name
    · exact hconfined.declared_of_new (Ne.symm hscope) hbefore hafter
  · intro run after
    have hrun : run.1 = execBlock settings steps block scope m :=
      (Watched.erasesAt settings steps).execBlock block scope m
    have hconfined : Confined scope (fun _ => False) (Declared run.2) m.env after := by
      have hblock := Watched.confines_execBlock settings steps block m henv hlive
      rw [hrun] at hblock
      exact hblock
    refine ⟨hrun, hconfined.kept, hconfined.apart, fun i _ hglobal name => ?_,
      fun name hbefore hafter => ?_⟩
    · exact hconfined.binds_eq (fun hopen => hopen) hglobal name
    · exact hconfined.declared_of_new (fun hopen => hopen) hbefore hafter

/-- A block in a block declares a local and a function and assigns to a local of the outer one
before it faults. The frame of a call beside it has a local too. -/
theorem running_is_confined_fault :
    let outer := (Environment.initial.push 0).2.define 1 "x" .null
    let env := ((outer.push 1).2.push 0).2.define 3 "z" .null
    let s : Statement := .block (.mk [.declare "y" (.literal .null 1) 1,
      .expression (.assign "x" (.literal (.bool true) 2) 2) 2, .function 0 "f" [] (.mk [] 3) 3,
      .expression (.ident "u" 4) 4] 1)
    let result := exec {} 9 s 2 { env := env }
    let after := (final result).env
    Reached IsLive env ∧ fault? result = some (.undefinedVariable "u" 4) ∧
      after.frame? 3 = env.frame? 3 ∧ (∀ name, after.binds 1 name = env.binds 1 name) ∧
      after.binds 0 "f" = true ∧ Declared (Watched.exec {} 9 s 2 { env := env }).2 "f" := by
  intro outer env s result after
  have hglobal : IsLive .initial 0 := by decide
  have houter : IsLive outer 1 := by decide
  have hcall : IsLive (outer.push 1).2 0 := by decide
  have hreached : Reached IsLive env :=
    .define (.push (.push (.define (.push .initial hglobal) _ _ _) houter) hcall) _ _ _
  have hlive : env.IsLive 2 := by decide
  have hoff : ¬ env.OnChain 2 3 := fun hchain => absurd (hchain.le hreached.descending) (by decide)
  have hon : env.OnChain 2 1 := .single rfl
  obtain ⟨-, -, hapart, hsame, hnew⟩ :=
    (running_is_confined {} 9 2 { env := env } hreached.descending hlive).1 s
  have hdeclared : after.binds 0 "f" = true := by decide +kernel
  exact ⟨hreached, by decide +kernel, hapart 3 (by decide) hoff,
    hsame 1 hon (by decide) (by decide), hdeclared, hnew (by decide) "f" (by decide) hdeclared⟩

end Evaluation

end KakaLang
