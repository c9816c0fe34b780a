import KakaLang.Proofs.Changes

/-!
Frames and their parents. A machine is stacked at a scope when that scope is its last frame and each
frame has the one before it or the global one for its parent. Bindings do not matter for this, so
the actions that open no scope and make no call all leave it alone; pushing a frame keeps a machine
stacked, and popping it gives back the frames below.
-/

namespace KakaLang

namespace Bindings

theorem get?_set (bindings : Bindings) (name : String) (value : Value) (other : String) :
    (bindings.set name value).get? other =
      if name = other then some value else bindings.get? other := by
  induction bindings with
  | nil => rfl
  | cons binding rest ih =>
    obtain ⟨bound, old⟩ := binding
    unfold set
    by_cases hbound : bound = name
    · rw [if_pos hbound, get?, get?, hbound]
      split <;> rfl
    · rw [if_neg hbound, get?, get?, ih]
      by_cases hother : bound = other
      · rw [if_pos hother, if_pos hother, if_neg]
        rintro rfl
        exact hbound hother
      · rw [if_neg hother, if_neg hother]

end Bindings

namespace Environment

def parent? (env : Environment) (scope : ScopeId) : Option (Option ScopeId) :=
  (env.frame? scope).map (·.parent)

/-- The walk from a frame without a parent ends there. -/
theorem finds_of_root {env : Environment} {scope : ScopeId} (h : env.parent? scope = some none)
    (name : String) : ∃ found, Finds env name scope found := by
  obtain ⟨frame, hframe, hparent⟩ := Option.map_eq_some_iff.mp h
  cases hbound : frame.bindings.binds name with
  | true => exact ⟨some scope, .ended (by simp [visit, hframe, hbound])⟩
  | false => exact ⟨none, .ended (by simp [visit, hframe, hbound, hparent])⟩

theorem size_define (env : Environment) (scope : ScopeId) (name : String) (value : Value) :
    (env.define scope name value).size = env.size :=
  Array.size_modify

theorem frame?_define (env : Environment) (scope : ScopeId) (name : String) (value : Value)
    (i : Nat) : (env.define scope name value).frame? i =
      if scope = i then
        (env.frame? i).map fun frame => { frame with bindings := frame.bindings.set name value }
      else env.frame? i :=
  Array.getElem?_modify

theorem parent?_define (env : Environment) (scope : ScopeId) (name : String) (value : Value)
    (i : Nat) : (env.define scope name value).parent? i = env.parent? i := by
  unfold parent?
  rw [frame?_define]
  split
  · rw [Option.map_map]
    rfl
  · rfl

theorem size_defineAll (env : Environment) (scope : ScopeId) (params : List String)
    (arguments : List Value) : (env.defineAll scope params arguments).size = env.size := by
  induction params generalizing env arguments with
  | nil => rw [defineAll]
  | cons param params ih =>
    cases arguments with
    | nil => rw [defineAll, ih, size_define]
    | cons argument arguments => rw [defineAll, ih, size_define]

theorem parent?_defineAll (env : Environment) (scope : ScopeId) (params : List String)
    (arguments : List Value) (i : Nat) :
    (env.defineAll scope params arguments).parent? i = env.parent? i := by
  induction params generalizing env arguments with
  | nil => rw [defineAll]
  | cons param params ih =>
    cases arguments with
    | nil => rw [defineAll, ih, parent?_define]
    | cons argument arguments => rw [defineAll, ih, parent?_define]

theorem size_push (env : Environment) (parent : ScopeId) :
    (env.push parent).2.size = env.size + 1 :=
  Array.size_push _

theorem frame?_push (env : Environment) (parent : ScopeId) (i : Nat) :
    (env.push parent).2.frame? i =
      if i = env.size then some ⟨some parent, []⟩ else env.frame? i :=
  Array.getElem?_push

theorem parent?_push (env : Environment) (parent : ScopeId) (i : Nat) :
    (env.push parent).2.parent? i =
      if i = env.size then some (some parent) else env.parent? i := by
  unfold parent?
  rw [frame?_push]
  split <;> rfl

theorem size_pop (env : Environment) {scope : ScopeId} (h : 0 < scope) :
    (env.pop scope).size = min scope env.size := by
  have hglobal : scope ≠ globalScope := Nat.ne_of_gt h
  unfold pop size
  rw [if_neg hglobal, Array.size_shrink]

theorem frame?_pop (env : Environment) {scope : ScopeId} (h : 0 < scope) (i : Nat) :
    (env.pop scope).frame? i = if i < scope then env.frame? i else none := by
  have hglobal : scope ≠ globalScope := Nat.ne_of_gt h
  unfold frame? pop
  rw [if_neg hglobal, ← Array.getElem?_toList, Array.toList_shrink, List.getElem?_take]
  split
  · rw [Array.getElem?_toList]
  · rfl

theorem parent?_pop (env : Environment) {scope : ScopeId} (h : 0 < scope) (i : Nat) :
    (env.pop scope).parent? i = if i < scope then env.parent? i else none := by
  unfold parent?
  rw [frame?_pop env h]
  split <;> rfl

end Environment

namespace Machine

/-- Only the global frame is there, and no call is open. -/
def Clean (m : Machine) : Prop := m.env.size = 1 ∧ m.callDepth = 0

/-- The scope is the last frame, every other frame has the one before it or the global one for its
parent, and calls are within their limit. -/
structure Stacked (settings : Settings) (scope : ScopeId) (m : Machine) : Prop where
  last : m.env.size = scope + 1
  parents : ∀ (i : Nat) frame, 0 < i → m.env.frame? i = some frame →
    frame.parent = some (i - 1) ∨ frame.parent = some globalScope
  depth : m.callDepth ≤ settings.limits.callDepth

/-- The second machine has the frames of the first, with their parents, and its depth of calls. -/
structure Restores (before after : Machine) : Prop where
  size : after.env.size = before.env.size
  parents : ∀ i, after.env.parent? i = before.env.parent? i
  depth : after.callDepth = before.callDepth

variable {settings : Settings} {scope parent : ScopeId} {m m' m'' : Machine}

theorem Restores.refl (m : Machine) : Restores m m := ⟨rfl, fun _ => rfl, rfl⟩

theorem Restores.trans (h : Restores m m') (h' : Restores m' m'') : Restores m m'' := by
  refine ⟨?_, fun i => ?_, ?_⟩
  · rw [h'.size, h.size]
  · rw [h'.parents, h.parents]
  · rw [h'.depth, h.depth]

/-- Only the frames and the depth of calls matter. -/
theorem Restores.of_env (henv : m'.env = m.env) (hdepth : m'.callDepth = m.callDepth) :
    Restores m m' := by
  refine ⟨?_, fun i => ?_, hdepth⟩
  · rw [henv]
  · rw [henv]

theorem stacked_iff : Stacked settings scope m ↔
    m.env.size = scope + 1 ∧
      (∀ (i : Nat) p, 0 < i → m.env.parent? i = some p → p = some (i - 1) ∨ p = some globalScope) ∧
      m.callDepth ≤ settings.limits.callDepth := by
  constructor
  · intro h
    refine ⟨h.last, fun i p hi hp => ?_, h.depth⟩
    obtain ⟨frame, hframe, rfl⟩ := Option.map_eq_some_iff.mp hp
    exact h.parents i frame hi hframe
  · rintro ⟨hlast, hparents, hdepth⟩
    refine ⟨hlast, fun i frame hi hframe => ?_, hdepth⟩
    exact hparents i frame.parent hi (Option.map_eq_some_iff.mpr ⟨frame, hframe, rfl⟩)

theorem Stacked.of_restores (hm : Stacked settings scope m) (h : Restores m m') :
    Stacked settings scope m' := by
  rw [stacked_iff] at hm ⊢
  obtain ⟨hlast, hparents, hdepth⟩ := hm
  refine ⟨?_, fun i p hi hp => ?_, ?_⟩
  · rw [h.size, hlast]
  · rw [h.parents] at hp
    exact hparents i p hi hp
  · rw [h.depth]
    exact hdepth

theorem Stacked.of_clean (h : m.Clean) : Stacked settings globalScope m := by
  refine ⟨h.1, fun i frame hi hframe => ?_, ?_⟩
  · have hlt : i < m.env.size := (Array.getElem?_eq_some_iff.mp hframe).1
    rw [h.1] at hlt
    omega
  · rw [h.2]
    exact Nat.zero_le _

theorem Clean.of_restores (hm : m.Clean) (h : Restores m m') : m'.Clean :=
  ⟨h.size.trans hm.1, h.depth.trans hm.2⟩

/-- A frame pushed under the last one, or under the global one, is the last of a stack. -/
theorem Stacked.pushScope (hm : Stacked settings scope m)
    (hparent : parent = scope ∨ parent = globalScope) :
    Stacked settings m.env.size (m.pushScope parent) := by
  rw [stacked_iff] at hm ⊢
  obtain ⟨hlast, hparents, hdepth⟩ := hm
  refine ⟨m.env.size_push parent, fun i p hi hp => ?_, hdepth⟩
  have hpush : (m.env.push parent).2.parent? i = some p := hp
  rw [Environment.parent?_push] at hpush
  by_cases hi' : i = m.env.size
  · rw [if_pos hi'] at hpush
    cases hpush
    rcases hparent with rfl | rfl
    · left
      rw [hi', hlast]
      rfl
    · right
      rfl
  · rw [if_neg hi'] at hpush
    exact hparents i p hi hpush

/-- Whatever has happened in a pushed frame, popping it leaves the frames below. -/
theorem Restores.popScope (hm : 0 < m.env.size) (h : Restores (m.pushScope parent) m') :
    Restores m (m'.popScope m.env.size) := by
  have hsize : m'.env.size = m.env.size + 1 := h.size.trans (m.env.size_push parent)
  have hparents : ∀ i, m'.env.parent? i = (m.env.push parent).2.parent? i := h.parents
  have hglobal : m.env.size ≠ globalScope := Nat.ne_of_gt hm
  unfold Machine.popScope
  rw [if_neg hglobal]
  refine ⟨?_, fun i => ?_, h.depth⟩
  · have hpop := m'.env.size_pop hm
    rw [hsize] at hpop
    exact hpop.trans (by omega)
  · refine (m'.env.parent?_pop hm i).trans ?_
    split
    · rename_i hi
      rw [hparents, Environment.parent?_push, if_neg (Nat.ne_of_lt hi)]
    · rename_i hi
      have hout : m.env.frame? i = none := Array.getElem?_eq_none (Nat.not_lt.mp hi)
      rw [Environment.parent?, hout]
      rfl

end Machine

open Machine (Restores Stacked)

/-- Small changes leave the frames and the depth of calls alone. -/
theorem Machine.restores_routine : Routine Restores where
  refl := .refl
  trans := .trans
  recorded _ _ := .of_env rfl rfl
  defined m scope name value :=
    ⟨m.env.size_define scope name value, m.env.parent?_define scope name value, rfl⟩
  heapChanged _ _ := .of_env rfl rfl
  looked _ _ := .of_env rfl rfl
  loaded _ _ := .of_env rfl rfl
  prompted _ _ := .of_env rfl rfl
  answered _ _ := .of_env rfl rfl

namespace Action

open Machine (restores_routine)

/-- An action that leaves the frames and the depth of calls alone. -/
def Restoring (a : Action α) : Prop := ∀ m, Restores m (final (a m))

namespace Restoring

theorem pure (a : α) : Restoring (Pure.pure a) := restores_routine.pure a

theorem fault (e : RuntimeError) : Restoring (Action.fault e : Action α) :=
  restores_routine.fault e

theorem cut : Restoring (Action.cut : Action α) := restores_routine.cut

theorem get : Restoring (MonadState.get : Action Machine) := restores_routine.get

theorem modifyGet {f : Machine → α × Machine} (h : ∀ m, Restores m (f m).2) :
    Restoring (MonadState.modifyGet f : Action α) := h

theorem note (r : Record) : Restoring (Action.note r) := restores_routine.note r

theorem define (scope : ScopeId) (name : String) (value : Value) :
    Restoring (Action.define scope name value) :=
  restores_routine.define scope name value

theorem alloc (elements : Array Value) : Restoring (Action.alloc elements) :=
  restores_routine.alloc elements

theorem checkTime (settings : Settings) (line : Nat) :
    Restoring (Action.checkTime settings line) :=
  restores_routine.checkTime settings line

theorem print (settings : Settings) (text : String) (line : Nat) :
    Restoring (Action.print settings text line) := by
  unfold Action.print
  apply restores_routine.bind get
  intro m
  split
  · exact fault _
  · exact modifyGet fun _ => .of_env rfl rfl

theorem lookup (scope : ScopeId) (name : String) (line : Nat) :
    Restoring (Evaluation.lookup scope name line) :=
  restores_routine.lookup scope name line

theorem assign (scope : ScopeId) (name : String) (value : Value) (line : Nat) :
    Restoring (Evaluation.assign scope name value line) :=
  restores_routine.assign scope name value line

theorem input (line : Nat) : Restoring (Evaluation.input line) := restores_routine.input line

theorem member (object property : Value) (line : Nat) :
    Restoring (Evaluation.member object property line) :=
  restores_routine.member object property line

theorem callMethod (method : ArrayMethod) (receiver : ArrayId) (arguments : Array Value) :
    Restoring (Evaluation.callMethod method receiver arguments) :=
  restores_routine.callMethod method receiver arguments

theorem enterCall (settings : Settings) (f : Function) (arguments : Array Value) (line : Nat) :
    Restoring (Evaluation.enterCall settings f arguments line) :=
  restores_routine.enterCall settings f arguments line

theorem load (statements : List Statement) : Restoring (Evaluation.load statements) :=
  restores_routine.load statements

end Restoring

end Action

/-- A call is entered only below the limit. -/
theorem Evaluation.depth_of_enterCall {settings : Settings} {f : Function}
    {arguments : Array Value} {line : Nat} {m m' : Machine}
    (h : enterCall settings f arguments line m = .ok () m') :
    m.callDepth < settings.limits.callDepth := by
  apply Nat.lt_of_not_le
  intro hle
  unfold enterCall at h
  rw [Action.get_bind] at h
  simp only [if_pos hle] at h
  cases h

end KakaLang
