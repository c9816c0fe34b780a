import KakaLang.Proofs.Frames

/-!
Environments that mirror each other. Each grew out of an environment of its own by frames put on
top. The frames on top and the global one stand for each other, rank by rank: they bind the same
names to the same values, and their parents stand for each other too. The frames in between may be
anything, since no parent leads to them. Looking a name up gives the same value in both, and what
is defined, assigned, pushed and popped in both keeps them mirrors of each other.
-/

namespace KakaLang

namespace Bindings

/-- The same names are bound to the same values. -/
def Agree (left right : Bindings) : Prop := ∀ name, left.get? name = right.get? name

theorem Agree.set {left right : Bindings} (h : Agree left right) (name : String) (value : Value) :
    Agree (left.set name value) (right.set name value) := by
  intro other
  rw [get?_set, get?_set, h other]

theorem Agree.binds {left right : Bindings} (h : Agree left right) (name : String) :
    left.binds name = right.binds name := by
  unfold Bindings.binds
  rw [h name]

end Bindings

/-- The scope of a rank: the global scope has rank zero, and the frames from a number on have the
ranks after it. -/
def place (base : Nat) : Nat → ScopeId
  | 0 => globalScope
  | rank + 1 => base + rank

theorem place_injective {base rank rank' : Nat} (hbase : 0 < base)
    (h : place base rank = place base rank') : rank = rank' := by
  cases rank with
  | zero =>
    cases rank' with
    | zero => rfl
    | succ rank' =>
      have hzero : 0 = base + rank' := h
      omega
  | succ rank =>
    cases rank' with
    | zero =>
      have hzero : base + rank = 0 := h
      omega
    | succ rank' =>
      have hsum : base + rank = base + rank' := h
      omega

theorem place_lt {base rank height : Nat} (hbase : 0 < base) (h : rank ≤ height) :
    place base rank < base + height := by
  cases rank with
  | zero => exact Nat.lt_of_lt_of_le hbase (Nat.le_add_right base height)
  | succ rank => exact Nat.add_lt_add_left h base

theorem place_ne_between {base rank i : Nat} (hi : 0 < i) (hbase : i < base) :
    place base rank ≠ i := by
  cases rank with
  | zero => exact Nat.ne_of_lt hi
  | succ rank => exact Nat.ne_of_gt (Nat.lt_of_lt_of_le hbase (Nat.le_add_right base rank))

namespace Environment

/-- The environment has the given number of frames more than another one, and between the global
frame and these it has the frames of the other. -/
structure Extends (base env : Environment) (height : Nat) : Prop where
  nonempty : 0 < base.size
  size : env.size = base.size + height
  between : ∀ i, 0 < i → i < base.size → env.frame? i = base.frame? i

namespace Extends

variable {base env : Environment} {height : Nat}

theorem define (h : Extends base env height) (rank : Nat) (name : String) (value : Value) :
    Extends base (env.define (place base.size rank) name value) height := by
  refine ⟨h.nonempty, (size_define env _ name value).trans h.size, fun i hi hbase => ?_⟩
  rw [frame?_define, if_neg (place_ne_between hi hbase)]
  exact h.between i hi hbase

theorem push (h : Extends base env height) (parent : ScopeId) :
    Extends base (env.push parent).2 (height + 1) := by
  refine ⟨h.nonempty, ?_, fun i hi hbase => ?_⟩
  · rw [size_push, h.size]
    rfl
  · have hne : i ≠ env.size := by
      rw [h.size]
      omega
    rw [frame?_push, if_neg hne]
    exact h.between i hi hbase

theorem pop (h : Extends base env (height + 1)) :
    Extends base (env.pop (base.size + height)) height := by
  have hpositive : 0 < base.size + height := Nat.lt_of_lt_of_le h.nonempty (Nat.le_add_right _ _)
  refine ⟨h.nonempty, ?_, fun i hi hbase => ?_⟩
  · rw [size_pop env hpositive, h.size]
    omega
  · rw [frame?_pop env hpositive, if_pos (by omega)]
    exact h.between i hi hbase

end Extends

/-- Frames of some rank that stand for each other. -/
structure FramesMatch (base base' rank : Nat) (frame frame' : Frame) : Prop where
  bindings : Bindings.Agree frame.bindings frame'.bindings
  parents : frame.parent = none ∧ frame'.parent = none ∨
    ∃ lower < rank, frame.parent = some (place base lower) ∧
      frame'.parent = some (place base' lower)

/-- The environments grew by the same number of frames, and those stand for each other, as do the
global ones. -/
structure Mirrors (base base' : Environment) (height : Nat) (env env' : Environment) : Prop where
  left : Extends base env height
  right : Extends base' env' height
  frames : ∀ rank ≤ height, ∃ frame frame',
    env.frame? (place base.size rank) = some frame ∧
    env'.frame? (place base'.size rank) = some frame' ∧
    FramesMatch base.size base'.size rank frame frame'

namespace Mirrors

variable {base base' env env' : Environment} {height : Nat}

theorem define (h : Mirrors base base' height env env') (rank : Nat) (name : String)
    (value : Value) :
    Mirrors base base' height (env.define (place base.size rank) name value)
      (env'.define (place base'.size rank) name value) := by
  refine ⟨h.left.define rank name value, h.right.define rank name value, fun r hr => ?_⟩
  obtain ⟨frame, frame', hframe, hframe', hmatch⟩ := h.frames r hr
  by_cases hrank : rank = r
  · subst hrank
    refine ⟨{ frame with bindings := frame.bindings.set name value },
      { frame' with bindings := frame'.bindings.set name value }, ?_, ?_,
      hmatch.bindings.set name value, hmatch.parents⟩
    · rw [frame?_define, if_pos rfl, hframe]
      rfl
    · rw [frame?_define, if_pos rfl, hframe']
      rfl
  · refine ⟨frame, frame', ?_, ?_, hmatch⟩
    · rw [frame?_define, if_neg fun heq => hrank (place_injective h.left.nonempty heq)]
      exact hframe
    · rw [frame?_define, if_neg fun heq => hrank (place_injective h.right.nonempty heq)]
      exact hframe'

theorem defineAll (h : Mirrors base base' height env env') (rank : Nat) (params : List String)
    (arguments : List Value) :
    Mirrors base base' height (env.defineAll (place base.size rank) params arguments)
      (env'.defineAll (place base'.size rank) params arguments) := by
  induction params generalizing env env' arguments with
  | nil =>
    rw [Environment.defineAll, Environment.defineAll]
    exact h
  | cons param params ih =>
    cases arguments with
    | nil =>
      rw [Environment.defineAll, Environment.defineAll]
      exact ih (h.define rank param .undefined) []
    | cons argument arguments =>
      rw [Environment.defineAll, Environment.defineAll]
      exact ih (h.define rank param argument) arguments

/-- New frames under parents that stand for each other. -/
theorem push (h : Mirrors base base' height env env') {rank : Nat} (hrank : rank ≤ height) :
    Mirrors base base' (height + 1) (env.push (place base.size rank)).2
      (env'.push (place base'.size rank)).2 := by
  refine ⟨h.left.push _, h.right.push _, fun r hr => ?_⟩
  rcases Nat.lt_or_eq_of_le hr with hlt | rfl
  · obtain ⟨frame, frame', hframe, hframe', hmatch⟩ := h.frames r (Nat.le_of_lt_succ hlt)
    have hr' : r ≤ height := Nat.le_of_lt_succ hlt
    refine ⟨frame, frame', ?_, ?_, hmatch⟩
    · rw [frame?_push, h.left.size, if_neg (Nat.ne_of_lt (place_lt h.left.nonempty hr'))]
      exact hframe
    · rw [frame?_push, h.right.size, if_neg (Nat.ne_of_lt (place_lt h.right.nonempty hr'))]
      exact hframe'
  · refine ⟨⟨some (place base.size rank), []⟩, ⟨some (place base'.size rank), []⟩, ?_, ?_,
      fun _ => rfl, .inr ⟨rank, Nat.lt_succ_of_le hrank, rfl, rfl⟩⟩
    · rw [frame?_push, h.left.size, place, if_pos rfl]
    · rw [frame?_push, h.right.size, place, if_pos rfl]

theorem pop (h : Mirrors base base' (height + 1) env env') :
    Mirrors base base' height (env.pop (base.size + height)) (env'.pop (base'.size + height)) := by
  refine ⟨h.left.pop, h.right.pop, fun r hr => ?_⟩
  obtain ⟨frame, frame', hframe, hframe', hmatch⟩ := h.frames r (Nat.le_succ_of_le hr)
  have hlt := place_lt h.left.nonempty hr
  have hlt' := place_lt h.right.nonempty hr
  refine ⟨frame, frame', ?_, ?_, hmatch⟩
  · rw [frame?_pop env (Nat.zero_lt_of_lt hlt), if_pos hlt]
    exact hframe
  · rw [frame?_pop env' (Nat.zero_lt_of_lt hlt'), if_pos hlt']
    exact hframe'

/-- Walks from scopes of one rank end at scopes of one rank. The induction is on the rank, which
every step to a parent lowers. -/
theorem finds (h : Mirrors base base' height env env') (name : String) (rank : Nat)
    (hrank : rank ≤ height) :
    ∃ found : Option Nat,
      Finds env name (place base.size rank) (found.map (place base.size)) ∧
      Finds env' name (place base'.size rank) (found.map (place base'.size)) ∧
      ∀ r ∈ found, r ≤ height := by
  induction rank using Nat.strongRecOn with
  | ind rank ih =>
    obtain ⟨frame, frame', hframe, hframe', hmatch⟩ := h.frames rank hrank
    have hbinds := hmatch.bindings.binds name
    by_cases hbound : frame.bindings.binds name = true
    · refine ⟨some rank, .ended ?_, .ended ?_, fun r hr => by cases hr; exact hrank⟩
      · simp [visit, hframe, hbound]
      · simp [visit, hframe', ← hbinds, hbound]
    · rcases hmatch.parents with ⟨hparent, hparent'⟩ | ⟨lower, hlower, hparent, hparent'⟩
      · refine ⟨none, .ended ?_, .ended ?_, fun r hr => by cases hr⟩
        · simp [visit, hframe, hbound, hparent]
        · simp [visit, hframe', ← hbinds, hbound, hparent']
      · obtain ⟨found, hfinds, hfinds', hle⟩ := ih lower hlower (by omega)
        refine ⟨found, .onward ?_ hfinds, .onward ?_ hfinds', hle⟩
        · simp [Next, visit, hframe, hbound, hparent]
        · simp [Next, visit, hframe', ← hbinds, hbound, hparent']

/-- Reading a name ends in both and gives the same. -/
theorem get (h : Mirrors base base' height env env') (name : String) :
    ∃ value, env.get (place base.size height) name = some value ∧
      env'.get (place base'.size height) name = some value := by
  obtain ⟨found, hfinds, hfinds', hle⟩ := h.finds name height (Nat.le_refl height)
  refine ⟨env.valueAt name (found.map (place base.size)), hfinds.get_eq, ?_⟩
  rw [hfinds'.get_eq]
  cases found with
  | none => rfl
  | some rank =>
    obtain ⟨frame, frame', hframe, hframe', hmatch⟩ := h.frames rank (hle rank rfl)
    simp only [Option.map_some, valueAt, hframe, hframe', Option.bind_some]
    rw [hmatch.bindings name]

/-- An assignment ends in both. It changes the binding in frames that stand for each other, or finds
none in either. -/
theorem assign (h : Mirrors base base' height env env') (name : String) (value : Value) :
    ∃ assigned next next',
      env.assign (place base.size height) name value = some (assigned, next) ∧
      env'.assign (place base'.size height) name value = some (assigned, next') ∧
      Mirrors base base' height next next' := by
  obtain ⟨found, hfinds, hfinds', -⟩ := h.finds name height (Nat.le_refl height)
  rw [hfinds.assign_eq, hfinds'.assign_eq]
  cases found with
  | none => exact ⟨false, env, env', rfl, rfl, h⟩
  | some rank => exact ⟨true, _, _, rfl, rfl, h.define rank name value⟩

end Mirrors

end Environment

end KakaLang
