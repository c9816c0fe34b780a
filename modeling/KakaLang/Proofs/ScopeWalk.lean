import KakaLang.Machine.Environment
import Mathlib.Data.Finset.Card
import Mathlib.Data.Nat.SuccPred
import Mathlib.Order.SuccPred.Relation

/-!
Walks along the parents. In each scope a walk that looks for a name ends or goes on to the parent.
Reading and assigning are two such walks, and what they come to depends only on where the walk ends.
They have no end exactly when the walk comes back to a scope that it has visited. Since there are
only so many frames, this is settled once it has visited more scopes than that.
-/

namespace KakaLang.Environment

/-- What a walk does in a scope. It ends there, with the scope or without one, or goes on. -/
inductive Visit where
  | ended (found : Option ScopeId)
  | onward (parent : ScopeId)

/-- A walk that looks for a name ends where the name is bound, at a number that belongs to no frame
and at a frame without a parent. -/
def visit (env : Environment) (name : String) (scope : ScopeId) : Visit :=
  match env.frame? scope with
  | none => .ended none
  | some frame =>
    if frame.bindings.binds name then .ended (some scope)
    else
      match frame.parent with
      | none => .ended none
      | some parent => .onward parent

def Next (env : Environment) (name : String) (scope parent : ScopeId) : Prop :=
  env.visit name scope = .onward parent

/-- The walk from a scope ends, at the nearest scope that binds the name or without one. -/
inductive Finds (env : Environment) (name : String) : ScopeId → Option ScopeId → Prop where
  | ended {scope : ScopeId} {found : Option ScopeId} (h : env.visit name scope = .ended found) :
      Finds env name scope found
  | onward {scope parent : ScopeId} {found : Option ScopeId} (hnext : env.Next name scope parent)
      (h : Finds env name parent found) : Finds env name scope found

/-- The walk from a scope comes to one that it comes back to. -/
def Loops (env : Environment) (name : String) (scope : ScopeId) : Prop :=
  ∃ again, Relation.ReflTransGen (env.Next name) scope again ∧
    Relation.TransGen (env.Next name) again again

/-- The value of a name where the walk for it ended. -/
def valueAt (env : Environment) (name : String) : Option ScopeId → Option Value
  | none => none
  | some nearest => (env.frame? nearest).bind fun frame => frame.bindings.get? name

/-- What an assignment comes to where the walk for the name ended. -/
def assignedAt (env : Environment) (name : String) (value : Value) :
    Option ScopeId → Bool × Environment
  | none => (false, env)
  | some nearest => (true, env.define nearest name value)

variable {env : Environment} {name : String} {scope parent : ScopeId} {found : Option ScopeId}

/-- A walk goes on from a frame that does not bind the name to its parent. -/
theorem next_iff : env.Next name scope parent ↔ ∃ frame, env.frame? scope = some frame ∧
    frame.bindings.binds name = false ∧ frame.parent = some parent := by
  unfold Next visit
  cases env.frame? scope with
  | none => simp
  | some frame =>
    cases hbound : frame.bindings.binds name with
    | true => simp [hbound]
    | false => cases hparent : frame.parent <;> simp [hbound, hparent]

/-- A walk that ends at a scope ends where it is, and the name is bound there. -/
theorem visit_eq_ended_some {nearest : ScopeId}
    (h : env.visit name scope = .ended (some nearest)) :
    nearest = scope ∧ ∃ frame, env.frame? scope = some frame ∧
      frame.bindings.binds name = true := by
  unfold visit at h
  cases hframe : env.frame? scope with
  | none => simp [hframe] at h
  | some frame =>
    cases hbound : frame.bindings.binds name with
    | true =>
      simp only [hframe, hbound, if_true, Visit.ended.injEq, Option.some.injEq] at h
      exact ⟨h.symm, frame, rfl, hbound⟩
    | false => cases hparent : frame.parent <;> simp [hframe, hbound, hparent] at h

theorem Next.lt_size (h : env.Next name scope parent) : scope < env.size := by
  obtain ⟨frame, hframe, -⟩ := next_iff.mp h
  exact (Array.getElem?_eq_some_iff.mp hframe).1

theorem getWithin_succ (env : Environment) (name : String) (steps : Nat) (scope : ScopeId) :
    env.getWithin name (steps + 1) scope =
      match env.visit name scope with
      | .ended found => some (env.valueAt name found)
      | .onward parent => env.getWithin name steps parent := by
  rw [getWithin, visit]
  cases hframe : env.frame? scope with
  | none => rfl
  | some frame =>
    cases hbound : frame.bindings.get? name with
    | some value => simp [Bindings.binds, valueAt, hframe, hbound]
    | none => cases hparent : frame.parent <;> simp [Bindings.binds, valueAt, hbound, hparent]

theorem assignWithin_succ (env : Environment) (name : String) (value : Value) (steps : Nat)
    (scope : ScopeId) :
    env.assignWithin name value (steps + 1) scope =
      match env.visit name scope with
      | .ended found => some (env.assignedAt name value found)
      | .onward parent => env.assignWithin name value steps parent := by
  rw [assignWithin, visit]
  cases env.frame? scope with
  | none => rfl
  | some frame =>
    cases hbound : frame.bindings.binds name with
    | true => simp [assignedAt, hbound]
    | false => cases hparent : frame.parent <;> simp [assignedAt, hbound, hparent]

theorem Finds.unique {other : Option ScopeId} (h : Finds env name scope found)
    (h' : Finds env name scope other) : found = other := by
  induction h with
  | ended hvisit =>
    cases h' with
    | ended hvisit' =>
      rw [hvisit] at hvisit'
      cases hvisit'
      rfl
    | onward hnext =>
      rw [Next, hvisit] at hnext
      cases hnext
  | onward hnext _ ih =>
    cases h' with
    | ended hvisit' =>
      rw [Next, hvisit'] at hnext
      cases hnext
    | onward hnext' h' =>
      rw [Next, hnext] at hnext'
      cases hnext'
      exact ih h'

/-- A walk that reads a name has ended when it comes to something, and it reads the name there. -/
theorem finds_of_getWithin {steps : Nat} {value : Option Value}
    (h : env.getWithin name steps scope = some value) :
    ∃ found, Finds env name scope found ∧ value = env.valueAt name found := by
  induction steps generalizing scope with
  | zero => cases h
  | succ steps ih =>
    rw [getWithin_succ] at h
    cases hvisit : env.visit name scope with
    | ended found =>
      rw [hvisit] at h
      cases h
      exact ⟨found, .ended hvisit, rfl⟩
    | onward parent =>
      rw [hvisit] at h
      obtain ⟨found, hfinds, hvalue⟩ := ih h
      exact ⟨found, .onward hvisit hfinds, hvalue⟩

theorem finds_of_assignWithin {value : Value} {steps : Nat} {result : Bool × Environment}
    (h : env.assignWithin name value steps scope = some result) :
    ∃ found, Finds env name scope found ∧ result = env.assignedAt name value found := by
  induction steps generalizing scope with
  | zero => cases h
  | succ steps ih =>
    rw [assignWithin_succ] at h
    cases hvisit : env.visit name scope with
    | ended found =>
      rw [hvisit] at h
      cases h
      exact ⟨found, .ended hvisit, rfl⟩
    | onward parent =>
      rw [hvisit] at h
      obtain ⟨found, hfinds, hresult⟩ := ih h
      exact ⟨found, .onward hvisit hfinds, hresult⟩

/-- The two walks use up their scopes alike. -/
theorem assignWithin_eq_none_iff {value : Value} {steps : Nat} :
    env.assignWithin name value steps scope = none ↔ env.getWithin name steps scope = none := by
  induction steps generalizing scope with
  | zero => exact ⟨fun _ => rfl, fun _ => rfl⟩
  | succ steps ih =>
    rw [assignWithin_succ, getWithin_succ]
    cases env.visit name scope with
    | ended found => simp
    | onward parent => exact ih

/-- A walk that has used up its scopes has gone on from each of them. -/
theorem exists_path {steps : Nat} (h : env.getWithin name steps scope = none) :
    ∃ path : Nat → ScopeId, path 0 = scope ∧
      ∀ i < steps, env.Next name (path i) (path (i + 1)) := by
  induction steps generalizing scope with
  | zero => exact ⟨fun _ => scope, rfl, fun i hi => absurd hi (Nat.not_lt_zero i)⟩
  | succ steps ih =>
    rw [getWithin_succ] at h
    cases hvisit : env.visit name scope with
    | ended found =>
      rw [hvisit] at h
      cases h
    | onward parent =>
      rw [hvisit] at h
      obtain ⟨path, hstart, hpath⟩ := ih h
      refine ⟨fun i => if i = 0 then scope else path (i - 1), rfl, fun i hi => ?_⟩
      cases i with
      | zero =>
        change env.Next name scope (path 0)
        rw [hstart]
        exact hvisit
      | succ i => exact hpath i (Nat.lt_of_succ_lt_succ hi)

/-- A walk that has gone on from more scopes than there are frames has visited one of them twice. -/
theorem loops_of_path {path : Nat → ScopeId}
    (h : ∀ i < env.size + 1, env.Next name (path i) (path (i + 1))) : env.Loops name (path 0) := by
  have reaches : ∀ i j, i < j → j < env.size + 1 →
      Relation.TransGen (env.Next name) (path i) (path j) := by
    intro i j hij hj
    have hsteps : Relation.TransGen (fun a b => env.Next name (path a) (path b)) i j :=
      transGen_of_succ_of_lt _ (fun k hk => h k (by have := hk.2; omega)) hij
    exact hsteps.lift path fun _ _ hnext => hnext
  have repeated : ∀ i j, i < j → j < env.size + 1 → path i = path j →
      env.Loops name (path 0) := by
    intro i j hij hj heq
    refine ⟨path i, ?_, ?_⟩
    · rcases Nat.eq_zero_or_pos i with rfl | hi
      · exact .refl
      · exact (reaches 0 i hi (by omega)).to_reflTransGen
    · have hloop := reaches i j hij hj
      rw [← heq] at hloop
      exact hloop
  have hcard : (Finset.range env.size).card < (Finset.range (env.size + 1)).card := by simp
  obtain ⟨i, hi, j, hj, hne, heq⟩ :=
    Finset.exists_ne_map_eq_of_card_lt_of_maps_to (f := path) hcard fun i hi => by
      have hnext := h i (Finset.mem_range.mp hi)
      simpa using hnext.lt_size
  rw [Finset.mem_range] at hi hj
  rcases Nat.lt_or_gt_of_ne hne with hij | hji
  · exact repeated i j hij hj heq
  · exact repeated j i hji hi heq.symm

/-- A loop goes on. -/
theorem Loops.exists_next (h : env.Loops name scope) :
    ∃ parent, env.Next name scope parent ∧ env.Loops name parent := by
  obtain ⟨again, hreach, hloop⟩ := h
  rcases hreach.cases_head with rfl | ⟨parent, hnext, hrest⟩
  · obtain ⟨parent, hnext, hrest⟩ := Relation.TransGen.head'_iff.mp hloop
    exact ⟨parent, hnext, scope, hrest, hloop⟩
  · exact ⟨parent, hnext, again, hrest, hloop⟩

theorem Finds.not_loops (h : Finds env name scope found) : ¬ env.Loops name scope := by
  induction h with
  | ended hvisit =>
    intro hloops
    obtain ⟨parent, hnext, -⟩ := hloops.exists_next
    rw [Next, hvisit] at hnext
    cases hnext
  | onward hnext _ ih =>
    intro hloops
    obtain ⟨parent, hnext', hloops'⟩ := hloops.exists_next
    rw [Next, hnext] at hnext'
    cases hnext'
    exact ih hloops'

/-- Reading a name has no end exactly when its walk comes back to a scope. -/
theorem get_eq_none_iff : env.get scope name = none ↔ env.Loops name scope := by
  constructor
  · intro h
    obtain ⟨path, rfl, hpath⟩ := exists_path h
    exact loops_of_path hpath
  · intro hloops
    cases h : env.get scope name with
    | none => rfl
    | some value =>
      obtain ⟨found, hfinds, -⟩ := finds_of_getWithin h
      exact absurd hloops hfinds.not_loops

theorem assign_eq_none_iff {value : Value} :
    env.assign scope name value = none ↔ env.Loops name scope :=
  assignWithin_eq_none_iff.trans get_eq_none_iff

/-- Where the walk ends, reading gives the value of the name there. -/
theorem Finds.get_eq (h : Finds env name scope found) :
    env.get scope name = some (env.valueAt name found) := by
  cases hget : env.get scope name with
  | none => exact absurd (get_eq_none_iff.mp hget) h.not_loops
  | some value =>
    obtain ⟨found', h', rfl⟩ := finds_of_getWithin hget
    rw [h.unique h']

/-- Where the walk ends, assigning changes the value of the name there. -/
theorem Finds.assign_eq (h : Finds env name scope found) (value : Value) :
    env.assign scope name value = some (env.assignedAt name value found) := by
  cases hassign : env.assign scope name value with
  | none => exact absurd (assign_eq_none_iff.mp hassign) h.not_loops
  | some result =>
    obtain ⟨found', h', rfl⟩ := finds_of_assignWithin hassign
    rw [h.unique h']

end KakaLang.Environment
