import KakaLang.Proofs.Frames

/-!
Chains of scopes. While frames are pushed only under frames that are there, every parent is a lower
number than its frame, and every walk along the parents ends. Under a number that is still to be
given out, a frame may become its own parent, and then a name that it does not bind is looked for
without end. Where parents are lower, reading and assigning meet in the nearest scope that binds the
name, and an assignment is seen from the scopes that share this binding and from no others.
-/

namespace KakaLang.Environment

/-- The environments that pops, definitions, assignments and pushes under allowed parents lead
to. -/
inductive Reached (Allowed : Environment → ScopeId → Prop) : Environment → Prop where
  | initial : Reached Allowed .initial
  | push {env : Environment} {parent : ScopeId} (h : Reached Allowed env)
      (hparent : Allowed env parent) : Reached Allowed (env.push parent).2
  | pop {env : Environment} (h : Reached Allowed env) (scope : ScopeId) :
      Reached Allowed (env.pop scope)
  | define {env : Environment} (h : Reached Allowed env) (scope : ScopeId) (name : String)
      (value : Value) : Reached Allowed (env.define scope name value)
  | assign {env env' : Environment} {scope : ScopeId} {name : String} {value : Value}
      {assigned : Bool} (h : Reached Allowed env)
      (hassign : env.assign scope name value = some (assigned, env')) : Reached Allowed env'

/-- The number belongs to a frame. -/
def IsLive (env : Environment) (scope : ScopeId) : Prop := scope < env.size

instance (env : Environment) (scope : ScopeId) : Decidable (env.IsLive scope) :=
  inferInstanceAs (Decidable (scope < env.size))

/-- Every parent is a lower number than its frame. -/
def Descending (env : Environment) : Prop :=
  ∀ (i : Nat) frame parent, env.frame? i = some frame → frame.parent = some parent → parent < i

/-- The nearest scope that binds the name is the same from both scopes. -/
def SharesBinding (env : Environment) (name : String) (scope other : ScopeId) : Prop :=
  ∃ nearest, Finds env name scope (some nearest) ∧ Finds env name other (some nearest)

variable {env : Environment} {name : String} {scope nearest : ScopeId} {found : Option ScopeId}

/-- Only the parents matter. -/
theorem descending_iff :
    env.Descending ↔ ∀ (i : Nat) parent, env.parent? i = some (some parent) → parent < i := by
  constructor
  · intro h i parent hparent
    obtain ⟨frame, hframe, hframe'⟩ := Option.map_eq_some_iff.mp hparent
    exact h i frame parent hframe hframe'
  · intro h i frame parent hframe hparent
    apply h i parent
    rw [parent?, hframe, Option.map_some, hparent]

theorem Descending.push (h : env.Descending) {parent : ScopeId} (hparent : env.IsLive parent) :
    (env.push parent).2.Descending := by
  rw [descending_iff] at h ⊢
  intro i p hp
  rw [parent?_push] at hp
  split at hp
  · rename_i hi
    cases hp
    rw [hi]
    exact hparent
  · exact h i p hp

theorem Descending.pop (h : env.Descending) (scope : ScopeId) : (env.pop scope).Descending := by
  rcases Nat.eq_zero_or_pos scope with rfl | hscope
  · exact h
  · rw [descending_iff] at h ⊢
    intro i p hp
    rw [parent?_pop env hscope] at hp
    split at hp
    · exact h i p hp
    · cases hp

theorem Descending.define (h : env.Descending) (scope : ScopeId) (name : String) (value : Value) :
    (env.define scope name value).Descending := by
  rw [descending_iff] at h ⊢
  intro i p hp
  rw [parent?_define] at hp
  exact h i p hp

theorem Descending.assign (h : env.Descending) {value : Value} {assigned : Bool}
    {env' : Environment} (hassign : env.assign scope name value = some (assigned, env')) :
    env'.Descending := by
  obtain ⟨found, -, hresult⟩ := finds_of_assignWithin hassign
  cases found with
  | none =>
    cases hresult
    exact h
  | some nearest =>
    cases hresult
    exact h.define nearest name value

theorem Reached.descending (h : Reached IsLive env) : env.Descending := by
  induction h with
  | initial =>
    rw [descending_iff]
    intro i parent hparent
    cases i <;> cases hparent
  | push _ hparent ih => exact ih.push hparent
  | pop _ scope ih => exact ih.pop scope
  | define _ scope name value ih => exact ih.define scope name value
  | assign _ hassign ih => exact ih.assign hassign

/-- A walk to lower and lower numbers ends. -/
theorem Descending.finds (h : env.Descending) (name : String) (scope : ScopeId) :
    ∃ found, Finds env name scope found := by
  induction scope using Nat.strongRecOn with
  | ind scope ih =>
    cases hvisit : env.visit name scope with
    | ended found => exact ⟨found, .ended hvisit⟩
    | onward parent =>
      obtain ⟨frame, hframe, -, hparent⟩ := next_iff.mp hvisit
      obtain ⟨found, hfound⟩ := ih parent (h scope frame parent hframe hparent)
      exact ⟨found, .onward hvisit hfound⟩

/-- Reading a name and assigning to it end, unless the walk along the parents comes back to a scope
that it has visited. It never does while frames are pushed only under frames that are there. -/
theorem walks_end_unless_looping (env : Environment) (scope : ScopeId) (name : String)
    (value : Value) :
    ((∃ result, env.get scope name = some result) ↔ ¬ env.Loops name scope) ∧
    ((∃ result, env.assign scope name value = some result) ↔ ¬ env.Loops name scope) ∧
    (Reached IsLive env → ¬ env.Loops name scope) := by
  refine ⟨?_, ?_, fun hreached => ?_⟩
  · rw [← get_eq_none_iff, ← ne_eq, Option.ne_none_iff_exists']
  · rw [← assign_eq_none_iff, ← ne_eq, Option.ne_none_iff_exists']
  · obtain ⟨found, hfinds⟩ := hreached.descending.finds name scope
    exact hfinds.not_loops

/-- A block in a block, both of which lack the name. -/
theorem walks_end_unless_looping_nested :
    let env := ((initial.push 0).2.push 1).2
    Reached IsLive env ∧ ∃ result, env.get 2 "x" = some result := by
  intro env
  have hreached : Reached IsLive env :=
    .push (.push .initial (by decide)) (by decide)
  have hends := walks_end_unless_looping env 2 "x" .null
  exact ⟨hreached, hends.1.mpr (hends.2.2 hreached)⟩

/-- A frame pushed under the number that it gets itself is its own parent, and a name that it does
not bind is looked for without end. -/
theorem own_parent_has_no_end :
    let env := (initial.push 1).2
    Reached (fun _ _ => True) env ∧ env.Loops "x" 1 ∧ env.get 1 "x" = none ∧
      env.assign 1 "x" .null = none := by
  intro env
  have hnext : env.Next "x" 1 1 := rfl
  have hloops : env.Loops "x" 1 := ⟨1, .refl, .single hnext⟩
  exact ⟨.push .initial trivial, hloops, get_eq_none_iff.mpr hloops,
    assign_eq_none_iff.mpr hloops⟩

theorem Finds.binds (h : Finds env name scope (some nearest)) :
    ∃ frame, env.frame? nearest = some frame ∧ frame.bindings.binds name = true := by
  generalize hfound : some nearest = found at h
  induction h with
  | ended hvisit =>
    subst hfound
    obtain ⟨rfl, hbound⟩ := visit_eq_ended_some hvisit
    exact hbound
  | onward _ _ ih => exact ih hfound

section

variable {frame : Frame} (hframe : env.frame? nearest = some frame)

include hframe

/-- A new value for a bound name leaves every walk as it was. -/
theorem visit_define (hbinds : frame.bindings.binds name = true) (value : Value) (other : String)
    (scope : ScopeId) :
    (env.define nearest name value).visit other scope = env.visit other scope := by
  have hsame : (frame.bindings.set name value).binds other = frame.bindings.binds other := by
    unfold Bindings.binds at hbinds ⊢
    rw [Bindings.get?_set]
    split
    · rename_i heq
      rw [← heq, hbinds]
      rfl
    · rfl
  unfold visit
  rw [frame?_define]
  by_cases hscope : nearest = scope
  · subst hscope
    simp only [if_true, hframe, Option.map_some, hsame]
  · rw [if_neg hscope]

theorem Finds.define (hbinds : frame.bindings.binds name = true) (value : Value) {other : String}
    (h : Finds env other scope found) :
    Finds (env.define nearest name value) other scope found := by
  induction h with
  | ended hvisit => exact .ended ((visit_define hframe hbinds value _ _).trans hvisit)
  | onward hnext _ ih => exact .onward ((visit_define hframe hbinds value _ _).trans hnext) ih

theorem valueAt_define (value : Value) (other : String) (found : Option ScopeId) :
    (env.define nearest name value).valueAt other found =
      if other = name ∧ found = some nearest then some value else env.valueAt other found := by
  cases found with
  | none => simp [valueAt]
  | some scope =>
    rw [valueAt, frame?_define]
    by_cases hscope : nearest = scope
    · subst hscope
      by_cases hother : other = name
      · simp [hframe, Bindings.get?_set, hother]
      · simp [hframe, Bindings.get?_set, hother, Ne.symm hother, valueAt]
    · simp [hscope, Ne.symm hscope, valueAt]

end

/-- Where every parent is lower than its frame, assigning finds a binding exactly when reading does,
and changes nothing otherwise. Afterwards the new value is read from every scope that shares the
binding, and everything else reads as before. Pushes under frames that are there keep every parent
lower. -/
theorem assign_meets_get :
    (∀ env : Environment, env.Descending → ∀ scope name value, ∃ assigned env' old,
      env.assign scope name value = some (assigned, env') ∧ env.get scope name = some old ∧
      (assigned = true ↔ old.isSome) ∧ (assigned = false → env' = env) ∧
      (assigned = true → ∀ other name',
        (name' = name ∧ env.SharesBinding name scope other →
          env'.get other name' = some (some value)) ∧
        (¬ (name' = name ∧ env.SharesBinding name scope other) →
          env'.get other name' = env.get other name'))) ∧
    ∀ env, Reached IsLive env → env.Descending := by
  refine ⟨fun env henv scope name value => ?_, fun env h => h.descending⟩
  obtain ⟨found, hfinds⟩ := henv.finds name scope
  refine ⟨_, _, _, hfinds.assign_eq value, hfinds.get_eq, ?_⟩
  cases found with
  | none => exact ⟨by simp [valueAt], fun _ => rfl, fun h => by cases h⟩
  | some nearest =>
    obtain ⟨frame, hframe, hbinds⟩ := hfinds.binds
    refine ⟨?_, fun h => (by cases h), fun _ other name' => ?_⟩
    · have hbound : (frame.bindings.get? name).isSome = true := hbinds
      simp [valueAt, hframe, hbound]
    · obtain ⟨found', hfinds'⟩ := henv.finds name' other
      change (_ → (env.define nearest name value).get other name' = _) ∧
        (_ → (env.define nearest name value).get other name' = _)
      rw [(hfinds'.define hframe hbinds value).get_eq, hfinds'.get_eq, valueAt_define hframe]
      constructor
      · rintro ⟨rfl, nearest', hscope, hother⟩
        cases hfinds.unique hscope
        rw [if_pos ⟨rfl, hfinds'.unique hother⟩]
      · intro hapart
        rw [if_neg]
        rintro ⟨rfl, rfl⟩
        exact hapart ⟨rfl, nearest, hfinds, hfinds'⟩

/-- A name bound in a block and globally, assigned in a block inside, seen from there and from the
frame of a call. -/
theorem assign_meets_get_shadowed :
    let outer := ((initial.define 0 "x" (.string "a")).push 0).2.define 1 "x" (.string "b")
    let env := ((outer.push 1).2.push 0).2
    Reached IsLive env ∧ ∃ env', env.assign 2 "x" .null = some (true, env') ∧
      env'.get 1 "x" = some (some .null) ∧ env'.get 3 "x" = env.get 3 "x" := by
  intro outer env
  have hglobal : IsLive (initial.define 0 "x" (.string "a")) 0 := by decide
  have hblock : IsLive outer 1 := by decide
  have hcall : IsLive (outer.push 1).2 0 := by decide
  have hreached : Reached IsLive env :=
    .push (.push (.define (.push (.define .initial _ _ _) hglobal) _ _ _) hblock) hcall
  have hblocks : ∀ scope, scope = 1 ∨ scope = 2 → Finds env "x" scope (some 1) := by
    rintro scope (rfl | rfl)
    · exact .ended rfl
    · exact .onward rfl (.ended rfl)
  have hfar : ¬ ("x" = "x" ∧ env.SharesBinding "x" 2 3) := by
    rintro ⟨-, nearest, hnear, hother⟩
    cases (hblocks 2 (.inr rfl)).unique hnear
    cases (Finds.onward rfl (.ended rfl) : Finds env "x" 3 (some 0)).unique hother
  obtain ⟨hmeets, hdescending⟩ := assign_meets_get
  obtain ⟨assigned, env', old, hassign, hget, hiff, -, hafter⟩ :=
    hmeets env (hdescending env hreached) 2 "x" .null
  cases (rfl : env.get 2 "x" = some (some (.string "b"))).symm.trans hget
  cases hiff.mpr rfl
  exact ⟨hreached, env', hassign,
    (hafter rfl 1 "x").1 ⟨rfl, 1, hblocks 2 (.inr rfl), hblocks 1 (.inl rfl)⟩,
    (hafter rfl 3 "x").2 hfar⟩

end KakaLang.Environment
