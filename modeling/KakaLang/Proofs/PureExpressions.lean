import KakaLang.Proofs.Ending
import KakaLang.Proofs.HeapMatching

/-!
Expressions without calls, assignments and input. Evaluating one changes nothing but that arrays may
be added, and fails only for a name that is not bound or a member that there is not. What it gives
depends on the values of its names and on the arrays, and on nothing else: two machines that agree
on these evaluate it in step, whatever their scopes, limits and consoles are. The second machine may
have the same arrays at other places.
-/

namespace KakaLang

namespace Expr

mutual

/-- No call, no assignment and no input occurs in the expression. -/
def isPure : Expr → Bool
  | .literal _ _ | .ident _ _ => true
  | .binary _ left right _ | .logical _ left right _ => left.isPure && right.isPure
  | .assign _ _ _ | .input _ | .call _ _ _ => false
  | .array elements _ => arePure elements
  | .member object property _ => object.isPure && property.isPure

def arePure : List Expr → Bool
  | [] => true
  | e :: es => e.isPure && arePure es

end

mutual

/-- The names that occur in an expression. -/
def names : Expr → List String
  | .literal _ _ | .input _ => []
  | .ident name _ => [name]
  | .binary _ left right _ | .logical _ left right _ => left.names ++ right.names
  | .assign name value _ => name :: value.names
  | .call callee arguments _ => callee.names ++ namesAll arguments
  | .array elements _ => namesAll elements
  | .member object property _ => object.names ++ property.names

def namesAll : List Expr → List String
  | [] => []
  | e :: es => e.names ++ namesAll es

end

end Expr

/-- The errors for a name that is not bound and for a member that there is not. -/
def RuntimeError.isMissing : RuntimeError → Bool
  | .undefinedVariable _ _ | .unsupportedMember _ => true
  | _ => false

namespace Machine

/-- All is as before, except that there may be more arrays. -/
structure OnlyAdds (m m' : Machine) : Prop where
  rest : m' = { m with heap := m'.heap }
  size : m.heap.size ≤ m'.heap.size
  elements : ∀ id < m.heap.size, m'.heap.elements id = m.heap.elements id

theorem OnlyAdds.refl (m : Machine) : OnlyAdds m m := ⟨rfl, Nat.le_refl _, fun _ _ => rfl⟩

theorem OnlyAdds.env {m m' : Machine} (h : OnlyAdds m m') : m'.env = m.env := by
  rw [h.rest]

theorem OnlyAdds.alloc {m m' : Machine} (h : OnlyAdds m m') (elements : Array Value) :
    OnlyAdds m { m' with heap := (m'.heap.alloc elements).2 } := by
  refine ⟨?_, ?_, fun id hid => ?_⟩
  · rw [h.rest]
  · rw [Heap.size_alloc]
    exact Nat.le_succ_of_le h.size
  · have hold : id ≠ m'.heap.size := Nat.ne_of_lt (Nat.lt_of_lt_of_le hid h.size)
    rw [Heap.elements_alloc, if_neg hold, h.elements id hid]

/-- Machines that came from two others by arrays that were added, and whose heaps match. -/
structure Matches (rel : ArrayId → ArrayId → Prop) (base base' m m' : Machine) : Prop where
  left : base.OnlyAdds m
  right : base'.OnlyAdds m'
  heap : m.heap.Matches rel m'.heap

/-- From its scope in each machine the name has matching values, is bound in neither, or leads to no
end in either. -/
def ReadAlike (rel : ArrayId → ArrayId → Prop) (m m' : Machine) (scope scope' : ScopeId)
    (name : String) : Prop :=
  Option.Rel (Option.Rel (Value.Matches rel)) (m.env.get scope name) (m'.env.get scope' name)

end Machine

/-- Results that match, in machines that do, where the only faults are for what is missing. -/
inductive ResultsMatch (rel : ArrayId → ArrayId → Prop) (base base' : Machine) {α β : Type}
    (R : α → β → Prop) : EStateM.Result Halt Machine α → EStateM.Result Halt Machine β → Prop
  | ok {a : α} {b : β} {m m' : Machine} (hvalue : R a b)
      (h : Machine.Matches rel base base' m m') :
      ResultsMatch rel base base' R (.ok a m) (.ok b m')
  | fault {e : RuntimeError} {m m' : Machine} (he : e.isMissing = true)
      (h : Machine.Matches rel base base' m m') :
      ResultsMatch rel base base' R (.error (.fault e) m) (.error (.fault e) m')
  | cut {m m' : Machine} (h : Machine.Matches rel base base' m m') :
      ResultsMatch rel base base' R (.error .cut m) (.error .cut m')

/-- Values that match, or the same error. -/
inductive OutcomesMatch (rel : ArrayId → ArrayId → Prop) :
    Except RuntimeError Value → Except RuntimeError Value → Prop
  | ok {v v' : Value} (h : v.Matches rel v') : OutcomesMatch rel (.ok v) (.ok v')
  | error (e : RuntimeError) : OutcomesMatch rel (.error e) (.error e)

theorem OutcomesMatch.eq {result result' : Except RuntimeError Value}
    (h : OutcomesMatch Eq result result') : result' = result := by
  cases h with
  | ok h => rw [Value.matches_eq_iff.mp h]
  | error e => rfl

/-- From matching machines the actions have matching results. -/
def Matched (rel : ArrayId → ArrayId → Prop) (base base' : Machine) (R : α → β → Prop)
    (x : Action α) (y : Action β) : Prop :=
  ∀ m m', Machine.Matches rel base base' m m' → ResultsMatch rel base base' R (x m) (y m')

namespace Matched

variable {rel : ArrayId → ArrayId → Prop} {base base' : Machine}

theorem pure {R : α → β → Prop} {a : α} {b : β} (h : R a b) :
    Matched rel base base' R (Pure.pure a) (Pure.pure b) := fun _ _ hm => .ok h hm

theorem fault {R : α → β → Prop} {e : RuntimeError} (he : e.isMissing = true) :
    Matched rel base base' R (Action.fault e) (Action.fault e) := fun _ _ hm => .fault he hm

theorem cut {R : α → β → Prop} : Matched rel base base' R Action.cut Action.cut :=
  fun _ _ hm => .cut hm

theorem bind {R : α → β → Prop} {S : γ → δ → Prop} {x : Action α} {y : Action β}
    {f : α → Action γ} {g : β → Action δ} (hx : Matched rel base base' R x y)
    (hf : ∀ a b, R a b → Matched rel base base' S (f a) (g b)) :
    Matched rel base base' S (x >>= f) (y >>= g) := by
  intro m m' hm
  have hresults := hx m m' hm
  generalize hleft : x m = left at hresults
  generalize hright : y m' = right at hresults
  cases hresults with
  | ok hvalue h =>
    rw [Action.bind_ok hleft, Action.bind_ok hright]
    exact hf _ _ hvalue _ _ h
  | fault he h =>
    rw [Action.bind_error hleft, Action.bind_error hright]
    exact .fault he h
  | cut h =>
    rw [Action.bind_error hleft, Action.bind_error hright]
    exact .cut h

theorem alloc {elements elements' : Array Value}
    (h : List.Forall₂ (Value.Matches rel) elements.toList elements'.toList) :
    Matched rel base base' rel (Action.alloc elements) (Action.alloc elements') := by
  intro m m' hm
  exact .ok (hm.heap.fresh 0) ⟨hm.left.alloc elements, hm.right.alloc elements', hm.heap.alloc h⟩

theorem lookup {scope scope' : ScopeId} {name : String} (line : Nat)
    (h : Machine.ReadAlike rel base base' scope scope' name) :
    Matched rel base base' (Value.Matches rel) (Evaluation.lookup scope name line)
      (Evaluation.lookup scope' name line) := by
  intro m m' hm
  unfold Evaluation.lookup
  rw [Action.get_bind, Action.get_bind, hm.left.env, hm.right.env]
  unfold Machine.ReadAlike at h
  generalize base.env.get scope name = found at h
  generalize base'.env.get scope' name = found' at h
  cases h with
  | none => exact .cut hm
  | some h =>
    cases h with
    | none => exact .fault rfl hm
    | some h => exact .ok h hm

theorem member {object object' property property' : Value}
    (hobject : Value.Matches rel object object')
    (hproperty : Value.Matches rel property property') (line : Nat) :
    Matched rel base base' (Value.Matches rel) (Evaluation.member object property line)
      (Evaluation.member object' property' line) := by
  cases hobject with
  | array hid =>
    cases hproperty with
    | number x =>
      intro m m' hm
      refine .ok ?_ hm
      cases Number.toNat? x with
      | none => exact .undefined
      | some i => exact hm.heap.element hid i
    | string name =>
      unfold Evaluation.member
      dsimp only
      split
      · intro m m' hm
        refine .ok ?_ hm
        rw [hm.heap.size_elements hid]
        exact .number _
      · cases ArrayMethod.ofName? name with
        | some m => exact pure (.method m hid)
        | none => exact fault rfl
    | _ => exact fault rfl
  | _ => exact fault rfl

end Matched

namespace Evaluation

theorem readAlike_of_eq {m m' : Machine} {scope scope' : ScopeId} {name : String}
    (h : m'.env.get scope' name = m.env.get scope name) :
    Machine.ReadAlike Eq m m' scope scope' name := by
  unfold Machine.ReadAlike
  rw [h]
  rcases m.env.get scope name with _ | _ | value
  · exact .none
  · exact .some .none
  · exact .some (.some (Value.matches_eq_iff.mpr rfl))

variable {rel : ArrayId → ArrayId → Prop} {base base' : Machine} {settings : Settings}
  {scope scope' : ScopeId}

theorem decides_matches (op : LogicalOp) {v v' : Value} (h : v.Matches rel v') :
    decides op v' = decides op v := by
  unfold decides
  rw [h.isTruthy]

/-- Pure expressions are evaluated in step. The induction is on the steps, and a list of expressions
has a step for each of them. -/
theorem matched_eval (settings' : Settings) (steps : Nat) :
    (∀ e : Expr, e.isPure = true →
      (∀ name ∈ e.names, Machine.ReadAlike rel base base' scope scope' name) →
      Matched rel base base' (Value.Matches rel) (eval settings steps e scope)
        (eval settings' steps e scope')) ∧
    ∀ (es : List Expr) (found found' : Array Value), Expr.arePure es = true →
      (∀ name ∈ Expr.namesAll es, Machine.ReadAlike rel base base' scope scope' name) →
      List.Forall₂ (Value.Matches rel) found.toList found'.toList →
      Matched rel base base' (fun vs vs' => List.Forall₂ (Value.Matches rel) vs.toList vs'.toList)
        (evalAll settings steps found es scope) (evalAll settings' steps found' es scope') := by
  induction steps with
  | zero =>
    constructor
    · intro e _ _
      rw [eval, eval]
      exact .cut
    · intro es found found' _ _ _
      rw [evalAll, evalAll]
      exact .cut
  | succ steps ih =>
    obtain ⟨ih, ihAll⟩ := ih
    constructor
    · intro e hpure hnames
      cases e with
      | literal value line =>
        rw [eval, eval]
        apply Matched.pure
        cases value <;> constructor
      | ident name line =>
        rw [eval, eval]
        exact .lookup line (hnames name List.mem_cons_self)
      | binary op left right line =>
        rw [Expr.isPure, Bool.and_eq_true] at hpure
        rw [Expr.names, List.forall_mem_append] at hnames
        rw [eval, eval]
        apply (ih left hpure.1 hnames.1).bind
        intro v v' hv
        apply (ih right hpure.2 hnames.2).bind
        intro w w' hw
        exact fun m m' hm => .ok (hv.apply op hw hm.heap) hm
      | logical op left right line =>
        rw [Expr.isPure, Bool.and_eq_true] at hpure
        rw [Expr.names, List.forall_mem_append] at hnames
        rw [eval, eval]
        apply (ih left hpure.1 hnames.1).bind
        intro v v' hv
        rw [decides_matches op hv]
        split
        · exact .pure hv
        · exact ih right hpure.2 hnames.2
      | array elements line =>
        rw [eval, eval]
        apply (ihAll elements #[] #[] hpure hnames .nil).bind
        intro vs vs' hvs
        exact (Matched.alloc hvs).bind fun id id' hid => .pure (.array hid)
      | member object property line =>
        rw [Expr.isPure, Bool.and_eq_true] at hpure
        rw [Expr.names, List.forall_mem_append] at hnames
        rw [eval, eval]
        apply (ih object hpure.1 hnames.1).bind
        intro v v' hv
        apply (ih property hpure.2 hnames.2).bind
        intro w w' hw
        exact .member hv hw line
      | assign name value line => cases hpure
      | input line => cases hpure
      | call callee arguments line => cases hpure
    · intro es found found' hpure hnames hfound
      cases es with
      | nil =>
        rw [evalAll, evalAll]
        exact .pure hfound
      | cons e es =>
        rw [Expr.arePure, Bool.and_eq_true] at hpure
        rw [Expr.namesAll, List.forall_mem_append] at hnames
        rw [evalAll, evalAll]
        apply (ih e hpure.1 hnames.1).bind
        intro v v' hv
        refine ihAll es _ _ hpure.2 hnames.2 ?_
        rw [Array.toList_push, Array.toList_push]
        exact List.rel_append hfound (.cons hv .nil)

/-- A run that matches one that has ended has ended too. -/
theorem exists_ended {result : Except RuntimeError Value} {m : Machine}
    {right : EStateM.Result Halt Machine Value}
    (h : ResultsMatch rel base base' (Value.Matches rel) (ended result m) right) :
    ∃ result' m', right = ended result' m' ∧ OutcomesMatch rel result result' ∧
      (∀ e, result = .error e → e.isMissing = true) ∧ Machine.Matches rel base base' m m' := by
  cases result with
  | ok v =>
    cases h with
    | @ok _ v' _ m' hvalue hm => exact ⟨.ok v', m', rfl, .ok hvalue, by simp, hm⟩
  | error e =>
    cases h with
    | @fault _ _ m' he hm =>
      refine ⟨.error e, m', rfl, .error e, ?_, hm⟩
      rintro _ ⟨⟩
      exact he

theorem eval_in_step (settings' : Settings) {e : Expr} {steps : Nat} {m m' m₁ : Machine}
    {result : Except RuntimeError Value} (hpure : e.isPure = true)
    (hrun : eval settings steps e scope m = ended result m₁)
    (hheap : m.heap.Matches rel m'.heap)
    (hnames : ∀ name ∈ e.names, Machine.ReadAlike rel m m' scope scope' name) :
    ∃ result' m₁', eval settings' steps e scope' m' = ended result' m₁' ∧
      OutcomesMatch rel result result' ∧ (∀ e, result = .error e → e.isMissing = true) ∧
      Machine.Matches rel m m' m₁ m₁' := by
  have hmatches : Machine.Matches rel m m' m m' := ⟨.refl m, .refl m', hheap⟩
  have hresults : ResultsMatch rel m m' (Value.Matches rel) (eval settings steps e scope m)
      (eval settings' steps e scope' m') :=
    (matched_eval settings' steps).1 e hpure hnames m m' hmatches
  rw [hrun] at hresults
  exact exists_ended hresults

/-- The evaluation of an expression without calls, assignments and input, if it ends, leaves all as
it was but for arrays that are added, and fails only for a missing name or member. On another
machine, from any scope and with any limits, it ends in the same way if the names have the same
values and the heap is the same. If the heap is the same but for the places of the arrays, so is the
outcome. -/
theorem pure_expressions_only_read {e : Expr} {m m₁ : Machine}
    {result : Except RuntimeError Value} (hpure : e.isPure = true)
    (h : Ends (fun steps => eval settings steps e scope) m result m₁) :
    m.OnlyAdds m₁ ∧
    (∀ err, result = .error err → (∃ name line, err = .undefinedVariable name line) ∨
      ∃ line, err = .unsupportedMember line) ∧
    (∀ settings' scope' m', m'.heap = m.heap →
      (∀ name ∈ e.names, m'.env.get scope' name = m.env.get scope name) →
      Ends (fun steps => eval settings' steps e scope') m' result { m' with heap := m₁.heap }) ∧
    ∀ rel settings' scope' m', m.heap.Matches rel m'.heap →
      (∀ name ∈ e.names, Machine.ReadAlike rel m m' scope scope' name) →
      ∃ result' m₁', Ends (fun steps => eval settings' steps e scope') m' result' m₁' ∧
        OutcomesMatch rel result result' ∧ m₁.heap.Matches rel m₁'.heap := by
  obtain ⟨steps, hrun⟩ := h
  have hself (name : String) (_ : name ∈ e.names) : Machine.ReadAlike Eq m m scope scope name :=
    readAlike_of_eq rfl
  -- The run is compared with itself for what it does to one machine.
  obtain ⟨-, -, -, -, hmissing, hadds, -⟩ :=
    eval_in_step settings hpure hrun m.heap.matches_self hself
  refine ⟨hadds, fun err herr => ?_, fun settings' scope' m' hheap hnames => ?_,
    fun rel settings' scope' m' hheap hnames => ?_⟩
  · have hkind := hmissing err herr
    cases err with
    | undefinedVariable name line => exact .inl ⟨name, line, rfl⟩
    | unsupportedMember line => exact .inr ⟨line, rfl⟩
    | _ => cases hkind
  · have hheap' : m.heap.Matches Eq m'.heap := by
      rw [hheap]
      exact m.heap.matches_self
    have hnames' (name : String) (hname : name ∈ e.names) :
        Machine.ReadAlike Eq m m' scope scope' name := readAlike_of_eq (hnames name hname)
    obtain ⟨result', m₁', hrun', houtcomes, -, hmatches⟩ :=
      eval_in_step settings' hpure hrun hheap' hnames'
    rw [← houtcomes.eq, ← Heap.eq_of_matches hmatches.heap, ← hmatches.right.rest]
    exact ⟨steps, hrun'⟩
  · obtain ⟨result', m₁', hrun', houtcomes, -, hmatches⟩ :=
      eval_in_step settings' hpure hrun hheap hnames
    exact ⟨result', m₁', ⟨steps, hrun'⟩, houtcomes, hmatches.heap⟩

/-- An array around the array of a name. The other machine has one array more and binds the name in
an inner scope. -/
theorem pure_expressions_only_read_moved :
    let e : Expr := .array [.ident "a" 1] 1
    let m : Machine := { env := ⟨#[⟨none, [("a", .array 0)]⟩]⟩, heap := ⟨#[#[.string "x"]]⟩ }
    let m' : Machine :=
      { env := ⟨#[⟨none, []⟩, ⟨some globalScope, [("a", .array 1)]⟩]⟩
        heap := ⟨#[#[], #[.string "x"]]⟩ }
    ∃ m₁ m₁', Ends (fun steps => eval {} steps e globalScope) m (.ok (.array 1)) m₁ ∧
      m.OnlyAdds m₁ ∧ Ends (fun steps => eval {} steps e 1) m' (.ok (.array 2)) m₁' := by
  intro e m m'
  have hends : Ends (fun steps => eval {} steps e globalScope) m (.ok (.array 1))
      { m with heap := ⟨#[#[.string "x"], #[.array 0]]⟩ } := by
    refine ⟨3, ?_⟩
    simp only [e, eval, evalAll]
    rfl
  have hheap : m.heap.Matches (fun id id' => id' = id + 1) m'.heap := by
    refine ⟨⟨fun _ _ _ h h' => ?_, fun _ _ _ h h' => h.trans h'.symm⟩, ?_, fun k => ?_⟩
    · exact Nat.succ.inj (h.symm.trans h')
    · rintro id _ rfl
      cases id with
      | zero => exact .cons (.string "x") .nil
      | succ id => exact .nil
    · exact Nat.add_right_comm 1 1 k
  have hnames : ∀ name ∈ e.names,
      Machine.ReadAlike (fun id id' => id' = id + 1) m m' globalScope 1 name := by
    intro name hname
    rw [List.mem_singleton.mp hname]
    exact .some (.some (.array rfl))
  obtain ⟨hadds, -, -, hmoved⟩ := pure_expressions_only_read rfl hends
  obtain ⟨result', m₁', hends', houtcomes, -⟩ := hmoved _ {} 1 m' hheap hnames
  cases houtcomes with
  | ok hvalue =>
    cases hvalue with
    | array hid =>
      rw [hid] at hends'
      exact ⟨_, m₁', hends, hadds, hends'⟩

end Evaluation

end KakaLang
