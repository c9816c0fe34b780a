import KakaLang.Proofs.Ending
import KakaLang.Proofs.Mirroring

/-!
A called function and its caller. The body of a function runs in a frame under the global one, so
names are looked up in the frames of the call and in the global frame, and nowhere else. Two
machines that agree on the global frame and on everything that is not a frame therefore make the
same call in the same way, whatever their other frames are, and those are left as they were.
-/

namespace KakaLang

open KakaLang.Action (final)

namespace Machine

/-- The machines have the same arrays and console, and the same counts of lines and open calls. -/
structure Shares (m m' : Machine) : Prop where
  heap : m.heap = m'.heap
  console : m.console = m'.console
  printed : m.printed = m'.printed
  callDepth : m.callDepth = m'.callDepth

/-- The machines agree on all that is not a frame, and their global frames, which have no parents,
bind the same names to the same values. -/
structure Agrees (m m' : Machine) : Prop extends Shares m m' where
  globals : ∃ bindings bindings', m.env.frame? globalScope = some ⟨none, bindings⟩ ∧
    m'.env.frame? globalScope = some ⟨none, bindings'⟩ ∧ Bindings.Agree bindings bindings'

/-- The machines agree on all that is not a frame, and their environments mirror each other. -/
structure Mirrors (base base' : Environment) (height : Nat) (m m' : Machine) : Prop
    extends Shares m m' where
  env : Environment.Mirrors base base' height m.env m'.env

variable {base base' : Environment} {height : Nat} {m m' : Machine}

/-- Machines that agree mirror each other before any frame is put on top. -/
theorem Agrees.mirrors (h : Agrees m m') : Mirrors m.env m'.env 0 m m' := by
  obtain ⟨bindings, bindings', hglobal, hglobal', hagree⟩ := h.globals
  have hnonempty : 0 < m.env.size := (Array.getElem?_eq_some_iff.mp hglobal).1
  have hnonempty' : 0 < m'.env.size := (Array.getElem?_eq_some_iff.mp hglobal').1
  refine ⟨h.toShares, ⟨hnonempty, rfl, fun _ _ _ => rfl⟩, ⟨hnonempty', rfl, fun _ _ _ => rfl⟩,
    fun rank hrank => ?_⟩
  obtain rfl : rank = 0 := Nat.le_zero.mp hrank
  exact ⟨_, _, hglobal, hglobal', hagree, .inl ⟨rfl, rfl⟩⟩

theorem Mirrors.agrees (h : Mirrors base base' height m m') : Agrees m m' := by
  obtain ⟨⟨parent, bindings⟩, ⟨parent', bindings'⟩, hglobal, hglobal', hagree, hparents⟩ :=
    h.env.frames 0 (Nat.zero_le height)
  rcases hparents with ⟨hnone, hnone'⟩ | ⟨lower, hlower, -⟩
  · cases hnone
    cases hnone'
    exact ⟨h.toShares, bindings, bindings', hglobal, hglobal', hagree⟩
  · exact absurd hlower (Nat.not_lt_zero lower)

theorem Agrees.symm (h : Agrees m m') : Agrees m' m := by
  obtain ⟨bindings, bindings', hglobal, hglobal', hagree⟩ := h.globals
  exact ⟨⟨h.heap.symm, h.console.symm, h.printed.symm, h.callDepth.symm⟩, bindings', bindings,
    hglobal', hglobal, fun name => (hagree name).symm⟩

/-- Every frame but the global one is as it was. -/
def KeepsFrames (before after : Machine) : Prop :=
  ∀ i ≠ globalScope, after.env.frame? i = before.env.frame? i

theorem keepsFrames_of_extends (h : Environment.Extends m.env m'.env 0) : KeepsFrames m m' := by
  intro i hi
  by_cases hlt : i < m.env.size
  · exact h.between i (Nat.pos_of_ne_zero hi) hlt
  · have hsize : m'.env.size = m.env.size := h.size
    have hout : m.env.frame? i = none := Array.getElem?_eq_none (Nat.not_lt.mp hlt)
    rw [← hsize] at hlt
    have hout' : m'.env.frame? i = none := Array.getElem?_eq_none (Nat.not_lt.mp hlt)
    rw [hout, hout']

end Machine

open Machine (Mirrors)

/-- Results that are the same, in machines that mirror each other. -/
inductive ResultsMirror (base base' : Environment) (height : Nat) {α : Type} :
    EStateM.Result Halt Machine α → EStateM.Result Halt Machine α → Prop
  | ok {a : α} {m m' : Machine} (h : Mirrors base base' height m m') :
      ResultsMirror base base' height (.ok a m) (.ok a m')
  | error {halt : Halt} {m m' : Machine} (h : Mirrors base base' height m m') :
      ResultsMirror base base' height (.error halt m) (.error halt m')

/-- From machines that mirror each other the actions have the same result. -/
def Mirrored (base base' : Environment) (height : Nat) (x y : Action α) : Prop :=
  ∀ m m', Mirrors base base' height m m' → ResultsMirror base base' height (x m) (y m')

namespace Mirrored

variable {base base' : Environment} {height : Nat}

theorem pure (a : α) : Mirrored base base' height (Pure.pure a) (Pure.pure a) :=
  fun _ _ h => .ok h

theorem fault (e : RuntimeError) :
    Mirrored base base' height (Action.fault e : Action α) (Action.fault e) :=
  fun _ _ h => .error h

theorem cut : Mirrored base base' height (Action.cut : Action α) Action.cut :=
  fun _ _ h => .error h

theorem bind {x y : Action α} {f g : α → Action β} (hx : Mirrored base base' height x y)
    (hf : ∀ a, Mirrored base base' height (f a) (g a)) :
    Mirrored base base' height (x >>= f) (y >>= g) := by
  intro m m' h
  have hresults := hx m m' h
  generalize hleft : x m = left at hresults
  generalize hright : y m' = right at hresults
  cases hresults with
  | ok hm =>
    rw [Action.bind_ok hleft, Action.bind_ok hright]
    exact hf _ _ _ hm
  | error hm =>
    rw [Action.bind_error hleft, Action.bind_error hright]
    exact .error hm

theorem modifyGet {f g : Machine → α × Machine} (h : ∀ m m', Mirrors base base' height m m' →
    (f m).1 = (g m').1 ∧ Mirrors base base' height (f m).2 (g m').2) :
    Mirrored base base' height (MonadState.modifyGet f : Action α) (MonadState.modifyGet g) := by
  intro m m' hm
  obtain ⟨hvalue, hmirrors⟩ := h m m' hm
  change ResultsMirror base base' height (.ok (f m).1 (f m).2) (.ok (g m').1 (g m').2)
  rw [hvalue]
  exact .ok hmirrors

/-- What comes after a look at the machine need only be right for the two machines looked at. -/
theorem get_bind {f g : Machine → Action α} (h : ∀ m m', Mirrors base base' height m m' →
    ResultsMirror base base' height (f m m) (g m' m')) :
    Mirrored base base' height (MonadState.get >>= f) (MonadState.get >>= g) :=
  fun m m' hm => h m m' hm

theorem note (r : Record) : Mirrored base base' height (Action.note r) (Action.note r) :=
  modifyGet fun _ _ h => ⟨rfl, ⟨h.heap, h.console, h.printed, h.callDepth⟩, h.env⟩

theorem define (rank : Nat) (name : String) (value : Value) :
    Mirrored base base' height (Action.define (place base.size rank) name value)
      (Action.define (place base'.size rank) name value) :=
  modifyGet fun _ _ h =>
    ⟨rfl, ⟨h.heap, h.console, h.printed, h.callDepth⟩, h.env.define rank name value⟩

/-- A change to the arrays that depends on nothing else. -/
theorem changeHeap (f : Heap → α × Heap) :
    Mirrored base base' height
      (MonadState.modifyGet fun m => ((f m.heap).1, { m with heap := (f m.heap).2 }))
      (MonadState.modifyGet fun m => ((f m.heap).1, { m with heap := (f m.heap).2 })) := by
  apply modifyGet
  intro m m' h
  refine ⟨?_, ⟨?_, h.console, h.printed, h.callDepth⟩, h.env⟩
  · rw [h.heap]
  · change (f m.heap).2 = (f m'.heap).2
    rw [h.heap]

theorem alloc (elements : Array Value) :
    Mirrored base base' height (Action.alloc elements) (Action.alloc elements) :=
  changeHeap fun heap => heap.alloc elements

theorem callMethod (method : ArrayMethod) (receiver : ArrayId) (arguments : Array Value) :
    Mirrored base base' height (Evaluation.callMethod method receiver arguments)
      (Evaluation.callMethod method receiver arguments) :=
  changeHeap fun heap => method.call receiver arguments heap

theorem checkTime {left right : Settings} (hleft : left.limits.time = none)
    (hright : right.limits.time = none) (line : Nat) :
    Mirrored base base' height (Action.checkTime left line) (Action.checkTime right line) := by
  rw [Action.checkTime_of_none hleft, Action.checkTime_of_none hright]
  exact modifyGet fun _ _ h => ⟨rfl, ⟨h.heap, h.console, h.printed, h.callDepth⟩, h.env⟩

theorem print {left right : Settings}
    (hlimit : left.limits.outputLines = right.limits.outputLines) (text : String) (line : Nat) :
    Mirrored base base' height (Action.print left text line) (Action.print right text line) := by
  intro m m' h
  rw [Action.print_eq, Action.print_eq, hlimit, h.printed]
  cases right.limits.outputLines.filter (· ≤ m'.printed) with
  | some limit => exact .error h
  | none =>
    refine .ok ⟨⟨h.heap, ?_, rfl, h.callDepth⟩, h.env⟩
    exact congrArg (·.put (.line text)) h.console

/-- Both machines show the prompt and take the same answer, or have none. -/
theorem ask (prompt : String) :
    Mirrored base base' height (Action.ask prompt) (Action.ask prompt) := by
  unfold Action.ask
  apply bind
  · apply modifyGet
    intro m m' h
    exact ⟨rfl, ⟨h.heap, congrArg (·.put (.prompt prompt)) h.console, h.printed, h.callDepth⟩,
      h.env⟩
  · intro _
    apply get_bind
    intro m m' h
    simp only [h.console]
    cases m'.console.answers with
    | cons answer rest =>
      refine .ok ⟨⟨h.heap, ?_, h.printed, h.callDepth⟩, h.env⟩
      exact congrArg (fun console : Console => { console with answers := rest }) h.console
    | nil =>
      cases m'.console.closed with
      | true => exact .ok h
      | false => exact .error h

theorem input (line : Nat) :
    Mirrored base base' height (Evaluation.input line) (Evaluation.input line) := by
  unfold Evaluation.input
  apply bind (ask _)
  intro answer
  cases answer with
  | none => exact bind (note _) fun _ => pure _
  | some answer => exact pure _

theorem readHeap (f : Heap → α) :
    Mirrored base base' height (do return f (← get).heap) (do return f (← get).heap) := by
  apply get_bind
  intro m m' h
  rw [h.heap]
  exact .ok h

theorem member (object property : Value) (line : Nat) :
    Mirrored base base' height (Evaluation.member object property line)
      (Evaluation.member object property line) := by
  unfold Evaluation.member
  split
  · rename_i id x
    exact readHeap fun heap =>
      ((Number.toNat? x).bind ((heap.elements id)[·]?)).getD .undefined
  · rename_i id name
    split
    · exact readHeap fun heap => Value.number (Float.ofNat (heap.elements id).size)
    · split
      · exact pure _
      · exact fault _
  · exact fault _

theorem lookup (name : String) (line : Nat) :
    Mirrored base base' height (Evaluation.lookup (place base.size height) name line)
      (Evaluation.lookup (place base'.size height) name line) := by
  unfold Evaluation.lookup
  apply get_bind
  intro m m' h
  obtain ⟨value, hvalue, hvalue'⟩ := h.env.get name
  rw [hvalue, hvalue']
  cases value with
  | some value => exact .ok h
  | none => exact .error h

theorem assign (name : String) (value : Value) (line : Nat) :
    Mirrored base base' height (Evaluation.assign (place base.size height) name value line)
      (Evaluation.assign (place base'.size height) name value line) := by
  unfold Evaluation.assign
  apply get_bind
  intro m m' h
  obtain ⟨assigned, env, env', hassign, hassign', henv⟩ := h.env.assign name value
  have hmirrors : Mirrors base base' height { m with env := env } { m' with env := env' } :=
    ⟨⟨h.heap, h.console, h.printed, h.callDepth⟩, henv⟩
  rw [hassign, hassign']
  cases assigned with
  | true => exact .ok hmirrors
  | false => exact .error hmirrors

theorem enterCall {left right : Settings} (hleft : left.limits.time = none)
    (hright : right.limits.time = none) (hdepth : left.limits.callDepth = right.limits.callDepth)
    (f : Function) (arguments : Array Value) (line : Nat) :
    Mirrored base base' height (Evaluation.enterCall left f arguments line)
      (Evaluation.enterCall right f arguments line) := by
  intro m m' h
  rw [Evaluation.enterCall_eq, Evaluation.enterCall_eq, hdepth, h.callDepth]
  split
  · exact .error h
  · exact bind (checkTime hleft hright line) (fun _ => note _) m m' h

/-- A last change that keeps machines mirrors of each other, perhaps at another height. -/
theorem ensuring {height' : Nat} {x y : Action α} {last last' : Machine → Machine}
    (hlast : ∀ m m', Mirrors base base' height m m' →
      Mirrors base base' height' (last m) (last' m')) {m m' : Machine}
    (h : ResultsMirror base base' height (x m) (y m')) :
    ResultsMirror base base' height' (Action.ensuring x last m) (Action.ensuring y last' m') := by
  unfold Action.ensuring
  generalize x m = left at h
  generalize y m' = right at h
  cases h with
  | ok hm => exact .ok (hlast _ _ hm)
  | error hm => exact .error (hlast _ _ hm)

/-- New scopes have the next rank, and are dropped at the end. -/
theorem inScope {rank : Nat} (hrank : rank ≤ height) {x y : ScopeId → Action α}
    (h : Mirrored base base' (height + 1) (x (place base.size (height + 1)))
      (y (place base'.size (height + 1)))) :
    Mirrored base base' height (Action.inScope (place base.size rank) x)
      (Action.inScope (place base'.size rank) y) := by
  intro m m' hm
  have hpush : Mirrors base base' (height + 1) (m.pushScope (place base.size rank))
      (m'.pushScope (place base'.size rank)) :=
    ⟨⟨hm.heap, hm.console, hm.printed, hm.callDepth⟩, hm.env.push hrank⟩
  have hpop : ∀ n n', Mirrors base base' (height + 1) n n' →
      Mirrors base base' height (n.popScope (base.size + height))
        (n'.popScope (base'.size + height)) := by
    intro n n' hn
    have hne : base.size + height ≠ globalScope :=
      Nat.ne_of_gt (Nat.lt_of_lt_of_le hn.env.left.nonempty (Nat.le_add_right _ _))
    have hne' : base'.size + height ≠ globalScope :=
      Nat.ne_of_gt (Nat.lt_of_lt_of_le hn.env.right.nonempty (Nat.le_add_right _ _))
    unfold Machine.popScope
    rw [if_neg hne, if_neg hne']
    exact ⟨⟨hn.heap, hn.console, hn.printed, hn.callDepth⟩, hn.env.pop⟩
  unfold Action.inScope
  rw [hm.env.left.size, hm.env.right.size]
  exact ensuring hpop (h _ _ hpush)

theorem deeper {x y : Action α} (h : Mirrored base base' height x y) :
    Mirrored base base' height (Action.deeper x) (Action.deeper y) := by
  intro m m' hm
  unfold Action.deeper
  apply ensuring
  · intro n n' hn
    exact ⟨⟨hn.heap, hn.console, hn.printed, congrArg (· - 1) hn.callDepth⟩, hn.env⟩
  · apply h
    exact ⟨⟨hm.heap, hm.console, hm.printed, congrArg (· + 1) hm.callDepth⟩, hm.env⟩

end Mirrored

namespace Watched

/-- The plain action of a watched one. -/
def erased (y : Watched α) : Action α := fun m => (y m).1

theorem erased_inScope (parent : ScopeId) (y : ScopeId → Watched α) :
    (inScope parent y).erased = Action.inScope parent fun scope => (y scope).erased := rfl

theorem erased_bind (y : Watched α) (g : α → Watched β) :
    (y >>= g).erased = y.erased >>= fun a => (g a).erased := by
  funext m
  unfold erased
  simp only [Bind.bind, EStateM.bind]
  rcases y m with ⟨result, visits⟩
  cases result with
  | ok a m' => rfl
  | error halt m' => rfl

end Watched

/-- Without a limit for time, mirroring is a simulation. A world is a number of frames on top, and
the scope is the last of them. -/
theorem mirrored_simulation (left right : Settings) (hleft : left.limits.time = none)
    (hright : right.limits.time = none) (hdepth : left.limits.callDepth = right.limits.callDepth)
    (houtput : left.limits.outputLines = right.limits.outputLines) (base base' : Environment) :
    Simulation left right
      (fun height s t => s = place base.size height ∧ t = place base'.size height)
      (fun height _ x y => Mirrored base base' height x y.erased) where
  pure _ _ a := .pure a
  bind hx hf := by
    rw [Watched.erased_bind]
    exact hx.bind hf
  visit _ _ _ h := h
  block := by
    rintro height _ _ _ x y ⟨rfl, rfl⟩ h
    rw [Watched.erased_inScope]
    exact .inScope (Nat.le_refl height) (h (height + 1) _ _ ⟨rfl, rfl⟩)
  body := by
    intro height _ x y params arguments h
    have hbody : ∀ frame, (do
        modify fun m => { m with env := m.env.defineAll frame params arguments }
        Watched.deeper (y frame) : Watched _).erased =
        (do
          modify fun m => { m with env := m.env.defineAll frame params arguments }
          Action.deeper (y frame).erased) := fun frame => Watched.erased_bind _ _
    rw [Watched.erased_inScope]
    simp only [hbody]
    apply Mirrored.inScope (Nat.zero_le height)
    apply Mirrored.bind
    · apply Mirrored.modifyGet
      intro m m' hm
      exact ⟨rfl, ⟨hm.heap, hm.console, hm.printed, hm.callDepth⟩,
        hm.env.defineAll (height + 1) params arguments⟩
    · intro _
      exact (h (height + 1) _ _ ⟨rfl, rfl⟩).deeper
  print := by
    rintro height _ _ n k value line ⟨rfl, rfl⟩ h
    have heval : (Watched.eval right k value (place base'.size height)).erased = _ :=
      funext ((Watched.erasesAt right k).eval value _)
    have hexec : (Watched.exec right (k + 1) (.print value line) (place base'.size height)).erased =
        _ := funext ((Watched.erasesAt right (k + 1)).exec _ _)
    rw [heval] at h
    rw [hexec, Evaluation.exec, Evaluation.exec]
    apply h.bind
    intro v
    apply (Mirrored.checkTime hleft hright line).bind
    intro _
    apply Mirrored.get_bind
    intro m m' hm
    rw [hm.heap]
    exact (Mirrored.print houtput _ line).bind (fun _ => .pure _) m m' hm
  function := by
    rintro height _ _ n k site name params body line ⟨rfl, rfl⟩
    have hexec : (Watched.exec right (k + 1) (.function site name params body line)
        (place base'.size height)).erased = _ :=
      funext ((Watched.erasesAt right (k + 1)).exec _ _)
    rw [hexec, Evaluation.exec, Evaluation.exec]
    apply (Mirrored.note _).bind
    intro _
    exact (Mirrored.define 0 name _).bind fun _ => .pure _
  fault _ _ e := .fault e
  readHeap _ f := .readHeap f
  note _ r := .note r
  alloc _ elements := .alloc elements
  define := by
    rintro height _ _ name value ⟨rfl, rfl⟩
    exact .define height name value
  lookup := by
    rintro height _ _ name line ⟨rfl, rfl⟩
    exact .lookup name line
  assign := by
    rintro height _ _ name value line ⟨rfl, rfl⟩
    exact .assign name value line
  input _ line := .input line
  member _ object property line := .member object property line
  callMethod _ method receiver arguments := .callMethod method receiver arguments
  checkTime _ line := .checkTime hleft hright line
  enterCall _ f arguments line := .enterCall hleft hright hdepth f arguments line

namespace Evaluation

open Machine (Agrees KeepsFrames)

variable {limits : Limits} {clock clock' : Nat → Nat} {f : Function} {arguments : Array Value}
variable {line : Nat} {m m' : Machine}

/-- With any number of steps, the calls have the same result. -/
theorem call_mirrored (htime : limits.time = none) (base base' : Environment) (steps : Nat) :
    Mirrored base base' 0 (call ⟨limits, clock⟩ steps f arguments line)
      (call ⟨limits, clock'⟩ steps f arguments line) := by
  have hsimulation := mirrored_simulation ⟨limits, clock⟩ ⟨limits, clock'⟩ htime htime rfl rfl
    base base'
  have hzero := hsimulation.simulatedAt_zero fun _ => .cut
  have hcall := (hsimulation.simulatedAt hzero steps).call 0 f arguments line globalScope
  rw [Nat.zero_add] at hcall
  have herased : (Watched.call ⟨limits, clock'⟩ steps f arguments line globalScope).erased = _ :=
    funext ((Watched.erasesAt _ steps).call f arguments line globalScope)
  rw [herased] at hcall
  exact hcall

theorem ended_of_mirror {base base' : Environment} {height : Nat} {result : Except RuntimeError α}
    {n : Machine} {other : EStateM.Result Halt Machine α}
    (h : ResultsMirror base base' height (ended result n) other) :
    ∃ n', other = ended result n' ∧ Machine.Mirrors base base' height n n' := by
  cases result with
  | ok a =>
    cases h with
    | ok hm => exact ⟨_, rfl, hm⟩
  | error e =>
    cases h with
    | error hm => exact ⟨_, rfl, hm⟩

/-- Where one call ends, the other ends with the same result. -/
theorem call_ends_alike (htime : limits.time = none) (h : Agrees m m')
    {result : Except RuntimeError Value} {n : Machine}
    (hends : Ends (fun steps => call ⟨limits, clock⟩ steps f arguments line) m result n) :
    ∃ n', Ends (fun steps => call ⟨limits, clock'⟩ steps f arguments line) m' result n' ∧
      Machine.Mirrors m.env m'.env 0 n n' := by
  obtain ⟨steps, hrun⟩ := hends
  have hresults : ResultsMirror m.env m'.env 0 (call ⟨limits, clock⟩ steps f arguments line m)
      (call ⟨limits, clock'⟩ steps f arguments line m') :=
    call_mirrored htime m.env m'.env steps m m' h.mirrors
  change call ⟨limits, clock⟩ steps f arguments line m = ended result n at hrun
  rw [hrun] at hresults
  obtain ⟨n', hother, hmirrors⟩ := ended_of_mirror hresults
  exact ⟨n', ⟨steps, hother⟩, hmirrors⟩

/-- Without a limit for time, a call made in two machines that agree ends in both or in neither.
Then it has the same result, the machines still agree, and in each of them every frame but the
global one is as it was before. -/
theorem call_isolated (limits : Limits) (htime : limits.time = none) (clock clock' : Nat → Nat)
    (f : Function) (arguments : Array Value) (line : Nat) (m m' : Machine) (h : Agrees m m') :
    let run := fun steps => call ⟨limits, clock⟩ steps f arguments line
    let run' := fun steps => call ⟨limits, clock'⟩ steps f arguments line
    ((∃ result n, Ends run m result n) ↔ ∃ result n, Ends run' m' result n) ∧
    ∀ result result' n n', Ends run m result n → Ends run' m' result' n' →
      result = result' ∧ Agrees n n' ∧ KeepsFrames m n ∧ KeepsFrames m' n' := by
  intro run run'
  refine ⟨⟨?_, ?_⟩, fun result result' n n' hends hends' => ?_⟩
  · rintro ⟨result, n, hends⟩
    obtain ⟨n', hends', -⟩ := call_ends_alike htime h hends
    exact ⟨result, n', hends'⟩
  · rintro ⟨result, n, hends⟩
    obtain ⟨n', hends', -⟩ := call_ends_alike htime h.symm hends
    exact ⟨result, n', hends'⟩
  · obtain ⟨n'', halike, hmirrors⟩ := call_ends_alike htime h hends
    obtain ⟨rfl, rfl⟩ := halike.unique (steady_call ⟨limits, clock'⟩ f arguments line) hends'
    exact ⟨rfl, hmirrors.agrees, Machine.keepsFrames_of_extends hmirrors.env.left,
      Machine.keepsFrames_of_extends hmirrors.env.right⟩

/-- A function that assigns to a global and then asks for a local of its caller. -/
theorem call_isolated_local :
    let f : Function := ⟨0, "f", ["x"],
      [.expression (.assign "g" (.ident "x" 1) 1) 1, .give (some (.ident "y" 2)) 2]⟩
    let globals : Frame := ⟨none, [("g", .string "a")]⟩
    let m : Machine := { env := ⟨#[globals]⟩ }
    let m' : Machine := { env := ⟨#[globals, ⟨some 0, [("y", .string "b")]⟩]⟩ }
    let run := fun steps => call ⟨{}, fun _ => 0⟩ steps f #[.string "c"] 3
    Agrees m m' ∧ ∃ n n', Ends run m (.error (.undefinedVariable "y" 2)) n ∧
      Ends run m' (.error (.undefinedVariable "y" 2)) n' ∧ Agrees n n' ∧ KeepsFrames m' n' := by
  intro f globals m m' run
  have hagrees : Agrees m m' := ⟨⟨rfl, rfl, rfl, rfl⟩, _, _, rfl, rfl, fun _ => rfl⟩
  have hends : Ends run m (.error (.undefinedVariable "y" 2)) (final (run 6 m)) :=
    ends_of_fault? (by decide +kernel)
  have hends' : Ends run m' (.error (.undefinedVariable "y" 2)) (final (run 6 m')) :=
    ends_of_fault? (by decide +kernel)
  have h := (call_isolated {} rfl (fun _ => 0) (fun _ => 0) f #[.string "c"] 3 m m' hagrees).2
    _ _ _ _ hends hends'
  exact ⟨hagrees, _, _, hends, hends', h.2.1, h.2.2.2⟩

end Evaluation

end KakaLang
