import KakaLang.Machine.Evaluation
import KakaLang.Proofs.Bare

/-!
Machines without lines. A machine knows lines in two places: its function values hold the bodies of
their declarations, and its journal tells where something happened. Here the lines are erased in
both. The sites of functions stay, because functions are compared by them. Every operation on
values, frames and arrays can be done before the lines are erased or afterwards, with the same
outcome.
-/

namespace KakaLang

namespace Statement

mutual

/-- The statement without its lines. Its functions keep their sites. -/
def lineless : Statement → Statement
  | .declare name value _ => .declare name (value.bare id) 0
  | .print value _ => .print (value.bare id) 0
  | .branch condition yes none _ => .branch (condition.bare id) (linelessBlock yes) none 0
  | .branch condition yes (some no) _ =>
    .branch (condition.bare id) (linelessBlock yes) (some (linelessBlock no)) 0
  | .loop condition body _ => .loop (condition.bare id) (linelessBlock body) 0
  | .block body => .block (linelessBlock body)
  | .expression value _ => .expression (value.bare id) 0
  | .leave _ => .leave 0
  | .next _ => .next 0
  | .function site name params body _ => .function site name params (linelessBlock body) 0
  | .give value _ => .give (value.map (·.bare id)) 0

def linelessBlock : Block → Block
  | .mk statements _ => .mk (linelessAll statements) 0

def linelessAll : List Statement → List Statement
  | [] => []
  | s :: rest => s.lineless :: linelessAll rest

end

theorem statements_linelessBlock (body : Block) :
    (linelessBlock body).statements = linelessAll body.statements := by
  cases body
  rw [linelessBlock]
  rfl

theorem line_lineless (s : Statement) : s.lineless.line = 0 := by
  cases s with
  | branch condition yes no line => cases no <;> rw [lineless] <;> rfl
  | block body =>
    cases body
    rw [lineless, linelessBlock]
    rfl
  | _ => rw [lineless]; rfl

theorem kindName_lineless (s : Statement) : s.lineless.kindName = s.kindName := by
  cases s with
  | branch condition yes no line => cases no <;> rw [lineless] <;> rfl
  | _ => rw [lineless]; rfl

end Statement

theorem Program.length_bare (f : Literal → Literal) (p : Program) :
    (p.bare f).length = p.length := by
  unfold bare
  induction p with
  | nil => rfl
  | cons s rest ih => rw [Statement.bareAll, List.length_cons, ih, List.length_cons]

namespace Site

mutual

theorem statement_bare (s : Statement) (next : Nat) :
    statement (s.bare id) next = ((statement s next).1.lineless, (statement s next).2) := by
  match s with
  | .branch condition yes none line =>
    have hyes := block_bare yes next
    simp only [Statement.bare, statement, bind, StateT.bind, hyes]
    rfl
  | .branch condition yes (some no) line =>
    have hyes := block_bare yes next
    have hno := block_bare no (block yes next).2
    simp only [Statement.bare, statement, bind, StateT.bind, hyes, hno]
    rfl
  | .loop condition body line =>
    have hbody := block_bare body next
    simp only [Statement.bare, statement, bind, StateT.bind, hbody]
    rfl
  | .block body =>
    have hbody := block_bare body next
    simp only [Statement.bare, statement, bind, StateT.bind, hbody]
    rfl
  | .function site name params body line =>
    have hbody := block_bare body (next + 1)
    simp only [Statement.bare, statement, fresh, bind, StateT.bind]
    simp only [modifyGet, MonadStateOf.modifyGet, StateT.modifyGet, pure, hbody]
    rfl
  | .declare .. | .print .. | .expression .. | .leave .. | .next .. | .give .. => rfl

theorem block_bare (body : Block) (next : Nat) :
    block (Statement.bareBlock id body) next =
      (Statement.linelessBlock (block body next).1, (block body next).2) := by
  match body with
  | .mk body line =>
    have hbody := statements_bare body next
    simp only [Statement.bareBlock, block, bind, StateT.bind, hbody]
    rfl

theorem statements_bare (ss : List Statement) (next : Nat) :
    statements (Statement.bareAll id ss) next =
      (Statement.linelessAll (statements ss next).1, (statements ss next).2) := by
  match ss with
  | [] => rfl
  | s :: rest =>
    have hs := statement_bare s next
    have hrest := statements_bare rest (statement s next).2
    simp only [Statement.bareAll, statements, bind, StateT.bind, hs, hrest]
    rfl

end

end Site

/-- Changing one element and mapping all of them may be done in either order. -/
theorem modify_map {g : α → β} {f : α → α} {h : β → β} (hcomm : ∀ a, h (g a) = g (f a))
    (xs : Array α) (i : Nat) : (xs.map g).modify i h = (xs.modify i f).map g := by
  apply Array.ext_getElem?
  intro j
  rw [Array.getElem?_modify, Array.getElem?_map, Array.getElem?_map, Array.getElem?_modify]
  split
  · rw [Option.map_map, Option.map_map]
    congr 1
    exact funext hcomm
  · rfl

def Function.lineless (f : Function) : Function :=
  { f with body := Statement.linelessAll f.body }

namespace Value

/-- Only functions have lines. -/
def lineless : Value → Value
  | .function f => .function f.lineless
  | v => v

theorem lineless_ofLiteral (literal : Literal) :
    (ofLiteral literal).lineless = ofLiteral literal := by
  cases literal <;> rfl

theorem isTruthy_lineless (v : Value) : v.lineless.isTruthy = v.isTruthy := by
  cases v <;> rfl

theorem isTextual_lineless (v : Value) : v.lineless.isTextual = v.isTextual := by
  cases v <;> rfl

theorem isVoid_lineless (v : Value) : v.lineless.isVoid = v.isVoid := by
  cases v <;> rfl

theorem strictEquals_lineless (v w : Value) :
    v.lineless.strictEquals w.lineless = v.strictEquals w := by
  cases v <;> cases w <;> rfl

end Value

namespace Heap

def lineless (heap : Heap) : Heap := ⟨heap.arrays.map (·.map Value.lineless)⟩

theorem size_lineless (heap : Heap) : heap.lineless.size = heap.size := Array.size_map

theorem elements_lineless (heap : Heap) (id : ArrayId) :
    heap.lineless.elements id = (heap.elements id).map Value.lineless := by
  unfold elements lineless
  rw [Array.getElem?_map]
  cases heap.arrays[id]? with
  | none => exact Array.map_empty.symm
  | some array => rfl

theorem alloc_lineless (heap : Heap) (elements : Array Value) :
    heap.lineless.alloc (elements.map Value.lineless) =
      ((heap.alloc elements).1, (heap.alloc elements).2.lineless) := by
  unfold alloc
  rw [size_lineless]
  simp only [lineless, Array.map_push]

theorem modify_lineless {f g : Array Value → Array Value}
    (h : ∀ array, g (array.map Value.lineless) = (f array).map Value.lineless) (heap : Heap)
    (id : ArrayId) : heap.lineless.modify id g = (heap.modify id f).lineless := by
  unfold modify lineless
  rw [modify_map h]

end Heap

theorem ArrayMethod.call_lineless (m : ArrayMethod) (receiver : ArrayId) (arguments : Array Value)
    (heap : Heap) :
    m.call receiver (arguments.map Value.lineless) heap.lineless =
      ((m.call receiver arguments heap).1.lineless,
        (m.call receiver arguments heap).2.lineless) := by
  cases m with
  | push =>
    have hmodify := Heap.modify_lineless (f := (· ++ arguments))
      (g := (· ++ arguments.map Value.lineless)) (fun _ => Array.map_append.symm) heap receiver
    simp only [call, hmodify, Heap.elements_lineless, Array.size_map]
    rfl
  | pop =>
    have hmodify := Heap.modify_lineless (f := Array.pop) (g := Array.pop)
      (fun _ => Array.map_pop.symm) heap receiver
    simp only [call, hmodify, Heap.elements_lineless, Array.back?_map]
    cases (heap.elements receiver).back? <;> rfl

namespace Value

/-- The induction is on the nesting that is allowed for. -/
theorem write_lineless (heap : Heap) (depth : Nat) (v : Value) :
    v.lineless.write heap.lineless depth = v.write heap depth := by
  induction depth generalizing v with
  | zero => rfl
  | succ depth ih =>
    cases v with
    | array id =>
      change (Value.array id).write heap.lineless (depth + 1) = _
      simp only [write, Heap.elements_lineless, Array.toList_map, List.mapM_map,
        Function.comp_def, isVoid_lineless, ih]
    | _ => rfl

theorem text_lineless (heap : Heap) (v : Value) : v.lineless.text heap.lineless = v.text heap := by
  unfold text
  rw [Heap.size_lineless, write_lineless]

theorem toNumber_lineless (heap : Heap) (v : Value) :
    v.lineless.toNumber heap.lineless = v.toNumber heap := by
  cases v with
  | array id =>
    have htext : (Value.array id).text heap.lineless = (Value.array id).text heap :=
      text_lineless heap (.array id)
    change toNumber heap.lineless (.array id) = toNumber heap (.array id)
    rw [toNumber, toNumber, htext]
  | _ => rfl

theorem order?_lineless (heap : Heap) (left right : Value) :
    left.lineless.order? heap.lineless right.lineless = left.order? heap right := by
  unfold order?
  simp only [isTextual_lineless, text_lineless, toNumber_lineless]

end Value

/-- What an operator gives has no lines, and those of its operands do not matter. -/
theorem BinaryOp.apply_lineless (op : BinaryOp) (heap : Heap) (left right : Value) :
    op.apply heap.lineless left.lineless right.lineless = (op.apply heap left right).lineless := by
  cases op with
  | add =>
    simp only [apply, onNumbers, Value.isTextual_lineless, Value.text_lineless,
      Value.toNumber_lineless]
    split <;> rfl
  | equal | notEqual =>
    simp only [apply, Value.strictEquals_lineless]
    rfl
  | less | greater | lessEqual | greaterEqual =>
    simp only [apply, onOrder, Value.order?_lineless]
    rfl
  | subtract | multiply | divide | modulo =>
    simp only [apply, onNumbers, Value.toNumber_lineless]
    rfl

namespace Bindings

def lineless (bindings : Bindings) : Bindings :=
  bindings.map fun binding => (binding.1, binding.2.lineless)

theorem get?_lineless (bindings : Bindings) (name : String) :
    bindings.lineless.get? name = (bindings.get? name).map Value.lineless := by
  induction bindings with
  | nil => rfl
  | cons binding rest ih =>
    obtain ⟨bound, value⟩ := binding
    change (if bound = name then some value.lineless else get? (lineless rest) name) = _
    rw [get?, ih]
    split <;> rfl

theorem binds_lineless (bindings : Bindings) (name : String) :
    bindings.lineless.binds name = bindings.binds name := by
  unfold binds
  rw [get?_lineless, Option.isSome_map]

theorem set_lineless (bindings : Bindings) (name : String) (value : Value) :
    bindings.lineless.set name value.lineless = (bindings.set name value).lineless := by
  induction bindings with
  | nil => rfl
  | cons binding rest ih =>
    obtain ⟨bound, old⟩ := binding
    change (if bound = name then (bound, value.lineless) :: lineless rest
      else (bound, old.lineless) :: set (lineless rest) name value.lineless) = _
    rw [set, ih]
    split <;> rfl

end Bindings

def Frame.lineless (frame : Frame) : Frame := { frame with bindings := frame.bindings.lineless }

namespace Environment

def lineless (env : Environment) : Environment := ⟨env.frames.map Frame.lineless⟩

theorem size_lineless (env : Environment) : env.lineless.size = env.size := Array.size_map

theorem frame?_lineless (env : Environment) (scope : ScopeId) :
    env.lineless.frame? scope = (env.frame? scope).map Frame.lineless := Array.getElem?_map

theorem push_lineless (env : Environment) (parent : ScopeId) :
    (env.lineless.push parent).2 = (env.push parent).2.lineless := by
  unfold push lineless
  rw [Array.map_push]
  rfl

theorem pop_lineless (env : Environment) (scope : ScopeId) :
    env.lineless.pop scope = (env.pop scope).lineless := by
  unfold pop lineless
  split
  · rfl
  · congr 1
    apply Array.ext'
    simp only [Array.toList_shrink, Array.toList_map, List.map_take]

theorem define_lineless (env : Environment) (scope : ScopeId) (name : String) (value : Value) :
    env.lineless.define scope name value.lineless = (env.define scope name value).lineless := by
  simp only [define, lineless, mk.injEq]
  apply modify_map
  intro frame
  rw [Frame.lineless, Frame.lineless, Bindings.set_lineless]

theorem defineAll_lineless (env : Environment) (scope : ScopeId) (params : List String)
    (arguments : List Value) :
    env.lineless.defineAll scope params (arguments.map Value.lineless) =
      (env.defineAll scope params arguments).lineless := by
  induction params generalizing env arguments with
  | nil => rw [defineAll, defineAll]
  | cons param params ih =>
    cases arguments with
    | nil =>
      have hdefine := define_lineless env scope param .undefined
      rw [List.map_nil, defineAll, defineAll, ← ih, ← hdefine]
      rfl
    | cons argument arguments =>
      rw [List.map_cons, defineAll, defineAll, ← ih, define_lineless]

theorem getWithin_lineless (env : Environment) (name : String) (steps : Nat) (scope : ScopeId) :
    env.lineless.getWithin name steps scope =
      (env.getWithin name steps scope).map (·.map Value.lineless) := by
  induction steps generalizing scope with
  | zero => rfl
  | succ steps ih =>
    rw [getWithin, getWithin, frame?_lineless]
    cases env.frame? scope with
    | none => rfl
    | some frame =>
      simp only [Option.map_some, Frame.lineless, Bindings.get?_lineless]
      cases frame.bindings.get? name with
      | some value => rfl
      | none =>
        cases frame.parent with
        | none => rfl
        | some parent => exact ih parent

theorem get_lineless (env : Environment) (scope : ScopeId) (name : String) :
    env.lineless.get scope name = (env.get scope name).map (·.map Value.lineless) := by
  unfold get
  rw [size_lineless, getWithin_lineless]

theorem assignWithin_lineless (env : Environment) (name : String) (value : Value) (steps : Nat)
    (scope : ScopeId) :
    env.lineless.assignWithin name value.lineless steps scope =
      (env.assignWithin name value steps scope).map (·.map id lineless) := by
  induction steps generalizing scope with
  | zero => rfl
  | succ steps ih =>
    rw [assignWithin, assignWithin, frame?_lineless]
    cases env.frame? scope with
    | none => rfl
    | some frame =>
      simp only [Option.map_some, Frame.lineless, Bindings.binds_lineless]
      split
      · rw [define_lineless]
        rfl
      · cases frame.parent with
        | none => rfl
        | some parent => exact ih parent

theorem assign_lineless (env : Environment) (scope : ScopeId) (name : String) (value : Value) :
    env.lineless.assign scope name value.lineless =
      (env.assign scope name value).map (·.map id lineless) := by
  unfold assign
  rw [size_lineless, assignWithin_lineless]

end Environment

def RuntimeError.lineless : RuntimeError → RuntimeError
  | .undefinedVariable name _ => .undefinedVariable name 0
  | .notCallable found _ => .notCallable found 0
  | .unsupportedMember _ => .unsupportedMember 0
  | .outputLimit limit _ => .outputLimit limit 0
  | .timeLimit millis _ => .timeLimit millis 0
  | .callDepth limit _ => .callDepth limit 0

def Record.lineless : Record → Record
  | .stopped kind _ => .stopped kind 0
  | .noInput _ => .noInput 0
  | r => r

namespace Machine

def lineless (m : Machine) : Machine :=
  { m with
    env := m.env.lineless
    heap := m.heap.lineless
    journal := m.journal.map Record.lineless }

theorem note_lineless (m : Machine) (r : Record) :
    m.lineless.note r.lineless = (m.note r).lineless := by
  unfold note lineless
  rw [Array.map_push]

theorem pushScope_lineless (m : Machine) (parent : ScopeId) :
    m.lineless.pushScope parent = (m.pushScope parent).lineless := by
  have hscope : (m.lineless.env.push parent).1 = (m.env.push parent).1 :=
    m.env.size_lineless
  have henv : (m.lineless.env.push parent).2 = (m.env.push parent).2.lineless :=
    m.env.push_lineless parent
  unfold pushScope
  simp only [hscope, henv]
  exact note_lineless { m with env := (m.env.push parent).2 } (.pushed _ parent)

theorem popScope_lineless (m : Machine) (scope : ScopeId) :
    m.lineless.popScope scope = (m.popScope scope).lineless := by
  have henv : m.lineless.env.pop scope = (m.env.pop scope).lineless := m.env.pop_lineless scope
  unfold popScope
  split
  · rfl
  · rw [henv]
    exact note_lineless { m with env := m.env.pop scope } (.popped scope)

end Machine

end KakaLang
