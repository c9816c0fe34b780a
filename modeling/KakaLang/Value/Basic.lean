import KakaLang.Syntax.Basic

/-!
Values. Arrays are shared: a value names an array by its place in the heap, and arrays are equal
when they are at the same place. Functions are equal when they come from the same declaration. A
method taken from an array remembers the array and is equal to nothing.
-/

namespace KakaLang

abbrev ArrayId := Nat

inductive ArrayMethod where
  | push
  | pop
deriving DecidableEq, Repr

namespace ArrayMethod

def name : ArrayMethod → String
  | .push => "push"
  | .pop => "pop"

def ofName? (name : String) : Option ArrayMethod :=
  if name = "push" then some .push else if name = "pop" then some .pop else none

end ArrayMethod

structure Function where
  site : Nat
  name : String
  params : List String
  body : List Statement

inductive Value where
  | number (x : Float)
  | string (s : String)
  | bool (b : Bool)
  | null
  | undefined
  | array (id : ArrayId)
  | function (f : Function)
  | method (m : ArrayMethod) (receiver : ArrayId)
deriving Inhabited

/-- The arrays of a run, in the order of their creation. -/
structure Heap where
  arrays : Array (Array Value)

namespace Heap

def empty : Heap := ⟨#[]⟩

def size (heap : Heap) : Nat := heap.arrays.size

/-- The elements of an array; there are none at a place that is not in use. -/
def elements (heap : Heap) (id : ArrayId) : Array Value := heap.arrays[id]?.getD #[]

def alloc (heap : Heap) (elements : Array Value) : ArrayId × Heap :=
  (heap.size, ⟨heap.arrays.push elements⟩)

def modify (heap : Heap) (id : ArrayId) (f : Array Value → Array Value) : Heap :=
  ⟨heap.arrays.modify id f⟩

end Heap

/-- Appending gives the new length, removing the last element gives that element. -/
def ArrayMethod.call (m : ArrayMethod) (receiver : ArrayId) (arguments : Array Value)
    (heap : Heap) : Value × Heap :=
  match m with
  | .push =>
    let heap := heap.modify receiver (· ++ arguments)
    (.number (Float.ofNat (heap.elements receiver).size), heap)
  | .pop =>
    let last := (heap.elements receiver).back?
    (last.getD .undefined, heap.modify receiver Array.pop)

namespace Value

def ofLiteral : Literal → Value
  | .number x => .number x
  | .string s => .string s
  | .bool b => .bool b
  | .null => .null

def typeName : Value → String
  | .number _ => "number"
  | .string _ => "string"
  | .bool _ => "boolean"
  | .null => "null"
  | .undefined => "undefined"
  | .array _ => "array"
  | .function _ | .method _ _ => "function"

def isTruthy : Value → Bool
  | .number x => x != 0 && !x.isNaN
  | .string s => !s.isEmpty
  | .bool b => b
  | .null | .undefined => false
  | .array _ | .function _ | .method _ _ => true

/-- Values that take part in an addition or a comparison as text. -/
def isTextual : Value → Bool
  | .string _ | .array _ | .function _ | .method _ _ => true
  | _ => false

/-- What is shown as nothing inside an array. -/
def isVoid : Value → Bool
  | .null | .undefined => true
  | _ => false

def strictEquals : Value → Value → Bool
  | .number x, .number y => x == y
  | .string s, .string t => s == t
  | .bool a, .bool b => a == b
  | .null, .null => true
  | .undefined, .undefined => true
  | .array a, .array b => a == b
  | .function f, .function g => f.site == g.site
  | _, _ => false

end Value

end KakaLang
