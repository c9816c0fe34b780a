import KakaLang.Value.Basic

/-!
Scopes. The frames of an environment stand in one array, the global frame first, and each other
frame names a parent. A name is looked up along the parents. Frame numbers are handed out by the
size of the array and come from outside as well, so a number may belong to no frame, and a frame
can even become its own ancestor: then a walk along the parents that does not meet the name has no
end. A walk that has visited more scopes than there are frames is such a walk.
-/

namespace KakaLang

abbrev ScopeId := Nat

def globalScope : ScopeId := 0

abbrev Bindings := List (String × Value)

namespace Bindings

def get? (bindings : Bindings) (name : String) : Option Value :=
  match bindings with
  | [] => none
  | (bound, value) :: rest => if bound = name then some value else get? rest name

def binds (bindings : Bindings) (name : String) : Bool := (get? bindings name).isSome

/-- Replaces the value of a bound name in place, or binds the name last. -/
def set (bindings : Bindings) (name : String) (value : Value) : Bindings :=
  match bindings with
  | [] => [(name, value)]
  | (bound, old) :: rest =>
    if bound = name then (bound, value) :: rest else (bound, old) :: set rest name value

end Bindings

structure Frame where
  parent : Option ScopeId
  bindings : Bindings

structure Environment where
  frames : Array Frame

namespace Environment

def initial : Environment := ⟨#[⟨none, []⟩]⟩

def size (env : Environment) : Nat := env.frames.size

def frame? (env : Environment) (scope : ScopeId) : Option Frame := env.frames[scope]?

/-- Adds a frame under any parent, one that is in use or not. -/
def push (env : Environment) (parent : ScopeId) : ScopeId × Environment :=
  (env.size, ⟨env.frames.push ⟨some parent, []⟩⟩)

/-- Drops a frame and all that came after it. The global frame stays. -/
def pop (env : Environment) (scope : ScopeId) : Environment :=
  if scope = globalScope then env else ⟨env.frames.shrink scope⟩

def define (env : Environment) (scope : ScopeId) (name : String) (value : Value) : Environment :=
  ⟨env.frames.modify scope fun frame => { frame with bindings := frame.bindings.set name value }⟩

/-- Defines parameters. Missing arguments are undefined and further ones are dropped. -/
def defineAll (env : Environment) (scope : ScopeId) : List String → List Value → Environment
  | [], _ => env
  | param :: params, [] => (env.define scope param .undefined).defineAll scope params []
  | param :: params, argument :: arguments =>
    (env.define scope param argument).defineAll scope params arguments

/-- What a walk along the parents comes to, or nothing when it has no end. -/
abbrev Walk (α : Type) := Option α

/-- Looks a name up in the given number of scopes at most. -/
def getWithin (env : Environment) (name : String) : Nat → ScopeId → Walk (Option Value)
  | 0, _ => none
  | steps + 1, scope =>
    match env.frame? scope with
    | none => some none
    | some frame =>
      match frame.bindings.get? name with
      | some value => some (some value)
      | none =>
        match frame.parent with
        | none => some none
        | some parent => env.getWithin name steps parent

/-- The value of a name in the nearest scope that binds it, if there is one. -/
def get (env : Environment) (scope : ScopeId) (name : String) : Walk (Option Value) :=
  env.getWithin name (env.size + 1) scope

/-- Assigns to a name that is bound in the given number of scopes at most. -/
def assignWithin (env : Environment) (name : String) (value : Value) :
    Nat → ScopeId → Walk (Bool × Environment)
  | 0, _ => none
  | steps + 1, scope =>
    match env.frame? scope with
    | none => some (false, env)
    | some frame =>
      if frame.bindings.binds name then some (true, env.define scope name value)
      else
        match frame.parent with
        | none => some (false, env)
        | some parent => env.assignWithin name value steps parent

/-- Gives a new value to the nearest binding of a name, and says whether there is one. -/
def assign (env : Environment) (scope : ScopeId) (name : String) (value : Value) :
    Walk (Bool × Environment) :=
  env.assignWithin name value (env.size + 1) scope

end Environment

end KakaLang
