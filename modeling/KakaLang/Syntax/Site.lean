import KakaLang.Syntax.Basic

/-!
Sites of function declarations. Two functions are the same when they come from the same
declaration, so each declaration of a loaded tree gets a number that no other has. Numbers are
given out in the order of the text, an outer declaration before those in its body.
-/

namespace KakaLang.Site

def fresh : StateM Nat Nat := modifyGet fun next => (next, next + 1)

mutual

def statement : Statement → StateM Nat Statement
  | .branch condition yes none line => return .branch condition (← block yes) none line
  | .branch condition yes (some no) line => do
    let yes ← block yes
    return .branch condition yes (some (← block no)) line
  | .loop condition body line => return .loop condition (← block body) line
  | .block body => return .block (← block body)
  | .function _ name params body line => do
    let site ← fresh
    return .function site name params (← block body) line
  | s => return s

def block : Block → StateM Nat Block
  | .mk body line => return .mk (← statements body) line

def statements : List Statement → StateM Nat (List Statement)
  | [] => return []
  | s :: rest => do
    let s ← statement s
    return s :: (← statements rest)

end

end KakaLang.Site
