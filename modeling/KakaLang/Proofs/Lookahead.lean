import KakaLang.Proofs.Phrases
import KakaLang.Proofs.ParserSteps

/-!
One token of lookahead. Which tokens begin a phrase and which may stand after it are disjoint
wherever the grammar leaves a choice: an expression is followed by a symbol that closes it, an
operation by no operator of its own level, a list of statements by no token that begins one.
-/

namespace KakaLang.Grammar

open KakaLang.Parser

@[simp]
theorem kindOf_terminal {kind : TokenKind} (t : Terminal kind) (rest : List Token) :
    kindOf (t.val :: rest) = kind := t.property

/-- A symbol that ends an expression is next. -/
def Closes (ts : List Token) : Prop :=
  kindOf ts = .symbol .semicolon ∨ kindOf ts = .symbol .comma ∨
    kindOf ts = .symbol .closeParen ∨ kindOf ts = .symbol .closeBracket

/-- Neither arguments nor a member access is next. -/
def NoSuffix (ts : List Token) : Prop :=
  kindOf ts ≠ .symbol .openParen ∧ kindOf ts ≠ .symbol .openBracket

theorem Closes.noSuffix {ts : List Token} (h : Closes ts) : NoSuffix ts := by
  unfold NoSuffix
  rcases h with h | h | h | h <;> rw [h] <;> decide

theorem Closes.noOperator {ts : List Token} (h : Closes ts) (level : Nat) :
    NoOperator level ts := by
  have hnone : Operator.ofKind? (kindOf ts) = none := by
    rcases h with h | h | h | h <;> rw [h] <;> rfl
  intro op hop
  rw [hnone] at hop
  cases hop

theorem Closes.kind_ne_equals {ts : List Token} (h : Closes ts) :
    kindOf ts ≠ .symbol .equals := by
  rcases h with h | h | h | h <;> rw [h] <;> decide

theorem noSuffix_sign {level : Nat} (sign : Sign level) (rest : List Token) :
    NoSuffix (sign.token.val :: rest) := by
  obtain ⟨op, ⟨t, ht⟩, -⟩ := sign
  unfold NoSuffix
  rw [show kindOf (t :: rest) = op.kind from ht]
  cases op with
  | binary op => cases op <;> decide
  | logical op => cases op <;> decide

theorem noOperator_sign {level : Nat} (sign : Sign level) (rest : List Token) :
    NoOperator (level + 1) (sign.token.val :: rest) := by
  obtain ⟨op, ⟨t, ht⟩, hlevel⟩ := sign
  intro found hfound
  rw [show kindOf (t :: rest) = op.kind from ht, Operator.ofKind?_kind] at hfound
  cases hfound
  omega

theorem Tail.noSuffix {level : Nat} (tail : Tail level) {rest : List Token} (h : NoSuffix rest) :
    NoSuffix (tail.tokens ++ rest) := by
  cases tail with
  | nil => exact h
  | cons sign right more => exact noSuffix_sign sign _

theorem Tail.noOperator {level : Nat} (tail : Tail level) {rest : List Token}
    (h : NoOperator (level + 1) rest) : NoOperator (level + 1) (tail.tokens ++ rest) := by
  cases tail with
  | nil => exact h
  | cons sign right more => exact noOperator_sign sign _

theorem Primary.length_pos (d : Primary) : 0 < d.tokens.length := by
  cases d <;> simp [Primary.tokens]

theorem Operand.length_pos (d : Operand) : 0 < d.tokens.length := by
  cases d with
  | mk head suffixes =>
    have h := head.length_pos
    simp only [Operand.tokens, List.length_append]
    omega

theorem Operation.length_pos : {level : Nat} → (d : Operation level) → 0 < d.tokens.length
  | _, .operand value => value.length_pos
  | _, .chain _ first tail => by
    have h := first.length_pos
    simp only [Operation.tokens, List.length_append]
    omega

theorem Expression.length_pos (d : Expression) : 0 < d.tokens.length := by
  cases d with
  | plain value => exact value.length_pos
  | assign target equals value =>
    simp only [Expression.tokens, List.length_append, List.length_cons]
    omega

/-- The kinds of token that begin an expression. -/
def beginsExpression : TokenKind → Bool
  | .number _ | .string _ | .identifier _ => true
  | .keyword k => k ∈ [Keyword.trueWord, .falseWord, .null, .input]
  | .symbol s => s ∈ [Symbol.openBracket, .openParen]
  | _ => false

theorem Atom.beginsExpression {line : Nat} {kind : TokenKind} {e : Expr} (h : Atom line kind e) :
    beginsExpression kind = true := by
  cases h <;> rfl

theorem Primary.begins (d : Primary) (rest : List Token) :
    beginsExpression (kindOf (d.tokens ++ rest)) = true := by
  cases d with
  | atom token value h => exact h.beginsExpression
  | array opening elements closing =>
    rw [Primary.tokens, List.cons_append, kindOf_terminal]
    rfl
  | group opening inner closing =>
    rw [Primary.tokens, List.cons_append, kindOf_terminal]
    rfl

theorem Operand.begins (d : Operand) (rest : List Token) :
    beginsExpression (kindOf (d.tokens ++ rest)) = true := by
  cases d with
  | mk head suffixes =>
    rw [Operand.tokens, List.append_assoc]
    exact head.begins _

theorem Operation.begins : {level : Nat} → (d : Operation level) → (rest : List Token) →
    beginsExpression (kindOf (d.tokens ++ rest)) = true
  | _, .operand value, rest => value.begins rest
  | _, .chain _ first tail, rest => by
    rw [Operation.tokens, List.append_assoc]
    exact first.begins _

theorem Expression.begins (d : Expression) (rest : List Token) :
    beginsExpression (kindOf (d.tokens ++ rest)) = true := by
  cases d with
  | plain value => exact value.begins rest
  | assign target equals value =>
    rw [Expression.tokens, List.append_assoc]
    exact target.begins _

/-- A token of a kind that begins no expression cannot be where an expression is. -/
theorem Expression.kind_ne {d : Expression} {rest : List Token} {k : TokenKind}
    (h : beginsExpression k = false) : kindOf (d.tokens ++ rest) ≠ k := by
  intro hkind
  have hbegins := d.begins rest
  rw [hkind, h] at hbegins
  cases hbegins

/-- The kinds of token that begin a statement. -/
def beginsStatement : TokenKind → Bool
  | .keyword k =>
    k ∉ [Keyword.programStart, .programEnd, .elseWord, .and, .or]
  | .symbol s => s ∈ [Symbol.openBrace, .openBracket, .openParen]
  | kind => beginsExpression kind

theorem beginsStatement_of_expression {k : TokenKind} (h : beginsExpression k = true) :
    beginsStatement k = true := by
  cases k with
  | keyword k =>
    revert h
    cases k <;> decide
  | symbol s =>
    revert h
    cases s <;> decide
  | _ => exact h

theorem Block.begins (d : Block) (rest : List Token) :
    kindOf (d.tokens ++ rest) = .symbol .openBrace := by
  cases d with
  | mk opening body closing => exact kindOf_terminal opening _

theorem Statement.begins (d : Statement) (rest : List Token) :
    beginsStatement (kindOf (d.tokens ++ rest)) = true := by
  cases d with
  | block body =>
    rw [Statement.tokens, body.begins]
    rfl
  | expression value =>
    rw [Statement.tokens, Terminated.tokens, List.append_assoc]
    exact beginsStatement_of_expression (value.value.begins _)
  | _ =>
    rw [Statement.tokens, List.cons_append, kindOf_terminal]
    rfl

theorem Statement.length_pos (d : Statement) : 0 < d.tokens.length := by
  rcases htokens : d.tokens with _ | ⟨t, rest⟩
  · have hbegins := d.begins []
    rw [htokens] at hbegins
    cases hbegins
  · simp

/-- After statements comes one more or what ends them. -/
theorem Statements.kind_ne {d : Statements} {rest : List Token} {k : TokenKind}
    (hk : beginsStatement k = false) (hrest : kindOf rest ≠ k) :
    kindOf (d.tokens ++ rest) ≠ k := by
  cases d with
  | nil => exact hrest
  | cons first more =>
    intro hkind
    have hbegins := first.begins (more.tokens ++ rest)
    rw [← List.append_assoc] at hbegins
    rw [show kindOf (first.tokens ++ more.tokens ++ rest) = k from hkind, hk] at hbegins
    cases hbegins

end KakaLang.Grammar
