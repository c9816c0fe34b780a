import KakaLang.Proofs.Phrases
import Mathlib.Data.List.Chain

/-!
No derivation spells two names side by side. An expression may start and end with a name, but
operators, brackets, commas and semicolons stand between any two expressions, and no statement ends
with a name.
-/

namespace KakaLang

def TokenKind.isName : TokenKind → Bool
  | .identifier _ => true
  | _ => false

theorem Operator.isName_kind (op : Operator) : op.kind.isName = false := by
  cases op <;> rfl

namespace Grammar

/-- No two names are neighbours. -/
def Apart (ts : List Token) : Prop :=
  ts.IsChain fun s t => ¬ (s.kind.isName = true ∧ t.kind.isName = true)

/-- Apart even after a name. -/
def Guarded (ts : List Token) : Prop := ∀ t, Apart (t :: ts)

variable {rest : List Token}

theorem Guarded.apart (h : Guarded rest) : Apart rest :=
  (List.isChain_cons.mp (h ⟨.endOfInput, "", 0⟩)).2

theorem Guarded.cons {t : Token} (ht : t.kind.isName = false) (h : Apart rest) :
    Guarded (t :: rest) := by
  intro s
  unfold Apart at h ⊢
  rw [List.isChain_cons_cons, List.isChain_cons]
  refine ⟨?_, ?_, h⟩
  · simp [ht]
  · simp [ht]

theorem Terminal.guarded {kind : TokenKind} (t : Terminal kind) (hkind : kind.isName = false)
    (h : Apart rest) : Guarded (t.val :: rest) :=
  Guarded.cons (by rw [t.property, hkind]) h

mutual

theorem Expression.apart : (d : Expression) → {rest : List Token} → Guarded rest →
    Apart (d.tokens ++ rest)
  | .plain value, _, h => value.apart h
  | .assign target equals value, _, h => by
    rw [Expression.tokens, List.append_assoc]
    exact target.apart (equals.guarded rfl (value.apart h))

theorem Operation.apart : {level : Nat} → (d : Operation level) → {rest : List Token} →
    Guarded rest → Apart (d.tokens ++ rest)
  | _, .operand value, _, h => value.apart h
  | _, .chain _ first tail, _, h => by
    rw [Operation.tokens, List.append_assoc]
    exact first.apart (tail.guarded h)

theorem Tail.guarded : {level : Nat} → (d : Tail level) → {rest : List Token} → Guarded rest →
    Guarded (d.tokens ++ rest)
  | _, .nil, _, h => h
  | _, .cons sign right tail, _, h => by
    rw [Tail.tokens, List.cons_append, List.append_assoc]
    exact sign.token.guarded sign.op.isName_kind (right.apart (tail.guarded h))

theorem Operand.apart : (d : Operand) → {rest : List Token} → Guarded rest →
    Apart (d.tokens ++ rest)
  | .mk head suffixes, _, h => by
    rw [Operand.tokens, List.append_assoc]
    exact head.apart (suffixes.guarded h)

theorem Suffixes.guarded : (d : Suffixes) → {rest : List Token} → Guarded rest →
    Guarded (d.tokens ++ rest)
  | .nil, _, h => h
  | .call opening arguments closing suffixes, _, h => by
    rw [Suffixes.tokens, List.cons_append, List.append_assoc]
    have hclosing := closing.guarded rfl (suffixes.guarded h).apart
    exact opening.guarded rfl (arguments.apart hclosing)
  | .member opening property closing suffixes, _, h => by
    rw [Suffixes.tokens, List.cons_append, List.append_assoc]
    have hclosing := closing.guarded rfl (suffixes.guarded h).apart
    exact opening.guarded rfl (property.apart hclosing)

theorem Primary.apart : (d : Primary) → {rest : List Token} → Guarded rest →
    Apart (d.tokens ++ rest)
  | .atom token _ _, _, h => h token
  | .array opening elements closing, _, h => by
    rw [Primary.tokens, List.cons_append, List.append_assoc]
    have hclosing := closing.guarded rfl h.apart
    exact (opening.guarded rfl (elements.apart hclosing)).apart
  | .group opening inner closing, _, h => by
    rw [Primary.tokens, List.cons_append, List.append_assoc]
    have hclosing := closing.guarded rfl h.apart
    exact (opening.guarded rfl (inner.apart hclosing)).apart

theorem Items.apart : (d : Items) → {rest : List Token} → Guarded rest → Apart (d.tokens ++ rest)
  | .empty, _, h => h.apart
  | .cons first more, _, h => by
    rw [Items.tokens, List.append_assoc]
    exact first.apart (more.guarded h)

theorem More.guarded : (d : More) → {rest : List Token} → Guarded rest → Guarded (d.tokens ++ rest)
  | .nil, _, h => h
  | .cons comma item more, _, h => by
    rw [More.tokens, List.cons_append, List.append_assoc]
    exact comma.guarded rfl (item.apart (more.guarded h))

end

theorem Condition.guarded (d : Condition) (h : Apart rest) : Guarded (d.tokens ++ rest) := by
  rw [Condition.tokens, List.cons_append, List.append_assoc]
  exact d.opening.guarded rfl (d.value.apart (d.closing.guarded rfl h))

theorem Terminated.apart (d : Terminated) (h : Apart rest) : Apart (d.tokens ++ rest) := by
  rw [Terminated.tokens, List.append_assoc]
  exact d.value.apart (d.semicolon.guarded rfl h)

theorem Params.apart (d : Params) (h : Guarded rest) : Apart (d.tokens ++ rest) := by
  cases d with
  | empty => exact h.apart
  | cons first more =>
    rw [Params.tokens, List.cons_append]
    suffices hmore : Guarded ((more.flatMap fun p => [p.1.val, p.2.token.val]) ++ rest) from
      hmore first.token.val
    induction more with
    | nil => exact h
    | cons next more ih =>
      rw [List.flatMap_cons, List.append_assoc]
      exact next.1.guarded rfl (ih next.2.token.val)

mutual

theorem Statement.apart : (d : Statement) → {rest : List Token} → Apart rest →
    Apart (d.tokens ++ rest)
  | .declare keyword name equals value, _, h => by
    have hequals := equals.guarded rfl (value.apart h)
    exact (keyword.guarded rfl (hequals name.token.val)).apart
  | .print keyword value, _, h => (keyword.guarded rfl (value.apart h)).apart
  | .branch keyword condition yes no, _, h => by
    rw [Statement.tokens, List.cons_append, List.append_assoc, List.append_assoc]
    have hyes := (yes.guarded (no.apart h)).apart
    exact (keyword.guarded rfl (condition.guarded hyes).apart).apart
  | .loop keyword condition body, _, h => by
    rw [Statement.tokens, List.cons_append, List.append_assoc]
    have hbody := (body.guarded h).apart
    exact (keyword.guarded rfl (condition.guarded hbody).apart).apart
  | .block body, _, h => (body.guarded h).apart
  | .leave keyword semicolon, _, h => (keyword.guarded rfl (semicolon.guarded rfl h).apart).apart
  | .next keyword semicolon, _, h => (keyword.guarded rfl (semicolon.guarded rfl h).apart).apart
  | .function keyword name opening params closing body, _, h => by
    rw [Statement.tokens, List.cons_append, List.cons_append, List.cons_append, List.append_assoc]
    have hclosing := closing.guarded rfl (body.guarded h).apart
    have hopening := opening.guarded rfl (params.apart hclosing)
    exact (keyword.guarded rfl (hopening name.token.val)).apart
  | .give keyword semicolon, _, h => (keyword.guarded rfl (semicolon.guarded rfl h).apart).apart
  | .giveValue keyword value, _, h => (keyword.guarded rfl (value.apart h)).apart
  | .expression value, _, h => value.apart h

theorem Else.apart : (d : Else) → {rest : List Token} → Apart rest → Apart (d.tokens ++ rest)
  | .absent, _, h => h
  | .present keyword body, _, h => (keyword.guarded rfl (body.guarded h).apart).apart

theorem Block.guarded : (d : Block) → {rest : List Token} → Apart rest → Guarded (d.tokens ++ rest)
  | .mk opening body closing, _, h => by
    rw [Block.tokens, List.cons_append, List.append_assoc]
    exact opening.guarded rfl (body.apart (closing.guarded rfl h).apart)

theorem Statements.apart : (d : Statements) → {rest : List Token} → Apart rest →
    Apart (d.tokens ++ rest)
  | .nil, _, h => h
  | .cons first body, _, h => by
    rw [Statements.tokens, List.append_assoc]
    exact first.apart (body.apart h)

end

/-- Two names stand side by side in no whole derivation. -/
theorem Whole.apart (w : Whole) (h : Apart rest) : Apart (w.tokens ++ rest) := by
  rw [Whole.tokens, List.cons_append, List.append_assoc]
  exact (w.start.guarded rfl (w.body.apart (w.stop.guarded rfl h).apart)).apart

end Grammar

end KakaLang
