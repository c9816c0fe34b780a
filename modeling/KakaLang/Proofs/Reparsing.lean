import KakaLang.Proofs.Bare
import KakaLang.Proofs.Phrases
import KakaLang.Proofs.Printable

/-!
Tokens that spell the lexemes of a printable tree stand for that tree again, apart from lines. The
printer puts parentheses where a construct is looser than its place, so each place holds an
operation of the level the grammar wants there.
-/

namespace KakaLang

namespace Lexeme

/-- The tokens from one place to a later one are those of the lexemes. -/
def Spelled (ls : List Lexeme) (ts rest : List Token) : Prop :=
  ∃ tokens, ts = tokens ++ rest ∧ tokens.map (·.kind) = ls.filterMap kind?

variable {ls ms : List Lexeme} {ts rest : List Token}

@[simp]
theorem spelled_nil : Spelled [] ts rest ↔ ts = rest := by
  constructor
  · rintro ⟨tokens, rfl, h⟩
    rw [List.map_eq_nil_iff.mp h]
    rfl
  · rintro rfl
    exact ⟨[], rfl, rfl⟩

@[simp]
theorem spelled_append :
    Spelled (ls ++ ms) ts rest ↔ ∃ mid, Spelled ls ts mid ∧ Spelled ms mid rest := by
  constructor
  · rintro ⟨tokens, rfl, h⟩
    rw [List.filterMap_append, List.map_eq_append_iff] at h
    obtain ⟨first, last, rfl, hfirst, hlast⟩ := h
    exact ⟨last ++ rest, ⟨first, by simp, hfirst⟩, last, rfl, hlast⟩
  · rintro ⟨mid, ⟨first, rfl, hfirst⟩, last, rfl, hlast⟩
    exact ⟨first ++ last, by simp, by simp [hfirst, hlast]⟩

theorem spelled_cons_none {l : Lexeme} (h : l.kind? = none) :
    Spelled (l :: ls) ts rest ↔ Spelled ls ts rest := by
  rw [Spelled, List.filterMap_cons_none h]
  rfl

theorem spelled_cons_some {l : Lexeme} {kind : TokenKind} (h : l.kind? = some kind) :
    Spelled (l :: ls) ts rest ↔ ∃ t mid, ts = t :: mid ∧ t.kind = kind ∧ Spelled ls mid rest := by
  rw [Spelled, List.filterMap_cons_some h]
  constructor
  · rintro ⟨tokens, rfl, htokens⟩
    obtain ⟨t, more, rfl, ht, hmore⟩ := List.map_eq_cons_iff.mp htokens
    exact ⟨t, more ++ rest, rfl, ht, more, rfl, hmore⟩
  · rintro ⟨t, mid, rfl, ht, more, rfl, hmore⟩
    exact ⟨t :: more, rfl, by simp [ht, hmore]⟩

@[simp]
theorem spelled_space : Spelled (space :: ls) ts rest ↔ Spelled ls ts rest :=
  spelled_cons_none rfl

@[simp]
theorem spelled_newLine : Spelled (newLine :: ls) ts rest ↔ Spelled ls ts rest :=
  spelled_cons_none rfl

@[simp]
theorem spelled_symbol {s : Symbol} : Spelled (symbol s :: ls) ts rest ↔
    ∃ t mid, ts = t :: mid ∧ t.kind = .symbol s ∧ Spelled ls mid rest :=
  spelled_cons_some rfl

@[simp]
theorem spelled_keyword {k : Keyword} : Spelled (keyword k :: ls) ts rest ↔
    ∃ t mid, ts = t :: mid ∧ t.kind = .keyword k ∧ Spelled ls mid rest :=
  spelled_cons_some rfl

@[simp]
theorem spelled_name {n : String} : Spelled (name n :: ls) ts rest ↔
    ∃ t mid, ts = t :: mid ∧ t.kind = .identifier n ∧ Spelled ls mid rest :=
  spelled_cons_some rfl

@[simp]
theorem spelled_line {depth : Nat} :
    Spelled (line depth ls) ts rest ↔ Spelled ls ts rest := by
  have hindent : ∀ n, Spelled (List.replicate n space ++ (ls ++ [newLine])) ts rest ↔
      Spelled (ls ++ [newLine]) ts rest := by
    intro n
    induction n with
    | zero => rfl
    | succ n ih => rw [List.replicate_succ, List.cons_append, spelled_space, ih]
  rw [line, hindent]
  simp

end Lexeme

open Grammar

open Lexeme (Spelled)

theorem Lexeme.parenthesized_zero (n : Nat) (ls : List Lexeme) :
    parenthesized (decide (n < 0)) ls = ls := by
  rw [decide_eq_false (Nat.not_lt_zero n)]
  rfl

namespace Expr

theorem lexemes_eq (level : Nat) (e : Expr) :
    e.lexemes level = Lexeme.parenthesized (e.level < level) (e.lexemes 0) := by
  cases e <;> simp [lexemes, Lexeme.parenthesized]

theorem level_bounds (e : Expr) : Level.assignment ≤ e.level ∧ e.level ≤ Level.operand := by
  cases e with
  | binary op =>
    have hlow := (Operator.binary op).or_le_level
    have hhigh := (Operator.binary op).level_lt_operand
    exact ⟨Nat.le_of_lt hlow, Nat.le_of_lt hhigh⟩
  | logical op =>
    have hlow := (Operator.logical op).or_le_level
    have hhigh := (Operator.logical op).level_lt_operand
    exact ⟨Nat.le_of_lt hlow, Nat.le_of_lt hhigh⟩
  | assign => exact ⟨Nat.le_refl _, (by decide : Level.assignment ≤ Level.operand)⟩
  | _ => exact ⟨(by decide : Level.assignment ≤ Level.operand), Nat.le_refl _⟩

/-- Tokens that spell the expression without parentheses around it stand for it again, as an
operation of its own level or as an assignment. -/
def Returns (e : Expr) : Prop :=
  ∀ ts rest, Spelled (e.lexemes 0) ts rest →
    ∃ e', e'.bare id = e.bare Literal.unsigned ∧ IsExpression e' ts rest ∧
      (Level.or ≤ e.level → IsOperation e.level e' ts rest)

namespace Returns

variable {e : Expr} {ts rest : List Token}

theorem of_operation (hlevel : Level.or ≤ e.level)
    (h : ∀ ts rest, Spelled (e.lexemes 0) ts rest →
      ∃ e', e'.bare id = e.bare Literal.unsigned ∧ IsOperation e.level e' ts rest) :
    Returns e := by
  intro ts rest hspelled
  obtain ⟨e', hbare, hoperation⟩ := h ts rest hspelled
  have hloosest := hoperation.lower hlevel e.level_bounds.2
  exact ⟨e', hbare, .plain hloosest, fun _ => hoperation⟩

theorem expression (h : Returns e) (hspelled : Spelled (e.lexemes Level.assignment) ts rest) :
    ∃ e', e'.bare id = e.bare Literal.unsigned ∧ IsExpression e' ts rest := by
  have hlevel : ¬ e.level < Level.assignment := Nat.not_lt.mpr e.level_bounds.1
  rw [lexemes_eq, decide_eq_false hlevel] at hspelled
  obtain ⟨e', hbare, hexpression, -⟩ := h ts rest hspelled
  exact ⟨e', hbare, hexpression⟩

/-- In a place for operations of some level, parentheses make up for a looser construct. -/
theorem operation (h : Returns e) {level : Nat} (hlow : Level.or ≤ level)
    (hhigh : level ≤ Level.operand) (hspelled : Spelled (e.lexemes level) ts rest) :
    ∃ e', e'.bare id = e.bare Literal.unsigned ∧ IsOperation level e' ts rest := by
  rw [lexemes_eq] at hspelled
  by_cases hlevel : e.level < level
  · simp only [Lexeme.parenthesized, hlevel, decide_true, if_true, Lexeme.spelled_symbol,
      Lexeme.spelled_append, Lexeme.spelled_nil] at hspelled
    obtain ⟨opening, mid, rfl, hopening, last, hinner, closing, _, rfl, hclosing, rfl⟩ := hspelled
    obtain ⟨e', hbare, hexpression, -⟩ := h mid _ hinner
    have hgroup := IsPrimary.group hopening hexpression hclosing
    exact ⟨e', hbare, (IsOperation.operand hgroup.operand).lower hhigh (Nat.le_refl _)⟩
  · rw [decide_eq_false hlevel] at hspelled
    obtain ⟨e', hbare, -, hoperation⟩ := h ts rest hspelled
    have hle : level ≤ e.level := Nat.not_lt.mp hlevel
    exact ⟨e', hbare, (hoperation (Nat.le_trans hlow hle)).lower hle e.level_bounds.2⟩

theorem of_operand (hlevel : e.level = Level.operand)
    (h : ∀ ts rest, Spelled (e.lexemes 0) ts rest →
      ∃ e', e'.bare id = e.bare Literal.unsigned ∧ IsOperand e' ts rest) : Returns e := by
  apply of_operation (by rw [hlevel]; decide)
  intro ts rest hspelled
  obtain ⟨e', hbare, hoperand⟩ := h ts rest hspelled
  rw [hlevel]
  exact ⟨e', hbare, .operand hoperand⟩

theorem operand (h : Returns e) (hspelled : Spelled (e.lexemes Level.operand) ts rest) :
    ∃ e', e'.bare id = e.bare Literal.unsigned ∧ IsOperand e' ts rest := by
  obtain ⟨e', hbare, hoperation⟩ := h.operation (by decide) (Nat.le_refl _) hspelled
  exact ⟨e', hbare, hoperation.toOperand⟩

/-- Two operands with an operator between them; the one on the right is a level tighter. -/
theorem join {left right : Expr} {l : Lexeme} (hleft : Returns left) (op : Operator)
    (hright : Returns right) (hl : l.kind? = some op.kind)
    (hspelled : Spelled (left.lexemes op.level ++
      .space :: l :: .space :: right.lexemes (op.level + 1)) ts rest) :
    ∃ left' right' line, left'.bare id = left.bare Literal.unsigned ∧
      right'.bare id = right.bare Literal.unsigned ∧
      IsOperation op.level (.join op left' right' line) ts rest := by
  have hlow := op.or_le_level
  have hhigh := op.level_lt_operand
  rw [Lexeme.spelled_append] at hspelled
  obtain ⟨mid, hspelled, hmid⟩ := hspelled
  rw [Lexeme.spelled_space, Lexeme.spelled_cons_some hl] at hmid
  obtain ⟨t, last, rfl, ht, hlast⟩ := hmid
  rw [Lexeme.spelled_space] at hlast
  obtain ⟨left', hbare, hleft'⟩ := hleft.operation hlow (Nat.le_of_lt hhigh) hspelled
  obtain ⟨right', hbare', hright'⟩ := hright.operation (Nat.le_succ_of_le hlow) hhigh hlast
  exact ⟨left', right', t.line, hbare, hbare', hleft'.join ht hright'⟩

end Returns

/-- Tokens that spell the expressions, each after a comma, stand for them again. -/
theorem following_returns {es : List Expr} (h : ∀ e ∈ es, Returns e) {ts rest : List Token}
    (hspelled : Spelled (Lexeme.following (listLexemes es)) ts rest) :
    ∃ es', bareAll id es' = bareAll Literal.unsigned es ∧ IsMore es' ts rest := by
  induction es generalizing ts with
  | nil =>
    rw [listLexemes, Lexeme.following, Lexeme.spelled_nil] at hspelled
    subst hspelled
    exact ⟨[], rfl, .nil ts⟩
  | cons e es ih =>
    simp only [listLexemes, Lexeme.following, Lexeme.spelled_symbol, Lexeme.spelled_space,
      Lexeme.spelled_append] at hspelled
    obtain ⟨comma, ts, rfl, hcomma, mid, he, hes⟩ := hspelled
    obtain ⟨e', hbare, hexpression⟩ := (h e (by simp)).expression he
    obtain ⟨es', hbares, hmore⟩ := ih (fun x hx => h x (by simp [hx])) hes
    exact ⟨e' :: es', by simp [bareAll, hbare, hbares], .cons hcomma hexpression hmore⟩

theorem separated_returns {es : List Expr} (h : ∀ e ∈ es, Returns e) {ts rest : List Token}
    (hspelled : Spelled (Lexeme.separated (listLexemes es)) ts rest) :
    ∃ es', bareAll id es' = bareAll Literal.unsigned es ∧ IsItems es' ts rest := by
  cases es with
  | nil =>
    rw [listLexemes, Lexeme.separated, Lexeme.spelled_nil] at hspelled
    subst hspelled
    exact ⟨[], rfl, .empty ts⟩
  | cons e es =>
    rw [listLexemes, Lexeme.separated, Lexeme.spelled_append] at hspelled
    obtain ⟨mid, he, hes⟩ := hspelled
    obtain ⟨e', hbare, hexpression⟩ := (h e (by simp)).expression he
    obtain ⟨es', hbares, hmore⟩ := following_returns (fun x hx => h x (by simp [hx])) hes
    exact ⟨e' :: es', by simp [bareAll, hbare, hbares], .cons hexpression hmore⟩

theorem literal_returns {value : Literal} (h : value.Printable) (line : Nat) :
    Returns (.literal value line) := by
  apply Returns.of_operand rfl
  intro ts rest hspelled
  obtain ⟨kind, hkind, hatom⟩ : ∃ kind, (Lexeme.ofLiteral value).kind? = some kind ∧
      ∀ line, Atom line kind (.literal value.unsigned line) := by
    cases value with
    | number x =>
      refine ⟨_, rfl, fun line => ?_⟩
      rw [Literal.unsigned, ← Number.numeralValue_numeralSource h]
      exact .number _
    | string s => exact ⟨_, rfl, fun line => .string s⟩
    | bool b =>
      cases b with
      | true => exact ⟨_, rfl, fun line => .trueWord⟩
      | false => exact ⟨_, rfl, fun line => .falseWord⟩
    | null => exact ⟨_, rfl, fun line => .null⟩
  have hlexemes : (Expr.literal value line).lexemes 0 = [Lexeme.ofLiteral value] := by
    simp [lexemes, Lexeme.parenthesized]
  rw [hlexemes, Lexeme.spelled_cons_some hkind] at hspelled
  obtain ⟨t, mid, rfl, ht, hrest⟩ := hspelled
  rw [Lexeme.spelled_nil] at hrest
  subst hrest
  have hprimary : IsPrimary (.literal value.unsigned t.line) (t :: mid) mid :=
    IsPrimary.atom (by rw [ht]; exact hatom t.line) mid
  exact ⟨_, rfl, hprimary.operand⟩

mutual

/-- Tokens that spell a printable expression stand for it again. -/
theorem returns : (e : Expr) → e.Printable → Returns e
  | .literal value line, h => literal_returns h line
  | .ident name _, _ => by
    apply Returns.of_operand rfl
    intro ts rest hspelled
    simp only [lexemes, Lexeme.parenthesized_zero, Lexeme.spelled_name, Lexeme.spelled_nil] at hspelled
    obtain ⟨t, mid, rfl, ht, rfl⟩ := hspelled
    have hprimary : IsPrimary (.ident name t.line) (t :: mid) mid :=
      IsPrimary.atom (by rw [ht]; exact .name name) mid
    exact ⟨_, rfl, hprimary.operand⟩
  | .binary op left right _, h => by
    refine Returns.of_operation ?_ fun ts rest hspelled => ?_
    · exact (Operator.binary op).or_le_level
    simp only [lexemes, Lexeme.parenthesized_zero] at hspelled
    obtain ⟨left', right', line, hleft, hright, hjoin⟩ :=
      (returns left h.1).join (.binary op) (returns right h.2) rfl hspelled
    exact ⟨_, by simp [Expr.join, bare, hleft, hright], hjoin⟩
  | .logical op left right _, h => by
    refine Returns.of_operation ?_ fun ts rest hspelled => ?_
    · exact (Operator.logical op).or_le_level
    simp only [lexemes, Lexeme.parenthesized_zero] at hspelled
    obtain ⟨left', right', line, hleft, hright, hjoin⟩ :=
      (returns left h.1).join (.logical op) (returns right h.2) rfl hspelled
    exact ⟨_, by simp [Expr.join, bare, hleft, hright], hjoin⟩
  | .assign name value _, h => by
    intro ts rest hspelled
    simp only [lexemes, Lexeme.parenthesized_zero, Lexeme.spelled_space, Lexeme.spelled_name, Lexeme.spelled_symbol] at hspelled
    obtain ⟨t, _, rfl, ht, equals, mid, rfl, hequals, hvalue⟩ := hspelled
    obtain ⟨value', hbare, hvalue⟩ := (returns value h.2).expression hvalue
    have hname : IsPrimary (.ident name t.line) (t :: equals :: mid) (equals :: mid) :=
      IsPrimary.atom (by rw [ht]; exact .name name) _
    have htarget : IsOperation Level.or (.ident name t.line) (t :: equals :: mid) (equals :: mid) :=
      (IsOperation.operand hname.operand).lower (by decide) (Nat.le_refl _)
    refine ⟨_, ?_, IsExpression.assign htarget hequals hvalue, ?_⟩
    · simp [bare, hbare]
    · intro hlevel
      exact absurd hlevel (by decide : ¬ Level.or ≤ Level.assignment)
  | .input _, _ => by
    apply Returns.of_operand rfl
    intro ts rest hspelled
    simp only [lexemes, Lexeme.parenthesized_zero, Lexeme.spelled_keyword, Lexeme.spelled_nil] at hspelled
    obtain ⟨t, mid, rfl, ht, rfl⟩ := hspelled
    have hprimary : IsPrimary (.input t.line) (t :: mid) mid :=
      IsPrimary.atom (by rw [ht]; exact .input) mid
    exact ⟨_, rfl, hprimary.operand⟩
  | .call callee arguments _, h => by
    apply Returns.of_operand rfl
    intro ts rest hspelled
    simp only [lexemes, Lexeme.parenthesized_zero, Lexeme.spelled_append, Lexeme.spelled_symbol, Lexeme.spelled_nil] at hspelled
    obtain ⟨_, hcallee, opening, _, rfl, hopening, _, harguments, closing, last, rfl, hclosing,
      hlast⟩ := hspelled
    subst hlast
    obtain ⟨callee', hbare, hcallee⟩ := (returns callee h.1).operand hcallee
    obtain ⟨arguments', hbares, harguments⟩ :=
      separated_returns (list_returns arguments h.2) harguments
    have hcall : IsSuffixes callee' (.call callee' arguments' opening.line) _ last :=
      IsSuffixes.call hopening harguments hclosing (IsSuffixes.nil _ last)
    exact ⟨_, by simp [bare, hbare, hbares], hcallee.extend hcall⟩
  | .array elements _, h => by
    apply Returns.of_operand rfl
    intro ts rest hspelled
    simp only [lexemes, Lexeme.parenthesized_zero, Lexeme.spelled_append, Lexeme.spelled_symbol, Lexeme.spelled_nil] at hspelled
    obtain ⟨opening, _, rfl, hopening, _, helements, closing, last, rfl, hclosing, rfl⟩ := hspelled
    obtain ⟨elements', hbares, helements⟩ := separated_returns (list_returns elements h) helements
    exact ⟨_, by simp [bare, hbares], (IsPrimary.array hopening helements hclosing).operand⟩
  | .member object property _, h => by
    apply Returns.of_operand rfl
    intro ts rest hspelled
    simp only [lexemes, Lexeme.parenthesized_zero, Lexeme.spelled_append, Lexeme.spelled_symbol, Lexeme.spelled_nil] at hspelled
    obtain ⟨_, hobject, opening, _, rfl, hopening, _, hproperty, closing, last, rfl, hclosing,
      hlast⟩ := hspelled
    subst hlast
    obtain ⟨object', hbare, hobject⟩ := (returns object h.1).operand hobject
    obtain ⟨property', hbare', hproperty⟩ := (returns property h.2).expression hproperty
    have hmember : IsSuffixes object' (.member object' property' opening.line) _ last :=
      IsSuffixes.member hopening hproperty hclosing (IsSuffixes.nil _ last)
    exact ⟨_, by simp [bare, hbare, hbare'], hobject.extend hmember⟩

theorem list_returns : (es : List Expr) → AllPrintable es → ∀ e ∈ es, Returns e
  | [], _ => by simp
  | e :: es, h => by
    intro x hx
    rcases List.mem_cons.mp hx with hx | hx
    · rw [hx]
      exact returns e h.1
    · exact list_returns es h.2 x hx

end

end Expr

end KakaLang
