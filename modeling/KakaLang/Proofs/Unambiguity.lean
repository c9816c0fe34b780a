import KakaLang.Proofs.Lookahead

/-!
Expressions are unambiguous. Two derivations whose tokens begin one and the same list are equal, and
leave the same rest, as soon as what follows each of them cannot extend it. The proof compares the
two derivations production by production: wherever they could differ, the next token tells which
production it is.
-/

namespace KakaLang.Grammar

open KakaLang.Parser

/-- A closing parenthesis or bracket is next. -/
def Ends (ts : List Token) : Prop :=
  kindOf ts = .symbol .closeParen ∨ kindOf ts = .symbol .closeBracket

theorem Ends.closes {ts : List Token} (h : Ends ts) : Closes ts := Or.inr (Or.inr h)

theorem Ends.kind_ne_comma {ts : List Token} (h : Ends ts) : kindOf ts ≠ .symbol .comma := by
  rcases h with h | h <;> rw [h] <;> decide

theorem Closes.not_begins {ts : List Token} (h : Closes ts) :
    beginsExpression (kindOf ts) = false := by
  rcases h with h | h | h | h <;> rw [h] <;> rfl

/-- Equal lists that start with tokens of given kinds start with the same token. -/
theorem terminal_cons_inj {kind : TokenKind} {t t' : Terminal kind} {ts ts' : List Token}
    (h : t.val :: ts = t'.val :: ts') : t = t' ∧ ts = ts' := by
  obtain ⟨hval, hts⟩ := List.cons.inj h
  exact ⟨Subtype.ext hval, hts⟩

theorem Sign.cons_inj {level : Nat} {s s' : Sign level} {ts ts' : List Token}
    (h : s.token.val :: ts = s'.token.val :: ts') : s = s' ∧ ts = ts' := by
  obtain ⟨hval, hts⟩ := List.cons.inj h
  obtain ⟨op, ⟨t, ht⟩, hlevel⟩ := s
  obtain ⟨op', ⟨t', ht'⟩, hlevel'⟩ := s'
  have hval : t = t' := hval
  have hop : some op = some op' := by
    rw [← op.ofKind?_kind, ← op'.ofKind?_kind, ← ht, ← ht', hval]
  cases hop
  cases hval
  exact ⟨rfl, hts⟩

theorem Name.cons_inj {n n' : Name} {ts ts' : List Token}
    (h : n.token.val :: ts = n'.token.val :: ts') : n = n' ∧ ts = ts' := by
  obtain ⟨hval, hts⟩ := List.cons.inj h
  obtain ⟨text, ⟨t, ht⟩⟩ := n
  obtain ⟨text', ⟨t', ht'⟩⟩ := n'
  have hval : t = t' := hval
  cases hval
  have htext : text = text' := by
    rw [ht] at ht'
    cases ht'
    rfl
  cases htext
  exact ⟨rfl, hts⟩

theorem Atom.unique {line : Nat} {kind : TokenKind} {e e' : Expr} (h : Atom line kind e)
    (h' : Atom line kind e') : e = e' := by
  rw [← atom?_eq_some_iff] at h h'
  exact Option.some.inj (h.symm.trans h')

theorem Atom.kind_ne_symbol {line : Nat} {kind : TokenKind} {e : Expr} (h : Atom line kind e)
    (s : Symbol) : kind ≠ .symbol s := by
  cases h <;> simp

def Expression.Determined (d : Expression) : Prop :=
  ∀ (d' : Expression) (rest rest' : List Token), d.tokens ++ rest = d'.tokens ++ rest' →
    Closes rest → Closes rest' → d = d' ∧ rest = rest'

def Operation.Determined {level : Nat} (d : Operation level) : Prop :=
  ∀ (d' : Operation level) (rest rest' : List Token), d.tokens ++ rest = d'.tokens ++ rest' →
    NoSuffix rest → NoSuffix rest' → NoOperator level rest → NoOperator level rest' →
    d = d' ∧ rest = rest'

def Tail.Determined {level : Nat} (d : Tail level) : Prop :=
  ∀ (d' : Tail level) (rest rest' : List Token), d.tokens ++ rest = d'.tokens ++ rest' →
    NoSuffix rest → NoSuffix rest' → NoOperator level rest → NoOperator level rest' →
    d = d' ∧ rest = rest'

def Operand.Determined (d : Operand) : Prop :=
  ∀ (d' : Operand) (rest rest' : List Token), d.tokens ++ rest = d'.tokens ++ rest' →
    NoSuffix rest → NoSuffix rest' → d = d' ∧ rest = rest'

def Suffixes.Determined (d : Suffixes) : Prop :=
  ∀ (d' : Suffixes) (rest rest' : List Token), d.tokens ++ rest = d'.tokens ++ rest' →
    NoSuffix rest → NoSuffix rest' → d = d' ∧ rest = rest'

def Primary.Determined (d : Primary) : Prop :=
  ∀ (d' : Primary) (rest rest' : List Token), d.tokens ++ rest = d'.tokens ++ rest' →
    d = d' ∧ rest = rest'

def Items.Determined (d : Items) : Prop :=
  ∀ (d' : Items) (rest rest' : List Token), d.tokens ++ rest = d'.tokens ++ rest' →
    Ends rest → Ends rest' → d = d' ∧ rest = rest'

def More.Determined (d : More) : Prop :=
  ∀ (d' : More) (rest rest' : List Token), d.tokens ++ rest = d'.tokens ++ rest' →
    Ends rest → Ends rest' → d = d' ∧ rest = rest'

theorem equals_noSuffix (t : Terminal (.symbol .equals)) (rest : List Token) :
    NoSuffix (t.val :: rest) := by
  unfold NoSuffix
  rw [kindOf_terminal]
  decide

theorem equals_noOperator (t : Terminal (.symbol .equals)) (rest : List Token) (level : Nat) :
    NoOperator level (t.val :: rest) := by
  intro op hop
  rw [kindOf_terminal] at hop
  cases hop

theorem Expression.determined_plain {value : Operation Level.or} (hvalue : value.Determined) :
    (Expression.plain value).Determined := by
  intro d' rest rest' heq hrest hrest'
  cases d' with
  | plain value' =>
    obtain ⟨rfl, rfl⟩ := hvalue value' rest rest' heq hrest.noSuffix hrest'.noSuffix
      (hrest.noOperator _) (hrest'.noOperator _)
    exact ⟨rfl, rfl⟩
  | assign target' equals' value' =>
    simp only [Expression.tokens, List.append_assoc, List.cons_append] at heq
    obtain ⟨-, rfl⟩ := hvalue target' rest _ heq hrest.noSuffix (equals_noSuffix _ _)
      (hrest.noOperator _) (equals_noOperator _ _ _)
    exact absurd (kindOf_terminal equals' _) hrest.kind_ne_equals

theorem Expression.determined_assign {target : Operation Level.or}
    {equals : Terminal (.symbol .equals)} {value : Expression} (htarget : target.Determined)
    (hvalue : value.Determined) : (Expression.assign target equals value).Determined := by
  intro d' rest rest' heq hrest hrest'
  cases d' with
  | plain value' =>
    simp only [Expression.tokens, List.append_assoc, List.cons_append] at heq
    obtain ⟨-, rfl⟩ := htarget value' _ rest' heq (equals_noSuffix _ _) hrest'.noSuffix
      (equals_noOperator _ _ _) (hrest'.noOperator _)
    exact absurd (kindOf_terminal equals _) hrest'.kind_ne_equals
  | assign target' equals' value' =>
    simp only [Expression.tokens, List.append_assoc, List.cons_append] at heq
    obtain ⟨rfl, htail⟩ := htarget target' _ _ heq (equals_noSuffix _ _) (equals_noSuffix _ _)
      (equals_noOperator _ _ _) (equals_noOperator _ _ _)
    obtain ⟨rfl, hlast⟩ := terminal_cons_inj htail
    obtain ⟨rfl, rfl⟩ := hvalue value' rest rest' hlast hrest hrest'
    exact ⟨rfl, rfl⟩

theorem Operation.determined_operand {value : Operand} (hvalue : value.Determined) :
    (Operation.operand value).Determined := by
  intro d' rest rest' heq hrest hrest' _ _
  cases d' with
  | operand value' =>
    obtain ⟨rfl, rfl⟩ := hvalue value' rest rest' heq hrest hrest'
    exact ⟨rfl, rfl⟩
  | chain looser first tail => exact absurd looser (Nat.lt_irrefl _)

theorem Operation.determined_chain {level : Nat} {looser : level < Level.operand}
    {first : Operation (level + 1)} {tail : Tail level} (hfirst : first.Determined)
    (htail : tail.Determined) : (Operation.chain looser first tail).Determined := by
  intro d' rest rest' heq hrest hrest' hop hop'
  cases d' with
  | operand value' => exact absurd looser (Nat.lt_irrefl _)
  | chain looser' first' tail' =>
    simp only [Operation.tokens, List.append_assoc] at heq
    obtain ⟨rfl, hnext⟩ := hfirst first' _ _ heq (tail.noSuffix hrest) (tail'.noSuffix hrest')
      (tail.noOperator (hop.mono (Nat.le_succ _))) (tail'.noOperator (hop'.mono (Nat.le_succ _)))
    obtain ⟨rfl, rfl⟩ := htail tail' rest rest' hnext hrest hrest' hop hop'
    exact ⟨rfl, rfl⟩

/-- An operator of a level does not follow what no operator of that level may follow. -/
theorem Sign.not_noOperator {level : Nat} (sign : Sign level) (rest : List Token) :
    ¬ NoOperator level (sign.token.val :: rest) := by
  intro h
  obtain ⟨op, t, rfl⟩ := sign
  have hlt := h op (by rw [kindOf_terminal, Operator.ofKind?_kind])
  exact Nat.lt_irrefl _ hlt

theorem Tail.determined_nil {level : Nat} : (Tail.nil : Tail level).Determined := by
  intro d' rest rest' heq _ _ hop _
  cases d' with
  | nil => exact ⟨rfl, heq⟩
  | cons sign right more =>
    have heq : rest = sign.token.val :: (right.tokens ++ more.tokens ++ rest') := heq
    rw [heq] at hop
    exact absurd hop (sign.not_noOperator _)

theorem Tail.determined_cons {level : Nat} {sign : Sign level} {right : Operation (level + 1)}
    {more : Tail level} (hright : right.Determined) (hmore : more.Determined) :
    (Tail.cons sign right more).Determined := by
  intro d' rest rest' heq hrest hrest' hop hop'
  cases d' with
  | nil =>
    have heq : sign.token.val :: (right.tokens ++ more.tokens ++ rest) = rest' := heq
    rw [← heq] at hop'
    exact absurd hop' (sign.not_noOperator _)
  | cons sign' right' more' =>
    simp only [Tail.tokens, List.cons_append, List.append_assoc] at heq
    obtain ⟨rfl, hnext⟩ := Sign.cons_inj heq
    obtain ⟨rfl, hlast⟩ := hright right' _ _ hnext (more.noSuffix hrest) (more'.noSuffix hrest')
      (more.noOperator (hop.mono (Nat.le_succ _))) (more'.noOperator (hop'.mono (Nat.le_succ _)))
    obtain ⟨rfl, rfl⟩ := hmore more' rest rest' hlast hrest hrest' hop hop'
    exact ⟨rfl, rfl⟩

theorem Operand.determined_mk {head : Primary} {suffixes : Suffixes} (hhead : head.Determined)
    (hsuffixes : suffixes.Determined) : (Operand.mk head suffixes).Determined := by
  intro d' rest rest' heq hrest hrest'
  obtain ⟨head', suffixes'⟩ := d'
  simp only [Operand.tokens, List.append_assoc] at heq
  obtain ⟨rfl, hnext⟩ := hhead head' _ _ heq
  obtain ⟨rfl, rfl⟩ := hsuffixes suffixes' rest rest' hnext hrest hrest'
  exact ⟨rfl, rfl⟩

theorem Suffixes.determined_nil : Suffixes.nil.Determined := by
  intro d' rest rest' heq hrest _
  cases d' with
  | nil => exact ⟨rfl, heq⟩
  | call opening arguments closing more =>
    have hkind := congrArg kindOf heq
    exact absurd (hkind.trans (kindOf_terminal opening _)) hrest.1
  | member opening property closing more =>
    have hkind := congrArg kindOf heq
    exact absurd (hkind.trans (kindOf_terminal opening _)) hrest.2

theorem Suffixes.determined_call {opening : Terminal (.symbol .openParen)} {arguments : Items}
    {closing : Terminal (.symbol .closeParen)} {more : Suffixes}
    (harguments : arguments.Determined) (hmore : more.Determined) :
    (Suffixes.call opening arguments closing more).Determined := by
  intro d' rest rest' heq hrest hrest'
  cases d' with
  | nil =>
    have hkind := congrArg kindOf heq
    exact absurd (hkind.symm.trans (kindOf_terminal opening _)) hrest'.1
  | call opening' arguments' closing' more' =>
    simp only [Suffixes.tokens, List.cons_append, List.append_assoc] at heq
    obtain ⟨rfl, hnext⟩ := terminal_cons_inj heq
    obtain ⟨rfl, hlast⟩ := harguments arguments' _ _ hnext (Or.inl closing.property)
      (Or.inl closing'.property)
    obtain ⟨rfl, hmoreEq⟩ := terminal_cons_inj hlast
    obtain ⟨rfl, rfl⟩ := hmore more' rest rest' hmoreEq hrest hrest'
    exact ⟨rfl, rfl⟩
  | member opening' property' closing' more' =>
    have hkind := congrArg kindOf heq
    simp [Suffixes.tokens] at hkind

theorem Suffixes.determined_member {opening : Terminal (.symbol .openBracket)}
    {property : Expression} {closing : Terminal (.symbol .closeBracket)} {more : Suffixes}
    (hproperty : property.Determined) (hmore : more.Determined) :
    (Suffixes.member opening property closing more).Determined := by
  intro d' rest rest' heq hrest hrest'
  cases d' with
  | nil =>
    have hkind := congrArg kindOf heq
    exact absurd (hkind.symm.trans (kindOf_terminal opening _)) hrest'.2
  | call opening' arguments' closing' more' =>
    have hkind := congrArg kindOf heq
    simp [Suffixes.tokens] at hkind
  | member opening' property' closing' more' =>
    simp only [Suffixes.tokens, List.cons_append, List.append_assoc] at heq
    obtain ⟨rfl, hnext⟩ := terminal_cons_inj heq
    obtain ⟨rfl, hlast⟩ := hproperty property' _ _ hnext
      (Ends.closes (Or.inr closing.property)) (Ends.closes (Or.inr closing'.property))
    obtain ⟨rfl, hmoreEq⟩ := terminal_cons_inj hlast
    obtain ⟨rfl, rfl⟩ := hmore more' rest rest' hmoreEq hrest hrest'
    exact ⟨rfl, rfl⟩

theorem Primary.determined_atom {token : Token} {value : Expr}
    {hatom : Atom token.line token.kind value} :
    (Primary.atom token value hatom).Determined := by
  intro d' rest rest' heq
  cases d' with
  | atom token' value' hatom' =>
    obtain ⟨rfl, rfl⟩ := List.cons.inj heq
    cases hatom.unique hatom'
    exact ⟨rfl, rfl⟩
  | array opening' elements' closing' =>
    have hkind := congrArg kindOf heq
    exact absurd (hkind.trans (kindOf_terminal opening' _)) (hatom.kind_ne_symbol _)
  | group opening' inner' closing' =>
    have hkind := congrArg kindOf heq
    exact absurd (hkind.trans (kindOf_terminal opening' _)) (hatom.kind_ne_symbol _)

theorem Primary.determined_array {opening : Terminal (.symbol .openBracket)} {elements : Items}
    {closing : Terminal (.symbol .closeBracket)} (helements : elements.Determined) :
    (Primary.array opening elements closing).Determined := by
  intro d' rest rest' heq
  cases d' with
  | atom token' value' hatom' =>
    have hkind := congrArg kindOf heq
    exact absurd (hkind.symm.trans (kindOf_terminal opening _)) (hatom'.kind_ne_symbol _)
  | array opening' elements' closing' =>
    simp only [Primary.tokens, List.cons_append, List.append_assoc, List.nil_append] at heq
    obtain ⟨rfl, hnext⟩ := terminal_cons_inj heq
    obtain ⟨rfl, hlast⟩ := helements elements' _ _ hnext (Or.inr closing.property)
      (Or.inr closing'.property)
    obtain ⟨rfl, rfl⟩ := terminal_cons_inj hlast
    exact ⟨rfl, rfl⟩
  | group opening' inner' closing' =>
    have hkind := congrArg kindOf heq
    simp [Primary.tokens] at hkind

theorem Primary.determined_group {opening : Terminal (.symbol .openParen)} {inner : Expression}
    {closing : Terminal (.symbol .closeParen)} (hinner : inner.Determined) :
    (Primary.group opening inner closing).Determined := by
  intro d' rest rest' heq
  cases d' with
  | atom token' value' hatom' =>
    have hkind := congrArg kindOf heq
    exact absurd (hkind.symm.trans (kindOf_terminal opening _)) (hatom'.kind_ne_symbol _)
  | array opening' elements' closing' =>
    have hkind := congrArg kindOf heq
    simp [Primary.tokens] at hkind
  | group opening' inner' closing' =>
    simp only [Primary.tokens, List.cons_append, List.append_assoc, List.nil_append] at heq
    obtain ⟨rfl, hnext⟩ := terminal_cons_inj heq
    obtain ⟨rfl, hlast⟩ := hinner inner' _ _ hnext (Ends.closes (Or.inl closing.property))
      (Ends.closes (Or.inl closing'.property))
    obtain ⟨rfl, rfl⟩ := terminal_cons_inj hlast
    exact ⟨rfl, rfl⟩

/-- Where an expression is closed, none begins. -/
theorem Expression.not_closes (d : Expression) (rest : List Token) :
    ¬ Closes (d.tokens ++ rest) := by
  intro h
  have hbegins := d.begins rest
  rw [h.not_begins] at hbegins
  cases hbegins

theorem More.closes (d : More) {rest : List Token} (h : Ends rest) :
    Closes (d.tokens ++ rest) := by
  cases d with
  | nil => exact h.closes
  | cons comma item more => exact Or.inr (Or.inl (kindOf_terminal comma _))

theorem Items.determined_empty : Items.empty.Determined := by
  intro d' rest rest' heq hrest _
  cases d' with
  | empty => exact ⟨rfl, heq⟩
  | cons first more =>
    simp only [Items.tokens, List.nil_append, List.append_assoc] at heq
    exact absurd (heq ▸ hrest.closes) (first.not_closes _)

theorem Items.determined_cons {first : Expression} {more : More} (hfirst : first.Determined)
    (hmore : more.Determined) : (Items.cons first more).Determined := by
  intro d' rest rest' heq hrest hrest'
  cases d' with
  | empty =>
    simp only [Items.tokens, List.nil_append, List.append_assoc] at heq
    exact absurd (heq ▸ hrest'.closes) (first.not_closes _)
  | cons first' more' =>
    simp only [Items.tokens, List.append_assoc] at heq
    obtain ⟨rfl, hnext⟩ := hfirst first' _ _ heq (more.closes hrest) (more'.closes hrest')
    obtain ⟨rfl, rfl⟩ := hmore more' rest rest' hnext hrest hrest'
    exact ⟨rfl, rfl⟩

theorem More.determined_nil : More.nil.Determined := by
  intro d' rest rest' heq hrest _
  cases d' with
  | nil => exact ⟨rfl, heq⟩
  | cons comma item more =>
    have hkind := congrArg kindOf heq
    exact absurd (hkind.trans (kindOf_terminal comma _)) hrest.kind_ne_comma

theorem More.determined_cons {comma : Terminal (.symbol .comma)} {item : Expression} {more : More}
    (hitem : item.Determined) (hmore : more.Determined) :
    (More.cons comma item more).Determined := by
  intro d' rest rest' heq hrest hrest'
  cases d' with
  | nil =>
    have hkind := congrArg kindOf heq
    exact absurd (hkind.symm.trans (kindOf_terminal comma _)) hrest'.kind_ne_comma
  | cons comma' item' more' =>
    simp only [More.tokens, List.cons_append, List.append_assoc] at heq
    obtain ⟨rfl, hnext⟩ := terminal_cons_inj heq
    obtain ⟨rfl, hlast⟩ := hitem item' _ _ hnext (more.closes hrest) (more'.closes hrest')
    obtain ⟨rfl, rfl⟩ := hmore more' rest rest' hlast hrest hrest'
    exact ⟨rfl, rfl⟩

mutual

theorem Expression.determined : (d : Expression) → d.Determined
  | .plain value => Expression.determined_plain value.determined
  | .assign target _ value => Expression.determined_assign target.determined value.determined

theorem Operation.determined : {level : Nat} → (d : Operation level) → d.Determined
  | _, .operand value => Operation.determined_operand value.determined
  | _, .chain _ first tail => Operation.determined_chain first.determined tail.determined

theorem Tail.determined : {level : Nat} → (d : Tail level) → d.Determined
  | _, .nil => Tail.determined_nil
  | _, .cons _ right more => Tail.determined_cons right.determined more.determined

theorem Operand.determined : (d : Operand) → d.Determined
  | .mk head suffixes => Operand.determined_mk head.determined suffixes.determined

theorem Suffixes.determined : (d : Suffixes) → d.Determined
  | .nil => Suffixes.determined_nil
  | .call _ arguments _ more => Suffixes.determined_call arguments.determined more.determined
  | .member _ property _ more => Suffixes.determined_member property.determined more.determined

theorem Primary.determined : (d : Primary) → d.Determined
  | .atom _ _ _ => Primary.determined_atom
  | .array _ elements _ => Primary.determined_array elements.determined
  | .group _ inner _ => Primary.determined_group inner.determined

theorem Items.determined : (d : Items) → d.Determined
  | .empty => Items.determined_empty
  | .cons first more => Items.determined_cons first.determined more.determined

theorem More.determined : (d : More) → d.Determined
  | .nil => More.determined_nil
  | .cons _ item more => More.determined_cons item.determined more.determined

end

end KakaLang.Grammar
