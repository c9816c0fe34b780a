import KakaLang.Proofs.Unambiguity

/-!
Statements are unambiguous. The first token tells the form of a statement, and with its form the
productions below it are known too; only a return needs a second token. A whole program then has at
most one derivation, also when more tokens follow it.
-/

namespace KakaLang.Grammar

open KakaLang.Parser

theorem Condition.determined (d d' : Condition) {rest rest' : List Token}
    (heq : d.tokens ++ rest = d'.tokens ++ rest') : d = d' ∧ rest = rest' := by
  obtain ⟨opening, value, closing⟩ := d
  obtain ⟨opening', value', closing'⟩ := d'
  simp only [Condition.tokens, List.cons_append, List.append_assoc, List.nil_append] at heq
  obtain ⟨rfl, hnext⟩ := terminal_cons_inj heq
  obtain ⟨rfl, hlast⟩ := value.determined value' _ _ hnext
    (Ends.closes (Or.inl closing.property)) (Ends.closes (Or.inl closing'.property))
  obtain ⟨rfl, rfl⟩ := terminal_cons_inj hlast
  exact ⟨rfl, rfl⟩

theorem Terminated.determined (d d' : Terminated) {rest rest' : List Token}
    (heq : d.tokens ++ rest = d'.tokens ++ rest') : d = d' ∧ rest = rest' := by
  obtain ⟨value, semicolon⟩ := d
  obtain ⟨value', semicolon'⟩ := d'
  simp only [Terminated.tokens, List.append_assoc, List.singleton_append] at heq
  obtain ⟨rfl, hlast⟩ := value.determined value' _ _ heq (Or.inl semicolon.property)
    (Or.inl semicolon'.property)
  obtain ⟨rfl, rfl⟩ := terminal_cons_inj hlast
  exact ⟨rfl, rfl⟩

theorem names_determined (more more' : List (Terminal (.symbol .comma) × Name))
    {rest rest' : List Token} (hrest : Ends rest) (hrest' : Ends rest')
    (heq : more.flatMap (fun p => [p.1.val, p.2.token.val]) ++ rest =
      more'.flatMap (fun p => [p.1.val, p.2.token.val]) ++ rest') :
    more = more' ∧ rest = rest' := by
  induction more generalizing more' with
  | nil =>
    cases more' with
    | nil => exact ⟨rfl, heq⟩
    | cons next more' =>
      have hkind := congrArg kindOf heq
      exact absurd (hkind.trans (kindOf_terminal next.1 _)) hrest.kind_ne_comma
  | cons next more ih =>
    cases more' with
    | nil =>
      have hkind := congrArg kindOf heq
      exact absurd (hkind.symm.trans (kindOf_terminal next.1 _)) hrest'.kind_ne_comma
    | cons next' more' =>
      obtain ⟨comma, name⟩ := next
      obtain ⟨comma', name'⟩ := next'
      simp only [List.flatMap_cons, List.cons_append, List.nil_append] at heq
      obtain ⟨rfl, hname⟩ := terminal_cons_inj heq
      obtain ⟨rfl, hmore⟩ := Name.cons_inj hname
      obtain ⟨rfl, rfl⟩ := ih more' hmore
      exact ⟨rfl, rfl⟩

theorem Params.determined (d d' : Params) {rest rest' : List Token} (hrest : Ends rest)
    (hrest' : Ends rest') (heq : d.tokens ++ rest = d'.tokens ++ rest') :
    d = d' ∧ rest = rest' := by
  cases d with
  | empty =>
    cases d' with
    | empty => exact ⟨rfl, heq⟩
    | cons first' more' =>
      have hkind := congrArg kindOf heq
      have hname := hkind.trans (kindOf_terminal first'.token _)
      rcases hrest with h | h <;> cases h.symm.trans hname
  | cons first more =>
    cases d' with
    | empty =>
      have hkind := congrArg kindOf heq
      have hname := hkind.symm.trans (kindOf_terminal first.token _)
      rcases hrest' with h | h <;> cases h.symm.trans hname
    | cons first' more' =>
      simp only [Params.tokens, List.cons_append] at heq
      obtain ⟨rfl, hmore⟩ := Name.cons_inj heq
      obtain ⟨rfl, rfl⟩ := names_determined more more' hrest hrest' hmore
      exact ⟨rfl, rfl⟩

/-- The kind of the first token of a statement, unless the statement is an expression. -/
def Statement.opening : Statement → Option TokenKind
  | .declare .. => some (.keyword .declare)
  | .print .. => some (.keyword .print)
  | .branch .. => some (.keyword .ifWord)
  | .loop .. => some (.keyword .whileWord)
  | .block .. => some (.symbol .openBrace)
  | .leave .. => some (.keyword .breakWord)
  | .next .. => some (.keyword .continueWord)
  | .function .. => some (.keyword .function)
  | .give .. => some (.keyword .returnWord)
  | .giveValue .. => some (.keyword .returnWord)
  | .expression .. => none

theorem Statement.opening_eq_some (d : Statement) (rest : List Token) {k : TokenKind}
    (h : d.opening = some k) :
    kindOf (d.tokens ++ rest) = k ∧ beginsExpression k = false := by
  cases d with
  | block body =>
    cases h
    exact ⟨body.begins rest, rfl⟩
  | expression value => cases h
  | _ =>
    cases h
    exact ⟨kindOf_terminal _ _, rfl⟩

theorem Statement.opening_eq_none (d : Statement) (rest : List Token) (h : d.opening = none) :
    beginsExpression (kindOf (d.tokens ++ rest)) = true := by
  cases d with
  | expression value =>
    rw [Statement.tokens, Terminated.tokens, List.append_assoc]
    exact value.value.begins _
  | _ => cases h

/-- The first token tells the form of a statement. -/
theorem Statement.opening_eq {d d' : Statement} {rest rest' : List Token}
    (heq : d.tokens ++ rest = d'.tokens ++ rest') : d.opening = d'.opening := by
  cases h : d.opening with
  | none =>
    have hbegins := d.opening_eq_none rest h
    cases h' : d'.opening with
    | none => rfl
    | some k =>
      obtain ⟨hkind, hk⟩ := d'.opening_eq_some rest' h'
      rw [heq, hkind, hk] at hbegins
      cases hbegins
  | some k =>
    obtain ⟨hkind, hk⟩ := d.opening_eq_some rest h
    cases h' : d'.opening with
    | none =>
      have hbegins := d'.opening_eq_none rest' h'
      rw [← heq, hkind, hk] at hbegins
      cases hbegins
    | some k' =>
      obtain ⟨hkind', -⟩ := d'.opening_eq_some rest' h'
      rw [← hkind, ← hkind', heq]

def Statement.Determined (d : Statement) : Prop :=
  ∀ (d' : Statement) (rest rest' : List Token), d.tokens ++ rest = d'.tokens ++ rest' →
    kindOf rest ≠ .keyword .elseWord → kindOf rest' ≠ .keyword .elseWord →
    d = d' ∧ rest = rest'

def Else.Determined (d : Else) : Prop :=
  ∀ (d' : Else) (rest rest' : List Token), d.tokens ++ rest = d'.tokens ++ rest' →
    kindOf rest ≠ .keyword .elseWord → kindOf rest' ≠ .keyword .elseWord →
    d = d' ∧ rest = rest'

def Block.Determined (d : Block) : Prop :=
  ∀ (d' : Block) (rest rest' : List Token), d.tokens ++ rest = d'.tokens ++ rest' →
    d = d' ∧ rest = rest'

/-- What ends a list of statements begins none and is no else. -/
def Stops (ts : List Token) : Prop :=
  beginsStatement (kindOf ts) = false ∧ kindOf ts ≠ .keyword .elseWord

def Statements.Determined (d : Statements) : Prop :=
  ∀ (d' : Statements) (rest rest' : List Token), d.tokens ++ rest = d'.tokens ++ rest' →
    Stops rest → Stops rest' → d = d' ∧ rest = rest'

theorem Statement.determined_declare {keyword : Terminal (.keyword .declare)} {name : Name}
    {equals : Terminal (.symbol .equals)} {value : Terminated} :
    (Statement.declare keyword name equals value).Determined := by
  intro d' rest rest' heq _ _
  cases d' with
  | declare keyword' name' equals' value' =>
    simp only [Statement.tokens, List.cons_append] at heq
    obtain ⟨rfl, hname⟩ := terminal_cons_inj heq
    obtain ⟨rfl, hequals⟩ := Name.cons_inj hname
    obtain ⟨rfl, hvalue⟩ := terminal_cons_inj hequals
    obtain ⟨rfl, rfl⟩ := value.determined value' hvalue
    exact ⟨rfl, rfl⟩
  | _ => cases Statement.opening_eq heq

theorem Statement.determined_print {keyword : Terminal (.keyword .print)} {value : Terminated} :
    (Statement.print keyword value).Determined := by
  intro d' rest rest' heq _ _
  cases d' with
  | print keyword' value' =>
    simp only [Statement.tokens, List.cons_append] at heq
    obtain ⟨rfl, hvalue⟩ := terminal_cons_inj heq
    obtain ⟨rfl, rfl⟩ := value.determined value' hvalue
    exact ⟨rfl, rfl⟩
  | _ => cases Statement.opening_eq heq

theorem Statement.determined_branch {keyword : Terminal (.keyword .ifWord)} {condition : Condition}
    {yes : Block} {no : Else} (hyes : yes.Determined) (hno : no.Determined) :
    (Statement.branch keyword condition yes no).Determined := by
  intro d' rest rest' heq hrest hrest'
  cases d' with
  | branch keyword' condition' yes' no' =>
    simp only [Statement.tokens, List.cons_append, List.append_assoc] at heq
    obtain ⟨rfl, hcondition⟩ := terminal_cons_inj heq
    obtain ⟨rfl, hthen⟩ := condition.determined condition' hcondition
    obtain ⟨rfl, helse⟩ := hyes yes' _ _ hthen
    obtain ⟨rfl, rfl⟩ := hno no' rest rest' helse hrest hrest'
    exact ⟨rfl, rfl⟩
  | _ => cases Statement.opening_eq heq

theorem Statement.determined_loop {keyword : Terminal (.keyword .whileWord)}
    {condition : Condition} {body : Block} (hbody : body.Determined) :
    (Statement.loop keyword condition body).Determined := by
  intro d' rest rest' heq _ _
  cases d' with
  | loop keyword' condition' body' =>
    simp only [Statement.tokens, List.cons_append, List.append_assoc] at heq
    obtain ⟨rfl, hcondition⟩ := terminal_cons_inj heq
    obtain ⟨rfl, hblock⟩ := condition.determined condition' hcondition
    obtain ⟨rfl, rfl⟩ := hbody body' rest rest' hblock
    exact ⟨rfl, rfl⟩
  | _ => cases Statement.opening_eq heq

theorem Statement.determined_block {body : Block} (hbody : body.Determined) :
    (Statement.block body).Determined := by
  intro d' rest rest' heq _ _
  cases d' with
  | block body' =>
    obtain ⟨rfl, rfl⟩ := hbody body' rest rest' heq
    exact ⟨rfl, rfl⟩
  | _ => cases Statement.opening_eq heq

theorem Statement.determined_leave {keyword : Terminal (.keyword .breakWord)}
    {semicolon : Terminal (.symbol .semicolon)} :
    (Statement.leave keyword semicolon).Determined := by
  intro d' rest rest' heq _ _
  cases d' with
  | leave keyword' semicolon' =>
    obtain ⟨rfl, hsemicolon⟩ := terminal_cons_inj heq
    obtain ⟨rfl, rfl⟩ := terminal_cons_inj hsemicolon
    exact ⟨rfl, rfl⟩
  | _ => cases Statement.opening_eq heq

theorem Statement.determined_next {keyword : Terminal (.keyword .continueWord)}
    {semicolon : Terminal (.symbol .semicolon)} :
    (Statement.next keyword semicolon).Determined := by
  intro d' rest rest' heq _ _
  cases d' with
  | next keyword' semicolon' =>
    obtain ⟨rfl, hsemicolon⟩ := terminal_cons_inj heq
    obtain ⟨rfl, rfl⟩ := terminal_cons_inj hsemicolon
    exact ⟨rfl, rfl⟩
  | _ => cases Statement.opening_eq heq

theorem Statement.determined_function {keyword : Terminal (.keyword .function)} {name : Name}
    {opening : Terminal (.symbol .openParen)} {params : Params}
    {closing : Terminal (.symbol .closeParen)} {body : Block} (hbody : body.Determined) :
    (Statement.function keyword name opening params closing body).Determined := by
  intro d' rest rest' heq _ _
  cases d' with
  | function keyword' name' opening' params' closing' body' =>
    simp only [Statement.tokens, List.cons_append, List.append_assoc] at heq
    obtain ⟨rfl, hname⟩ := terminal_cons_inj heq
    obtain ⟨rfl, hopening⟩ := Name.cons_inj hname
    obtain ⟨rfl, hparams⟩ := terminal_cons_inj hopening
    obtain ⟨rfl, hclosing⟩ := params.determined params' (Or.inl (kindOf_terminal closing _))
      (Or.inl (kindOf_terminal closing' _)) hparams
    obtain ⟨rfl, hblock⟩ := terminal_cons_inj hclosing
    obtain ⟨rfl, rfl⟩ := hbody body' rest rest' hblock
    exact ⟨rfl, rfl⟩
  | _ => cases Statement.opening_eq heq

/-- A return with a value and one without differ in the second token. -/
theorem Terminated.ne_semicolon (value : Terminated) (semicolon : Terminal (.symbol .semicolon))
    (rest rest' : List Token) : value.tokens ++ rest ≠ semicolon.val :: rest' := by
  intro heq
  have hkind : kindOf (value.tokens ++ rest) ≠ .symbol .semicolon := by
    rw [Terminated.tokens, List.append_assoc]
    exact Expression.kind_ne rfl
  exact hkind (heq ▸ kindOf_terminal semicolon rest')

theorem Statement.determined_give {keyword : Terminal (.keyword .returnWord)}
    {semicolon : Terminal (.symbol .semicolon)} :
    (Statement.give keyword semicolon).Determined := by
  intro d' rest rest' heq _ _
  cases d' with
  | give keyword' semicolon' =>
    obtain ⟨rfl, hsemicolon⟩ := terminal_cons_inj heq
    obtain ⟨rfl, rfl⟩ := terminal_cons_inj hsemicolon
    exact ⟨rfl, rfl⟩
  | giveValue keyword' value' =>
    obtain ⟨rfl, hnext⟩ := terminal_cons_inj heq
    exact absurd hnext.symm (value'.ne_semicolon semicolon rest' rest)
  | _ => cases Statement.opening_eq heq

theorem Statement.determined_giveValue {keyword : Terminal (.keyword .returnWord)}
    {value : Terminated} : (Statement.giveValue keyword value).Determined := by
  intro d' rest rest' heq _ _
  cases d' with
  | give keyword' semicolon' =>
    obtain ⟨rfl, hnext⟩ := terminal_cons_inj heq
    exact absurd hnext (value.ne_semicolon semicolon' rest rest')
  | giveValue keyword' value' =>
    obtain ⟨rfl, hvalue⟩ := terminal_cons_inj heq
    obtain ⟨rfl, rfl⟩ := value.determined value' hvalue
    exact ⟨rfl, rfl⟩
  | _ => cases Statement.opening_eq heq

theorem Statement.determined_expression {value : Terminated} :
    (Statement.expression value).Determined := by
  intro d' rest rest' heq _ _
  cases d' with
  | expression value' =>
    obtain ⟨rfl, rfl⟩ := value.determined value' heq
    exact ⟨rfl, rfl⟩
  | _ => cases Statement.opening_eq heq

theorem Else.determined_absent : Else.absent.Determined := by
  intro d' rest rest' heq hrest _
  cases d' with
  | absent => exact ⟨rfl, heq⟩
  | present keyword body =>
    have hkind := congrArg kindOf heq
    exact absurd (hkind.trans (kindOf_terminal keyword _)) hrest

theorem Else.determined_present {keyword : Terminal (.keyword .elseWord)} {body : Block}
    (hbody : body.Determined) : (Else.present keyword body).Determined := by
  intro d' rest rest' heq _ hrest'
  cases d' with
  | absent =>
    have hkind := congrArg kindOf heq
    exact absurd (hkind.symm.trans (kindOf_terminal keyword _)) hrest'
  | present keyword' body' =>
    obtain ⟨rfl, hblock⟩ := terminal_cons_inj heq
    obtain ⟨rfl, rfl⟩ := hbody body' rest rest' hblock
    exact ⟨rfl, rfl⟩

theorem Block.determined_mk {opening : Terminal (.symbol .openBrace)} {body : Statements}
    {closing : Terminal (.symbol .closeBrace)} (hbody : body.Determined) :
    (Block.mk opening body closing).Determined := by
  intro d' rest rest' heq
  obtain ⟨opening', body', closing'⟩ := d'
  simp only [Block.tokens, List.cons_append, List.append_assoc, List.nil_append] at heq
  have hstops : ∀ (t : Terminal (.symbol .closeBrace)) (ts : List Token), Stops (t.val :: ts) := by
    intro t ts
    simp [Stops, beginsStatement]
  obtain ⟨rfl, hnext⟩ := terminal_cons_inj heq
  obtain ⟨rfl, hlast⟩ := hbody body' _ _ hnext (hstops _ _) (hstops _ _)
  obtain ⟨rfl, rfl⟩ := terminal_cons_inj hlast
  exact ⟨rfl, rfl⟩

/-- Statements do not go on where they stop. -/
theorem Statement.not_stops (d : Statement) (rest : List Token) : ¬ Stops (d.tokens ++ rest) := by
  intro h
  have hbegins := d.begins rest
  rw [h.1] at hbegins
  cases hbegins

theorem Statements.kind_ne_else (d : Statements) {rest : List Token} (h : Stops rest) :
    kindOf (d.tokens ++ rest) ≠ .keyword .elseWord :=
  Statements.kind_ne rfl h.2

theorem Statements.determined_nil : Statements.nil.Determined := by
  intro d' rest rest' heq hrest _
  cases d' with
  | nil => exact ⟨rfl, heq⟩
  | cons first more =>
    simp only [Statements.tokens, List.nil_append, List.append_assoc] at heq
    exact absurd (heq ▸ hrest) (first.not_stops _)

theorem Statements.determined_cons {first : Statement} {more : Statements}
    (hfirst : first.Determined) (hmore : more.Determined) :
    (Statements.cons first more).Determined := by
  intro d' rest rest' heq hrest hrest'
  cases d' with
  | nil =>
    simp only [Statements.tokens, List.nil_append, List.append_assoc] at heq
    exact absurd (heq ▸ hrest') (first.not_stops _)
  | cons first' more' =>
    simp only [Statements.tokens, List.append_assoc] at heq
    obtain ⟨rfl, hnext⟩ := hfirst first' _ _ heq (more.kind_ne_else hrest)
      (more'.kind_ne_else hrest')
    obtain ⟨rfl, rfl⟩ := hmore more' rest rest' hnext hrest hrest'
    exact ⟨rfl, rfl⟩

mutual

theorem Statement.determined : (d : Statement) → d.Determined
  | .declare _ _ _ _ => Statement.determined_declare
  | .print _ _ => Statement.determined_print
  | .branch _ _ yes no => Statement.determined_branch yes.determined no.determined
  | .loop _ _ body => Statement.determined_loop body.determined
  | .block body => Statement.determined_block body.determined
  | .leave _ _ => Statement.determined_leave
  | .next _ _ => Statement.determined_next
  | .function _ _ _ _ _ body => Statement.determined_function body.determined
  | .give _ _ => Statement.determined_give
  | .giveValue _ _ => Statement.determined_giveValue
  | .expression _ => Statement.determined_expression

theorem Else.determined : (d : Else) → d.Determined
  | .absent => Else.determined_absent
  | .present _ body => Else.determined_present body.determined

theorem Block.determined : (d : Block) → d.Determined
  | .mk _ body _ => Block.determined_mk body.determined

theorem Statements.determined : (d : Statements) → d.Determined
  | .nil => Statements.determined_nil
  | .cons first more => Statements.determined_cons first.determined more.determined

end

/-- A list of tokens begins with at most one whole derivation. -/
theorem Whole.determined (w w' : Whole) {rest rest' : List Token}
    (heq : w.tokens ++ rest = w'.tokens ++ rest') : w = w' ∧ rest = rest' := by
  obtain ⟨start, body, stop⟩ := w
  obtain ⟨start', body', stop'⟩ := w'
  simp only [Whole.tokens, List.cons_append, List.append_assoc, List.nil_append] at heq
  have hstops : ∀ (t : Terminal (.keyword .programEnd)) (ts : List Token),
      Stops (t.val :: ts) := by
    intro t ts
    simp [Stops, beginsStatement]
  obtain ⟨rfl, hnext⟩ := terminal_cons_inj heq
  obtain ⟨rfl, hlast⟩ := body.determined body' _ _ hnext (hstops _ _) (hstops _ _)
  obtain ⟨rfl, rfl⟩ := terminal_cons_inj hlast
  exact ⟨rfl, rfl⟩

end KakaLang.Grammar
