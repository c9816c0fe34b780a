import KakaLang.Proofs.ParserCompleteness

/-!
Every derivation of statements is accepted, and so is a whole program. The depth is again eight for
each token. What follows a statement must not be an else, and what follows a list of statements must
be the token at which the list is told to stop.
-/

namespace KakaLang.Grammar

open KakaLang.Parser

theorem Condition.accepted (d : Condition) {depth : Nat} {e : Expr} (rest : List Token)
    (htree : d.value.tree? = some e) (hdepth : 8 * d.tokens.length ≤ depth) :
    Within.condition .unexpected depth (d.tokens ++ rest) = .ok e rest := by
  simp only [Condition.tokens, List.length_cons, List.length_append, List.length_nil] at hdepth
  simp only [Condition.tokens, List.cons_append, List.append_assoc, List.nil_append]
  have h := d.value.accepted depth e (d.closing.val :: rest) htree
    (Or.inr (Or.inr (Or.inl d.closing.property))) (by omega)
  rw [Within.condition, bind_apply_ok (expect_cons d.opening.property _), bind_apply_ok h,
    bind_apply_ok (expect_cons d.closing.property _)]
  rfl

theorem Terminated.accepted (d : Terminated) {depth : Nat} {e : Expr} (rest : List Token)
    (htree : d.value.tree? = some e) (hdepth : 8 * d.tokens.length ≤ depth + 8) :
    Within.terminated .unexpected depth (d.tokens ++ rest) = .ok e rest := by
  simp only [Terminated.tokens, List.length_append, List.length_singleton] at hdepth
  simp only [Terminated.tokens, List.append_assoc, List.singleton_append]
  have h := d.value.accepted depth e (d.semicolon.val :: rest) htree
    (Or.inl d.semicolon.property) (by omega)
  rw [Within.terminated, bind_apply_ok h, bind_apply_ok (expect_cons d.semicolon.property _)]
  rfl

theorem Params.length_le_tokens (first : Name) (more : List (Terminal (.symbol .comma) × Name)) :
    more.length ≤ (Params.cons first more).tokens.length := by
  induction more with
  | nil => simp
  | cons next more ih =>
    simp only [Params.tokens, List.flatMap_cons, List.length_cons, List.length_append] at ih ⊢
    omega

theorem names_accepted (first : Name) (more : List (Terminal (.symbol .comma) × Name))
    {closing : Token} (hclosing : closing.kind = .symbol .closeParen) (rest : List Token)
    {depth : Nat} (found : List String) (hdepth : more.length < depth) :
    names .unexpected depth found ((Params.cons first more).tokens ++ closing :: rest) =
      .ok (found.reverse ++ (Params.cons first more).names) rest := by
  induction more generalizing first found depth with
  | nil =>
    obtain ⟨depth, rfl⟩ : ∃ k, depth = k + 1 := ⟨depth - 1, by omega⟩
    have hcomma : kindOf (closing :: rest) ≠ .symbol .comma := by
      rw [show kindOf (closing :: rest) = .symbol .closeParen from hclosing]
      decide
    simp only [Params.tokens, List.flatMap_nil, List.singleton_append]
    rw [names, bind_apply_ok (identifier_cons first.token.property _),
      bind_apply_ok (accept_of_ne hcomma), if_neg Bool.false_ne_true,
      bind_apply_ok (expect_cons hclosing rest), List.reverse_cons]
    rfl
  | cons next more ih =>
    obtain ⟨depth, rfl⟩ : ∃ k, depth = k + 1 := ⟨depth - 1, by omega⟩
    have h := ih next.2 (first.text :: found)
      (show more.length < depth by simpa using hdepth)
    simp only [Params.tokens, List.flatMap_cons, List.cons_append, List.nil_append] at h ⊢
    rw [names, bind_apply_ok (identifier_cons first.token.property _),
      bind_apply_ok (accept_cons next.1.property _), if_pos rfl, h, List.reverse_cons,
      List.append_assoc]
    rfl

def Block.Accepted (d : Block) : Prop :=
  ∀ (depth : Nat) (b : KakaLang.Block) (rest : List Token), d.tree? = some b →
    8 * d.tokens.length ≤ depth + 1 →
    Within.block .unexpected depth (d.tokens ++ rest) = .ok b rest

def Else.Accepted : Else → Prop
  | .absent => True
  | .present _ body => body.Accepted

def Statement.Accepted (d : Statement) : Prop :=
  ∀ (depth : Nat) (s : KakaLang.Statement) (rest : List Token), d.tree? = some s →
    kindOf rest ≠ .keyword .elseWord → 8 * d.tokens.length ≤ depth →
    Within.statement .unexpected depth (d.tokens ++ rest) = .ok s rest

def Statements.Accepted (d : Statements) : Prop :=
  ∀ (depth : Nat) (stop : TokenKind) (found body : List KakaLang.Statement) (rest : List Token),
    d.trees? = some body → beginsStatement stop = false → stop ≠ .keyword .elseWord →
    kindOf rest = stop → 8 * d.tokens.length + 1 ≤ depth →
    Within.statements .unexpected depth stop found (d.tokens ++ rest) =
      .ok (found.reverse ++ body) rest

theorem Statement.accepted_declare {keyword : Terminal (.keyword .declare)} {name : Name}
    {equals : Terminal (.symbol .equals)} {value : Terminated} :
    (Statement.declare keyword name equals value).Accepted := by
  intro depth s rest htree _ hdepth
  simp only [Statement.tokens, List.length_cons] at hdepth
  simp only [Statement.tokens, List.cons_append]
  simp only [Statement.tree?, Option.bind_eq_bind] at htree
  obtain ⟨e, hvalueTree, hpure⟩ := Option.bind_eq_some_iff.mp htree
  cases hpure
  cases depth with
  | zero => omega
  | succ depth =>
    have h := value.accepted rest hvalueTree (show 8 * value.tokens.length ≤ depth + 8 by omega)
    rw [Within.statement, line_bind, kind_bind, kindOf_terminal]
    simp only [advance_bind, List.tail_cons]
    rw [bind_apply_ok (identifier_cons name.token.property _),
      bind_apply_ok (expect_cons equals.property _), bind_apply_ok h]
    rfl

theorem Statement.accepted_print {keyword : Terminal (.keyword .print)} {value : Terminated} :
    (Statement.print keyword value).Accepted := by
  intro depth s rest htree _ hdepth
  simp only [Statement.tokens, List.length_cons] at hdepth
  simp only [Statement.tokens, List.cons_append]
  simp only [Statement.tree?, Option.bind_eq_bind] at htree
  obtain ⟨e, hvalueTree, hpure⟩ := Option.bind_eq_some_iff.mp htree
  cases hpure
  cases depth with
  | zero => omega
  | succ depth =>
    have h := value.accepted rest hvalueTree (show 8 * value.tokens.length ≤ depth + 8 by omega)
    rw [Within.statement, line_bind, kind_bind, kindOf_terminal]
    simp only [advance_bind, List.tail_cons]
    rw [bind_apply_ok h]
    rfl

theorem Statement.accepted_branch {keyword : Terminal (.keyword .ifWord)} {condition : Condition}
    {yes : Block} {no : Else} (hyes : yes.Accepted) (hno : no.Accepted) :
    (Statement.branch keyword condition yes no).Accepted := by
  intro depth s rest htree helse hdepth
  simp only [Statement.tokens, List.length_cons, List.length_append] at hdepth
  simp only [Statement.tokens, List.cons_append, List.append_assoc]
  simp only [Statement.tree?, Option.bind_eq_bind] at htree
  obtain ⟨c, hconditionTree, htree⟩ := Option.bind_eq_some_iff.mp htree
  obtain ⟨y, hyesTree, htree⟩ := Option.bind_eq_some_iff.mp htree
  obtain ⟨n, hnoTree, hpure⟩ := Option.bind_eq_some_iff.mp htree
  cases hpure
  cases depth with
  | zero => omega
  | succ depth =>
    have hcond := condition.accepted (yes.tokens ++ (no.tokens ++ rest)) hconditionTree
      (show 8 * condition.tokens.length ≤ depth by omega)
    have hthen := hyes depth y (no.tokens ++ rest) hyesTree (by omega)
    rw [Within.statement, line_bind, kind_bind, kindOf_terminal]
    simp only [advance_bind, List.tail_cons]
    rw [bind_apply_ok hcond, bind_apply_ok hthen]
    cases no with
    | absent =>
      cases hnoTree
      rw [Else.tokens, List.nil_append, bind_apply_ok (accept_of_ne helse)]
      rfl
    | present word body =>
      simp only [Else.tokens, List.length_cons] at hdepth
      simp only [Else.tree?, Option.bind_eq_bind] at hnoTree
      obtain ⟨b, hbodyTree, hpure⟩ := Option.bind_eq_some_iff.mp hnoTree
      cases hpure
      have hbody := hno depth b rest hbodyTree (by omega)
      rw [Else.tokens, List.cons_append, bind_apply_ok (accept_cons word.property _), if_pos rfl,
        bind_apply_ok hbody]
      rfl

theorem Statement.accepted_loop {keyword : Terminal (.keyword .whileWord)}
    {condition : Condition} {body : Block} (hbody : body.Accepted) :
    (Statement.loop keyword condition body).Accepted := by
  intro depth s rest htree _ hdepth
  simp only [Statement.tokens, List.length_cons, List.length_append] at hdepth
  simp only [Statement.tokens, List.cons_append, List.append_assoc]
  simp only [Statement.tree?, Option.bind_eq_bind] at htree
  obtain ⟨c, hconditionTree, htree⟩ := Option.bind_eq_some_iff.mp htree
  obtain ⟨b, hbodyTree, hpure⟩ := Option.bind_eq_some_iff.mp htree
  cases hpure
  cases depth with
  | zero => omega
  | succ depth =>
    have hcond := condition.accepted (body.tokens ++ rest) hconditionTree
      (show 8 * condition.tokens.length ≤ depth by omega)
    have h := hbody depth b rest hbodyTree (by omega)
    rw [Within.statement, line_bind, kind_bind, kindOf_terminal]
    simp only [advance_bind, List.tail_cons]
    rw [bind_apply_ok hcond, bind_apply_ok h]
    rfl

theorem Statement.accepted_block {body : Block} (hbody : body.Accepted) :
    (Statement.block body).Accepted := by
  intro depth s rest htree _ hdepth
  simp only [Statement.tokens] at hdepth ⊢
  simp only [Statement.tree?, Option.bind_eq_bind] at htree
  obtain ⟨b, hbodyTree, hpure⟩ := Option.bind_eq_some_iff.mp htree
  cases hpure
  cases depth with
  | zero =>
    cases body
    simp only [Block.tokens, List.length_cons] at hdepth
    omega
  | succ depth =>
    have h := hbody depth b rest hbodyTree (by omega)
    rw [Within.statement, line_bind, kind_bind, body.begins]
    exact bind_apply_ok h _

theorem Statement.accepted_leave {keyword : Terminal (.keyword .breakWord)}
    {semicolon : Terminal (.symbol .semicolon)} : (Statement.leave keyword semicolon).Accepted := by
  intro depth s rest htree _ hdepth
  cases htree
  cases depth with
  | zero => simp only [Statement.tokens, List.length_cons] at hdepth; omega
  | succ depth =>
    rw [Statement.tokens, List.cons_append, Within.statement, line_bind, kind_bind,
      kindOf_terminal]
    exact bind_apply_ok (expect_cons semicolon.property _) _

theorem Statement.accepted_next {keyword : Terminal (.keyword .continueWord)}
    {semicolon : Terminal (.symbol .semicolon)} : (Statement.next keyword semicolon).Accepted := by
  intro depth s rest htree _ hdepth
  cases htree
  cases depth with
  | zero => simp only [Statement.tokens, List.length_cons] at hdepth; omega
  | succ depth =>
    rw [Statement.tokens, List.cons_append, Within.statement, line_bind, kind_bind,
      kindOf_terminal]
    exact bind_apply_ok (expect_cons semicolon.property _) _

theorem Statement.accepted_function {keyword : Terminal (.keyword .function)} {name : Name}
    {opening : Terminal (.symbol .openParen)} {params : Params}
    {closing : Terminal (.symbol .closeParen)} {body : Block} (hbody : body.Accepted) :
    (Statement.function keyword name opening params closing body).Accepted := by
  intro depth s rest htree _ hdepth
  simp only [Statement.tokens, List.length_cons, List.length_append] at hdepth
  simp only [Statement.tokens, List.cons_append, List.append_assoc]
  simp only [Statement.tree?, Option.bind_eq_bind] at htree
  obtain ⟨b, hbodyTree, hpure⟩ := Option.bind_eq_some_iff.mp htree
  cases hpure
  cases depth with
  | zero => omega
  | succ depth =>
    have h := hbody depth b rest hbodyTree (by omega)
    rw [Within.statement, line_bind, kind_bind, kindOf_terminal]
    simp only [advance_bind, List.tail_cons]
    rw [bind_apply_ok (identifier_cons name.token.property _),
      bind_apply_ok (expect_cons opening.property _)]
    cases params with
    | empty =>
      rw [Params.tokens, List.nil_append, bind_apply_ok (accept_cons closing.property _),
        if_pos rfl]
      exact bind_apply_ok h _
    | cons first more =>
      have hlength := Params.length_le_tokens first more
      have hnames := names_accepted first more closing.property (body.tokens ++ rest) []
        (show more.length < depth by omega)
      have hne : kindOf ((Params.cons first more).tokens ++ closing.val :: (body.tokens ++ rest)) ≠
          .symbol .closeParen := by
        rw [Params.tokens, List.cons_append, kindOf_terminal]
        simp
      rw [bind_apply_ok (accept_of_ne hne), if_neg Bool.false_ne_true, bind_apply_ok hnames]
      exact bind_apply_ok h _

theorem Statement.accepted_give {keyword : Terminal (.keyword .returnWord)}
    {semicolon : Terminal (.symbol .semicolon)} : (Statement.give keyword semicolon).Accepted := by
  intro depth s rest htree _ hdepth
  cases htree
  cases depth with
  | zero => simp only [Statement.tokens, List.length_cons] at hdepth; omega
  | succ depth =>
    rw [Statement.tokens, List.cons_append, Within.statement, line_bind, kind_bind,
      kindOf_terminal]
    exact bind_apply_ok (accept_cons semicolon.property _) _

theorem Statement.accepted_giveValue {keyword : Terminal (.keyword .returnWord)}
    {value : Terminated} : (Statement.giveValue keyword value).Accepted := by
  intro depth s rest htree _ hdepth
  simp only [Statement.tokens, List.length_cons] at hdepth
  simp only [Statement.tokens, List.cons_append]
  simp only [Statement.tree?, Option.bind_eq_bind] at htree
  obtain ⟨e, hvalueTree, hpure⟩ := Option.bind_eq_some_iff.mp htree
  cases hpure
  cases depth with
  | zero => omega
  | succ depth =>
    have h := value.accepted rest hvalueTree (show 8 * value.tokens.length ≤ depth + 8 by omega)
    have hne : kindOf (value.tokens ++ rest) ≠ .symbol .semicolon := by
      rw [Terminated.tokens, List.append_assoc]
      exact Expression.kind_ne rfl
    rw [Within.statement, line_bind, kind_bind, kindOf_terminal]
    simp only [advance_bind, List.tail_cons]
    rw [bind_apply_ok (accept_of_ne hne), if_neg Bool.false_ne_true, bind_apply_ok h]
    rfl

/-- No token that begins an expression begins another form of statement. -/
theorem Statement.accepted_expression {value : Terminated} :
    (Statement.expression value).Accepted := by
  intro depth s rest htree _ hdepth
  simp only [Statement.tokens] at hdepth ⊢
  simp only [Statement.tree?, Option.bind_eq_bind] at htree
  obtain ⟨e, hvalueTree, hpure⟩ := Option.bind_eq_some_iff.mp htree
  cases hpure
  have hpos := value.value.length_pos
  have hbegins := value.value.begins (value.semicolon.val :: rest)
  have htokens : value.tokens ++ rest = value.value.tokens ++ value.semicolon.val :: rest := by
    simp [Terminated.tokens]
  have hline : lineOf (value.tokens ++ rest) = lineOf value.tokens := by
    rw [Terminated.tokens]
    cases htokens : value.value.tokens <;> rfl
  cases depth with
  | zero =>
    simp only [Terminated.tokens, List.length_append, List.length_singleton] at hdepth
    omega
  | succ depth =>
    have h := value.accepted rest hvalueTree (show 8 * value.tokens.length ≤ depth + 8 by omega)
    rw [← htokens] at hbegins
    rw [Within.statement, line_bind, kind_bind]
    generalize kindOf (value.tokens ++ rest) = k at hbegins
    split
    iterate 9 cases hbegins
    rw [bind_apply_ok h, hline]
    rfl

theorem Block.accepted_mk {opening : Terminal (.symbol .openBrace)} {body : Statements}
    {closing : Terminal (.symbol .closeBrace)} (hbody : body.Accepted) :
    (Block.mk opening body closing).Accepted := by
  intro depth b rest htree hdepth
  simp only [Block.tokens, List.length_cons, List.length_append, List.length_nil] at hdepth
  simp only [Block.tokens, List.cons_append, List.append_assoc, List.nil_append]
  simp only [Block.tree?, Option.bind_eq_bind] at htree
  obtain ⟨ss, hbodyTree, hpure⟩ := Option.bind_eq_some_iff.mp htree
  cases hpure
  cases depth with
  | zero => omega
  | succ depth =>
    have h := hbody depth (.symbol .closeBrace) [] ss (closing.val :: rest) hbodyTree rfl
      (by simp) closing.property (by omega)
    rw [Within.block, bind_apply_ok (expect_cons opening.property _), bind_apply_ok h,
      bind_apply_ok (expect_cons closing.property _)]
    rfl

theorem Statements.accepted_nil : Statements.nil.Accepted := by
  intro depth stop found body rest htree _ _ hrest hdepth
  cases htree
  cases depth with
  | zero => omega
  | succ depth =>
    rw [Statements.tokens, List.nil_append, Within.statements, kind_bind, if_pos (Or.inl hrest),
      List.append_nil]
    rfl

theorem Statements.accepted_cons {first : Statement} {more : Statements} (hfirst : first.Accepted)
    (hmore : more.Accepted) : (Statements.cons first more).Accepted := by
  intro depth stop found body rest htree hstop helse hrest hdepth
  have hpos := first.length_pos
  simp only [Statements.tokens, List.length_append] at hdepth
  simp only [Statements.tokens, List.append_assoc]
  simp only [Statements.trees?, Option.bind_eq_bind] at htree
  obtain ⟨s, hfirstTree, htree⟩ := Option.bind_eq_some_iff.mp htree
  obtain ⟨ss, hmoreTree, hpure⟩ := Option.bind_eq_some_iff.mp htree
  cases hpure
  cases depth with
  | zero => omega
  | succ depth =>
    have hbegins := first.begins (more.tokens ++ rest)
    have hgo : ¬(kindOf (first.tokens ++ (more.tokens ++ rest)) = stop ∨
        kindOf (first.tokens ++ (more.tokens ++ rest)) = .endOfInput) := by
      rintro (h | h) <;> rw [h] at hbegins
      · rw [hstop] at hbegins
        cases hbegins
      · cases hbegins
    have hnoElse : kindOf (more.tokens ++ rest) ≠ .keyword .elseWord :=
      Statements.kind_ne rfl (by rw [hrest]; exact helse)
    have h := hfirst depth s (more.tokens ++ rest) hfirstTree hnoElse (by omega)
    have hnext := hmore depth stop (s :: found) ss rest hmoreTree hstop helse hrest (by omega)
    rw [Within.statements, kind_bind, if_neg hgo, bind_apply_ok h, hnext, List.reverse_cons,
      List.append_assoc]
    rfl

mutual

theorem Statement.accepted : (d : Statement) → d.Accepted
  | .declare _ _ _ _ => Statement.accepted_declare
  | .print _ _ => Statement.accepted_print
  | .branch _ _ yes no => Statement.accepted_branch yes.accepted no.accepted
  | .loop _ _ body => Statement.accepted_loop body.accepted
  | .block body => Statement.accepted_block body.accepted
  | .leave _ _ => Statement.accepted_leave
  | .next _ _ => Statement.accepted_next
  | .function _ _ _ _ _ body => Statement.accepted_function body.accepted
  | .give _ _ => Statement.accepted_give
  | .giveValue _ _ => Statement.accepted_giveValue
  | .expression _ => Statement.accepted_expression

theorem Else.accepted : (d : Else) → d.Accepted
  | .absent => trivial
  | .present _ body => body.accepted

theorem Block.accepted : (d : Block) → d.Accepted
  | .mk _ body _ => Block.accepted_mk body.accepted

theorem Statements.accepted : (d : Statements) → d.Accepted
  | .nil => Statements.accepted_nil
  | .cons first more => Statements.accepted_cons first.accepted more.accepted

end

/-- A whole derivation is accepted whatever follows it. -/
theorem Whole.accepted (w : Whole) {p : Program} (htree : w.program? = some p)
    (rest : List Token) :
    program (w.tokens ++ rest) = .ok p (w.stop.val :: rest) := by
  have hdepth : 8 * w.body.tokens.length + 1 ≤
      enough (w.body.tokens ++ w.stop.val :: rest) := by
    simp only [enough, List.length_append, List.length_cons]
    omega
  have h := w.body.accepted _ (.keyword .programEnd) [] p (w.stop.val :: rest) htree rfl
    (by simp) w.stop.property hdepth
  have hbody : statementsUntil (.keyword .programEnd) (w.body.tokens ++ w.stop.val :: rest) =
      .ok p (w.stop.val :: rest) := h
  simp only [Whole.tokens, List.cons_append, List.append_assoc, List.nil_append]
  rw [program, bind_apply_ok (accept_cons w.start.property _), if_pos rfl, bind_apply_ok hbody,
    kind_bind, kindOf_terminal, if_pos rfl]
  rfl

end KakaLang.Grammar
