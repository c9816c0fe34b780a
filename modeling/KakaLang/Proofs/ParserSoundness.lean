import KakaLang.Proofs.Phrases
import KakaLang.Proofs.ParserSteps

/-!
What a parser accepts is a phrase of the grammar. Depth plays no part here: whatever depth a parser
was run with, the tokens it took spell a derivation of the tree it gave back.

The parsers of expressions call each other, so their soundness is proved together by induction on
the depth. Operators are read by climbing: a chain of some level takes operators of every tighter
level as well. The operation read so far then has the level of the last operator in it, and since
the operand after that operator ended at no tighter one, the next operator is at most as tight.
-/

namespace KakaLang.Grammar

open KakaLang.Parser

/-- What the parsers of expressions accept with the given depth is what they should. -/
structure SoundAt (depth : Nat) : Prop where
  expression : ∀ {e ts rest}, Within.expression .unexpected depth ts = .ok e rest →
    IsExpression e ts rest
  operation : ∀ {level e ts rest}, level ≤ Level.operand →
    Within.operation .unexpected depth level ts = .ok e rest →
    IsOperation level e ts rest ∧ NoOperator level rest
  chain : ∀ {level last left e start ts rest}, level ≤ last → last ≤ Level.operand →
    IsOperation last left start ts → NoOperator (last + 1) ts →
    Within.chain .unexpected depth level left ts = .ok e rest →
    IsOperation level e start rest ∧ NoOperator level rest
  operand : ∀ {e ts rest}, Within.operand .unexpected depth ts = .ok e rest →
    IsOperand e ts rest
  suffixes : ∀ {head e ts rest}, Within.suffixes .unexpected depth head ts = .ok e rest →
    IsSuffixes head e ts rest
  primary : ∀ {e ts rest}, Within.primary .unexpected depth ts = .ok e rest →
    IsPrimary e ts rest
  list : ∀ {closing es ts rest}, Within.list .unexpected depth closing ts = .ok es rest →
    ∃ t, IsItems es ts (t :: rest) ∧ t.kind = .symbol closing
  items : ∀ {closing found es ts rest},
    Within.items .unexpected depth closing found ts = .ok es rest →
    ∃ e more mid t, es = found.reverse ++ e :: more ∧ IsExpression e ts mid ∧
      IsMore more mid (t :: rest) ∧ t.kind = .symbol closing

variable {depth : Nat}

theorem SoundAt.zero : SoundAt 0 where
  expression h := by cases h
  operation _ h := by cases h
  chain _ _ _ _ h := by cases h
  operand h := by cases h
  suffixes h := by cases h
  primary h := by cases h
  list h := by cases h
  items h := by cases h

theorem SoundAt.expression_succ (sound : SoundAt depth) {e : Expr} {ts rest : List Token}
    (h : Within.expression .unexpected (depth + 1) ts = .ok e rest) : IsExpression e ts rest := by
  rw [Within.expression] at h
  obtain ⟨target, mid, htarget, hmid⟩ := bind_eq_ok.mp h
  have hop := (sound.operation (by decide) htarget).1
  rw [kind_bind] at hmid
  split at hmid
  · rename_i hkind
    obtain ⟨t, tail, rfl, ht⟩ := exists_of_kindOf hkind (by simp)
    rw [line_bind, advance_bind] at hmid
    obtain ⟨value, last, hvalue, hlast⟩ := bind_eq_ok.mp hmid
    -- Only an identifier may be assigned to.
    split at hlast
    · obtain ⟨rfl, rfl⟩ := pure_ok hlast
      exact .assign hop ht (sound.expression hvalue)
    · cases hlast
  · obtain ⟨rfl, rfl⟩ := pure_ok hmid
    exact .plain hop

theorem SoundAt.operation_succ (sound : SoundAt depth) {level : Nat} {e : Expr}
    {ts rest : List Token} (hlevel : level ≤ Level.operand)
    (h : Within.operation .unexpected (depth + 1) level ts = .ok e rest) :
    IsOperation level e ts rest ∧ NoOperator level rest := by
  rw [Within.operation] at h
  obtain ⟨first, mid, hfirst, hmid⟩ := bind_eq_ok.mp h
  have hoperand := IsOperation.operand (sound.operand hfirst)
  refine sound.chain hlevel (Nat.le_refl _) hoperand ?_ hmid
  intro op _
  have hlt := op.level_lt_operand
  omega

theorem SoundAt.chain_succ (sound : SoundAt depth) {level last : Nat} {left e : Expr}
    {start ts rest : List Token} (hlevel : level ≤ last) (hlast : last ≤ Level.operand)
    (hleft : IsOperation last left start ts) (hnone : NoOperator (last + 1) ts)
    (h : Within.chain .unexpected (depth + 1) level left ts = .ok e rest) :
    IsOperation level e start rest ∧ NoOperator level rest := by
  rw [Within.chain, operator?_bind] at h
  cases hop : (Operator.ofKind? (kindOf ts)).filter (level ≤ ·.level) with
  | none =>
    simp only [hop] at h
    obtain ⟨rfl, rfl⟩ := pure_ok h
    exact ⟨hleft.lower hlevel hlast, filter_level_eq_none.mp hop⟩
  | some op =>
    simp only [hop] at h
    obtain ⟨hkind, hle⟩ := Option.filter_eq_some_iff.mp hop
    have hle : level ≤ op.level := by simpa using hle
    have hlt : op.level < last + 1 := hnone op hkind
    obtain ⟨t, tail, rfl, ht⟩ :=
      exists_of_kindOf (Operator.kind_of_ofKind? hkind) (by cases op <;> simp [Operator.kind])
    rw [line_bind, advance_bind] at h
    obtain ⟨right, mid, hright, hmid⟩ := bind_eq_ok.mp h
    have hoperand : op.level + 1 ≤ Level.operand := op.level_lt_operand
    obtain ⟨hright, hend⟩ := sound.operation hoperand hright
    have hjoin := (hleft.lower (by omega) hlast).join ht hright
    exact sound.chain hle (by omega) hjoin hend hmid

theorem SoundAt.operand_succ (sound : SoundAt depth) {e : Expr} {ts rest : List Token}
    (h : Within.operand .unexpected (depth + 1) ts = .ok e rest) : IsOperand e ts rest := by
  rw [Within.operand] at h
  obtain ⟨head, mid, hhead, hmid⟩ := bind_eq_ok.mp h
  exact .mk (sound.primary hhead) (sound.suffixes hmid)

theorem SoundAt.suffixes_succ (sound : SoundAt depth) {head e : Expr} {ts rest : List Token}
    (h : Within.suffixes .unexpected (depth + 1) head ts = .ok e rest) :
    IsSuffixes head e ts rest := by
  rw [Within.suffixes, kind_bind] at h
  generalize hkind : kindOf ts = k at h
  split at h
  · obtain ⟨t, tail, rfl, ht⟩ := exists_of_kindOf hkind (by simp)
    rw [line_bind, advance_bind] at h
    obtain ⟨arguments, mid, harguments, hmid⟩ := bind_eq_ok.mp h
    obtain ⟨closing, hitems, hclosing⟩ := sound.list harguments
    exact .call ht hitems hclosing (sound.suffixes hmid)
  · obtain ⟨t, tail, rfl, ht⟩ := exists_of_kindOf hkind (by simp)
    rw [line_bind, advance_bind] at h
    obtain ⟨property, mid, hproperty, hmid⟩ := bind_eq_ok.mp h
    obtain ⟨closing, last, rfl, hclosing, hlast⟩ := expect_bind_ok hmid
    exact .member ht (sound.expression hproperty) hclosing (sound.suffixes hlast)
  · obtain ⟨rfl, rfl⟩ := pure_ok h
    exact .nil head ts

theorem SoundAt.primary_succ (sound : SoundAt depth) {e : Expr} {ts rest : List Token}
    (h : Within.primary .unexpected (depth + 1) ts = .ok e rest) : IsPrimary e ts rest := by
  rw [Within.primary, line_bind, kind_bind] at h
  generalize hkind : kindOf ts = k at h
  split at h
  · obtain ⟨t, tail, rfl, ht⟩ := exists_of_kindOf hkind (by simp)
    rw [advance_bind] at h
    obtain ⟨es, mid, hlist, hmid⟩ := bind_eq_ok.mp h
    obtain ⟨rfl, rfl⟩ := pure_ok hmid
    obtain ⟨closing, hitems, hclosing⟩ := sound.list hlist
    exact .array ht hitems hclosing
  · obtain ⟨t, tail, rfl, ht⟩ := exists_of_kindOf hkind (by simp)
    rw [advance_bind] at h
    obtain ⟨inner, mid, hinner, hmid⟩ := bind_eq_ok.mp h
    obtain ⟨closing, last, rfl, hclosing, hlast⟩ := expect_bind_ok hmid
    obtain ⟨rfl, rfl⟩ := pure_ok hlast
    exact .group ht (sound.expression hinner) hclosing
  · cases hatom : atom? k (lineOf ts) with
    | none =>
      simp only [hatom] at h
      cases h
    | some value =>
      simp only [hatom, advance_bind] at h
      obtain ⟨rfl, rfl⟩ := pure_ok h
      have hk : k ≠ .endOfInput := by
        rintro rfl
        cases hatom
      obtain ⟨t, tail, rfl, ht⟩ := exists_of_kindOf hkind hk
      exact .atom (ht ▸ atom?_eq_some_iff.mp hatom) tail

theorem SoundAt.list_succ (sound : SoundAt depth) {closing : Symbol} {es : List Expr}
    {ts rest : List Token} (h : Within.list .unexpected (depth + 1) closing ts = .ok es rest) :
    ∃ t, IsItems es ts (t :: rest) ∧ t.kind = .symbol closing := by
  rw [Within.list] at h
  rcases accept_ite_ok (by simp) h with ⟨t, mid, rfl, ht, hmid⟩ | ⟨-, hitems⟩
  · obtain ⟨rfl, rfl⟩ := pure_ok hmid
    exact ⟨t, .empty _, ht⟩
  · obtain ⟨e, more, mid, t, rfl, hfirst, hmore, ht⟩ := sound.items hitems
    exact ⟨t, .cons hfirst hmore, ht⟩

theorem SoundAt.items_succ (sound : SoundAt depth) {closing : Symbol} {found es : List Expr}
    {ts rest : List Token}
    (h : Within.items .unexpected (depth + 1) closing found ts = .ok es rest) :
    ∃ e more mid t, es = found.reverse ++ e :: more ∧ IsExpression e ts mid ∧
      IsMore more mid (t :: rest) ∧ t.kind = .symbol closing := by
  rw [Within.items] at h
  obtain ⟨e, mid, hitem, hmid⟩ := bind_eq_ok.mp h
  have hfirst := sound.expression hitem
  rcases accept_ite_ok (by simp) hmid with ⟨comma, next, rfl, hcomma, hnext⟩ | ⟨-, hlast⟩
  · obtain ⟨e', more, last, t, rfl, he', hmore, ht⟩ := sound.items hnext
    exact ⟨e, e' :: more, _, t, by simp, hfirst, .cons hcomma he' hmore, ht⟩
  · obtain ⟨t, last, rfl, ht, hlast⟩ := expect_bind_ok hlast
    obtain ⟨rfl, rfl⟩ := pure_ok hlast
    exact ⟨e, [], _, t, by simp, hfirst, .nil _, ht⟩

theorem soundAt : ∀ depth, SoundAt depth
  | 0 => .zero
  | depth + 1 =>
    have sound := soundAt depth
    { expression := sound.expression_succ
      operation := sound.operation_succ
      chain := sound.chain_succ
      operand := sound.operand_succ
      suffixes := sound.suffixes_succ
      primary := sound.primary_succ
      list := sound.list_succ
      items := sound.items_succ }

theorem expression_sound {e : Expr} {ts rest : List Token}
    (h : Within.expression .unexpected depth ts = .ok e rest) : IsExpression e ts rest :=
  (soundAt depth).expression h

theorem condition_sound {e : Expr} {ts rest : List Token}
    (h : Within.condition .unexpected depth ts = .ok e rest) :
    ∃ opening mid closing, ts = opening :: mid ∧ opening.kind = .symbol .openParen ∧
      IsExpression e mid (closing :: rest) ∧ closing.kind = .symbol .closeParen := by
  rw [Within.condition] at h
  obtain ⟨opening, mid, rfl, hopening, hmid⟩ := expect_bind_ok h
  obtain ⟨value, last, hvalue, hlast⟩ := bind_eq_ok.mp hmid
  obtain ⟨closing, tail, rfl, hclosing, htail⟩ := expect_bind_ok hlast
  obtain ⟨rfl, rfl⟩ := pure_ok htail
  exact ⟨opening, mid, closing, rfl, hopening, expression_sound hvalue, hclosing⟩

theorem terminated_sound {e : Expr} {ts rest : List Token}
    (h : Within.terminated .unexpected depth ts = .ok e rest) :
    ∃ semicolon, IsExpression e ts (semicolon :: rest) ∧
      semicolon.kind = .symbol .semicolon := by
  rw [Within.terminated] at h
  obtain ⟨value, mid, hvalue, hmid⟩ := bind_eq_ok.mp h
  obtain ⟨semicolon, tail, rfl, hsemicolon, htail⟩ := expect_bind_ok hmid
  obtain ⟨rfl, rfl⟩ := pure_ok htail
  exact ⟨semicolon, expression_sound hvalue, hsemicolon⟩

theorem names_sound {found all : List String} {ts rest : List Token}
    (h : names .unexpected depth found ts = .ok all rest) :
    ∃ params closing, all = found.reverse ++ params ∧ params ≠ [] ∧
      IsParams params ts (closing :: rest) ∧ closing.kind = .symbol .closeParen := by
  induction depth generalizing found ts with
  | zero => cases h
  | succ depth ih =>
    rw [names] at h
    obtain ⟨name, t, mid, rfl, ht, hmid⟩ := identifier_bind_ok h
    rcases accept_ite_ok (by simp) hmid with ⟨comma, next, rfl, hcomma, hnext⟩ | ⟨-, hlast⟩
    · obtain ⟨params, closing, rfl, hne, hparams, hclosing⟩ := ih hnext
      exact ⟨name :: params, closing, by simp, by simp, .cons ht hcomma hne hparams, hclosing⟩
    · obtain ⟨closing, tail, rfl, hclosing, htail⟩ := expect_bind_ok hlast
      obtain ⟨rfl, rfl⟩ := pure_ok htail
      exact ⟨[name], closing, by simp, by simp, .one ht _, hclosing⟩

/-- What the parsers of statements accept with the given depth is what they should. -/
structure StatementsSoundAt (depth : Nat) : Prop where
  statement : ∀ {s ts rest}, Within.statement .unexpected depth ts = .ok s rest →
    IsStatement s ts rest
  block : ∀ {b ts rest}, Within.block .unexpected depth ts = .ok b rest → IsBlock b ts rest
  statements : ∀ {stop found all ts rest},
    Within.statements .unexpected depth stop found ts = .ok all rest →
    ∃ body, all = found.reverse ++ body ∧ IsStatements body ts rest

theorem StatementsSoundAt.zero : StatementsSoundAt 0 where
  statement h := by cases h
  block h := by cases h
  statements h := by cases h

theorem StatementsSoundAt.statement_succ (sound : StatementsSoundAt depth)
    {s : KakaLang.Statement} {ts rest : List Token}
    (h : Within.statement .unexpected (depth + 1) ts = .ok s rest) : IsStatement s ts rest := by
  rw [Within.statement, line_bind, kind_bind] at h
  generalize hkind : kindOf ts = k at h
  split at h
  -- declaration
  · obtain ⟨t, tail, rfl, ht⟩ := exists_of_kindOf hkind (by simp)
    rw [advance_bind] at h
    obtain ⟨name, u, mid, hu, hname, hmid⟩ := identifier_bind_ok h
    obtain ⟨equals, last, rfl, hequals, hlast⟩ := expect_bind_ok hmid
    obtain ⟨value, fin, hvalue, hfin⟩ := bind_eq_ok.mp hlast
    obtain ⟨rfl, rfl⟩ := pure_ok hfin
    obtain ⟨semicolon, hvalue, hsemicolon⟩ := terminated_sound hvalue
    rw [show tail = u :: equals :: last from hu]
    exact .declare ht hname hequals hvalue hsemicolon
  -- print
  · obtain ⟨t, tail, rfl, ht⟩ := exists_of_kindOf hkind (by simp)
    rw [advance_bind] at h
    obtain ⟨value, fin, hvalue, hfin⟩ := bind_eq_ok.mp h
    obtain ⟨rfl, rfl⟩ := pure_ok hfin
    obtain ⟨semicolon, hvalue, hsemicolon⟩ := terminated_sound hvalue
    exact .print ht hvalue hsemicolon
  -- branch
  · obtain ⟨t, tail, rfl, ht⟩ := exists_of_kindOf hkind (by simp)
    rw [advance_bind] at h
    obtain ⟨condition, mid, hcondition, hmid⟩ := bind_eq_ok.mp h
    obtain ⟨opening, next, closing, hopen, hopening, hcondition, hclosing⟩ :=
      condition_sound hcondition
    obtain ⟨yes, last, hyes, hlast⟩ := bind_eq_ok.mp hmid
    have hyes := sound.block hyes
    rw [show tail = opening :: next from hopen]
    rcases accept_ite_ok (by simp) hlast with ⟨keyword, fin, rfl, hkeyword, hfin⟩ | ⟨-, hfin⟩
    · obtain ⟨no, tail, hno, htail⟩ := bind_eq_ok.mp hfin
      obtain ⟨rfl, rfl⟩ := pure_ok htail
      exact .branch ht hopening hcondition hclosing hyes (.present hkeyword (sound.block hno))
    · obtain ⟨rfl, rfl⟩ := pure_ok hfin
      exact .branch ht hopening hcondition hclosing hyes (.absent _)
  -- loop
  · obtain ⟨t, tail, rfl, ht⟩ := exists_of_kindOf hkind (by simp)
    rw [advance_bind] at h
    obtain ⟨condition, mid, hcondition, hmid⟩ := bind_eq_ok.mp h
    obtain ⟨opening, next, closing, hopen, hopening, hcondition, hclosing⟩ :=
      condition_sound hcondition
    obtain ⟨body, last, hbody, hlast⟩ := bind_eq_ok.mp hmid
    obtain ⟨rfl, rfl⟩ := pure_ok hlast
    rw [show tail = opening :: next from hopen]
    exact .loop ht hopening hcondition hclosing (sound.block hbody)
  -- block
  · obtain ⟨body, last, hbody, hlast⟩ := bind_eq_ok.mp h
    obtain ⟨rfl, rfl⟩ := pure_ok hlast
    exact .block (sound.block hbody)
  -- break
  · obtain ⟨t, tail, rfl, ht⟩ := exists_of_kindOf hkind (by simp)
    rw [advance_bind] at h
    obtain ⟨semicolon, last, hsemi, hsemicolon, hlast⟩ := expect_bind_ok h
    obtain ⟨rfl, rfl⟩ := pure_ok hlast
    rw [show tail = semicolon :: last from hsemi]
    exact .leave last ht hsemicolon
  -- continue
  · obtain ⟨t, tail, rfl, ht⟩ := exists_of_kindOf hkind (by simp)
    rw [advance_bind] at h
    obtain ⟨semicolon, last, hsemi, hsemicolon, hlast⟩ := expect_bind_ok h
    obtain ⟨rfl, rfl⟩ := pure_ok hlast
    rw [show tail = semicolon :: last from hsemi]
    exact .next last ht hsemicolon
  -- function
  · obtain ⟨t, tail, rfl, ht⟩ := exists_of_kindOf hkind (by simp)
    rw [advance_bind] at h
    obtain ⟨name, u, mid, hu, hname, hmid⟩ := identifier_bind_ok h
    obtain ⟨opening, next, rfl, hopening, hnext⟩ := expect_bind_ok hmid
    rw [show tail = u :: opening :: next from hu]
    rcases accept_ite_ok (by simp) hnext with ⟨closing, fin, rfl, hclosing, hfin⟩ | ⟨-, hfin⟩
    · obtain ⟨params, after, hparams, hafter⟩ := bind_eq_ok.mp hfin
      obtain ⟨rfl, rfl⟩ := pure_ok hparams
      obtain ⟨body, last, hbody, hlast⟩ := bind_eq_ok.mp hafter
      obtain ⟨rfl, rfl⟩ := pure_ok hlast
      exact .function ht hname hopening (.empty _) hclosing (sound.block hbody)
    · obtain ⟨params, after, hparams, hafter⟩ := bind_eq_ok.mp hfin
      obtain ⟨found, closing, rfl, -, hparams, hclosing⟩ := names_sound hparams
      obtain ⟨body, last, hbody, hlast⟩ := bind_eq_ok.mp hafter
      obtain ⟨rfl, rfl⟩ := pure_ok hlast
      exact .function ht hname hopening hparams hclosing (sound.block hbody)
  -- return
  · obtain ⟨t, tail, rfl, ht⟩ := exists_of_kindOf hkind (by simp)
    rw [advance_bind] at h
    rcases accept_ite_ok (by simp) h with ⟨semicolon, last, hsemi, hsemicolon, hlast⟩ | ⟨-, hlast⟩
    · obtain ⟨rfl, rfl⟩ := pure_ok hlast
      rw [show tail = semicolon :: last from hsemi]
      exact .give last ht hsemicolon
    · obtain ⟨value, fin, hvalue, hfin⟩ := bind_eq_ok.mp hlast
      obtain ⟨rfl, rfl⟩ := pure_ok hfin
      obtain ⟨semicolon, hvalue, hsemicolon⟩ := terminated_sound hvalue
      exact .giveValue ht hvalue hsemicolon
  -- expression
  · obtain ⟨value, fin, hvalue, hfin⟩ := bind_eq_ok.mp h
    obtain ⟨rfl, rfl⟩ := pure_ok hfin
    obtain ⟨semicolon, hvalue, hsemicolon⟩ := terminated_sound hvalue
    exact .expression hvalue hsemicolon

theorem StatementsSoundAt.block_succ (sound : StatementsSoundAt depth) {b : KakaLang.Block}
    {ts rest : List Token} (h : Within.block .unexpected (depth + 1) ts = .ok b rest) :
    IsBlock b ts rest := by
  rw [Within.block] at h
  obtain ⟨opening, mid, rfl, hopening, hmid⟩ := expect_bind_ok h
  obtain ⟨body, last, hbody, hlast⟩ := bind_eq_ok.mp hmid
  obtain ⟨all, rfl, hbody⟩ := sound.statements hbody
  obtain ⟨closing, tail, rfl, hclosing, htail⟩ := expect_bind_ok hlast
  obtain ⟨rfl, rfl⟩ := pure_ok htail
  exact .mk hopening hbody hclosing

theorem StatementsSoundAt.statements_succ (sound : StatementsSoundAt depth) {stop : TokenKind}
    {found all : List KakaLang.Statement} {ts rest : List Token}
    (h : Within.statements .unexpected (depth + 1) stop found ts = .ok all rest) :
    ∃ body, all = found.reverse ++ body ∧ IsStatements body ts rest := by
  rw [Within.statements, kind_bind] at h
  split at h
  · obtain ⟨rfl, rfl⟩ := pure_ok h
    exact ⟨[], by simp, .nil ts⟩
  · obtain ⟨s, mid, hs, hmid⟩ := bind_eq_ok.mp h
    obtain ⟨body, rfl, hbody⟩ := sound.statements hmid
    exact ⟨s :: body, by simp, .cons (sound.statement hs) hbody⟩

theorem statementsSoundAt : ∀ depth, StatementsSoundAt depth
  | 0 => .zero
  | depth + 1 =>
    have sound := statementsSoundAt depth
    { statement := sound.statement_succ
      block := sound.block_succ
      statements := sound.statements_succ }

/-- An accepted program is a whole derivation followed by anything. -/
theorem program_sound {p : Program} {ts rest : List Token} (h : program ts = .ok p rest) :
    ∃ (w : Whole) (after : List Token), ts = w.tokens ++ after ∧ w.program? = some p := by
  rw [program] at h
  rcases accept_ite_ok (by simp) h with ⟨start, mid, rfl, hstart, hmid⟩ | ⟨-, herror⟩
  · obtain ⟨body, last, hbody, hlast⟩ := bind_eq_ok.mp hmid
    obtain ⟨all, rfl, d, rfl, hd⟩ := (statementsSoundAt _).statements hbody
    rw [kind_bind] at hlast
    split at hlast
    · rename_i hkind
      obtain ⟨stop, after, rfl, hstop⟩ := exists_of_kindOf hkind (by simp)
      obtain ⟨rfl, rfl⟩ := pure_ok hlast
      exact ⟨⟨⟨start, hstart⟩, d, ⟨stop, hstop⟩⟩, after, by simp [Whole.tokens], hd⟩
    · cases hlast
  · cases herror

end KakaLang.Grammar
