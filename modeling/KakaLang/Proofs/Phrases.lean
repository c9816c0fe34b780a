import KakaLang.Proofs.Grammar

/-!
Phrases of the grammar as stretches of a token list. A phrase leads from one place of the list to a
later one and stands for a syntax tree; which derivation is behind it is left open. The rules below
build phrases from their parts. Operators are the delicate ones: an operation of some level is also
one of every looser level, and another operator of its own level extends it to the right.
-/

namespace KakaLang

namespace Operator

theorem ofKind?_kind (op : Operator) : ofKind? op.kind = some op := by
  cases op with
  | binary op => cases op <;> rfl
  | logical op => cases op <;> rfl

theorem kind_of_ofKind? {kind : TokenKind} {op : Operator} (h : ofKind? kind = some op) :
    kind = op.kind := by
  unfold ofKind? at h
  split at h
  · rename_i s
    cases s <;> simp [BinaryOp.ofSymbol?] at h <;> subst h <;> rfl
  · cases h; rfl
  · cases h; rfl
  · cases h

theorem level_lt_operand (op : Operator) : op.level < Level.operand := by
  cases op with
  | binary op => cases op <;> decide
  | logical op => cases op <;> decide

theorem or_le_level (op : Operator) : Level.or ≤ op.level := by
  cases op with
  | binary op => cases op <;> decide
  | logical op => cases op <;> decide

end Operator

namespace Grammar

open KakaLang.Parser (kindOf lineOf)

theorem atom?_eq_some_iff {kind : TokenKind} {line : Nat} {e : Expr} :
    Parser.atom? kind line = some e ↔ Atom line kind e := by
  constructor
  · intro h
    unfold Parser.atom? at h
    split at h <;> cases h <;> constructor
  · intro h
    cases h <;> rfl

def IsExpression (e : Expr) (ts rest : List Token) : Prop :=
  ∃ d : Expression, d.tokens ++ rest = ts ∧ d.tree? = some e

def IsOperation (level : Nat) (e : Expr) (ts rest : List Token) : Prop :=
  ∃ d : Operation level, d.tokens ++ rest = ts ∧ d.tree? = some e

def IsOperand (e : Expr) (ts rest : List Token) : Prop :=
  ∃ d : Operand, d.tokens ++ rest = ts ∧ d.tree? = some e

def IsSuffixes (head e : Expr) (ts rest : List Token) : Prop :=
  ∃ d : Suffixes, d.tokens ++ rest = ts ∧ d.extend? head = some e

def IsPrimary (e : Expr) (ts rest : List Token) : Prop :=
  ∃ d : Primary, d.tokens ++ rest = ts ∧ d.tree? = some e

def IsItems (es : List Expr) (ts rest : List Token) : Prop :=
  ∃ d : Items, d.tokens ++ rest = ts ∧ d.trees? = some es

def IsMore (es : List Expr) (ts rest : List Token) : Prop :=
  ∃ d : More, d.tokens ++ rest = ts ∧ d.trees? = some es

def IsParams (names : List String) (ts rest : List Token) : Prop :=
  ∃ d : Params, d.tokens ++ rest = ts ∧ d.names = names

def IsStatement (s : KakaLang.Statement) (ts rest : List Token) : Prop :=
  ∃ d : Statement, d.tokens ++ rest = ts ∧ d.tree? = some s

def IsElse (b : Option KakaLang.Block) (ts rest : List Token) : Prop :=
  ∃ d : Else, d.tokens ++ rest = ts ∧ d.tree? = some b

def IsBlock (b : KakaLang.Block) (ts rest : List Token) : Prop :=
  ∃ d : Block, d.tokens ++ rest = ts ∧ d.tree? = some b

def IsStatements (body : List KakaLang.Statement) (ts rest : List Token) : Prop :=
  ∃ d : Statements, d.tokens ++ rest = ts ∧ d.trees? = some body

theorem IsExpression.plain {e : Expr} {ts rest : List Token}
    (h : IsOperation Level.or e ts rest) : IsExpression e ts rest := by
  obtain ⟨d, rfl, htree⟩ := h
  exact ⟨.plain d, rfl, htree⟩

theorem IsExpression.assign {name : String} {line : Nat} {value : Expr} {t : Token}
    {ts mid rest : List Token} (htarget : IsOperation Level.or (.ident name line) ts (t :: mid))
    (ht : t.kind = .symbol .equals) (hvalue : IsExpression value mid rest) :
    IsExpression (.assign name value line) ts rest := by
  obtain ⟨target, rfl, htarget⟩ := htarget
  obtain ⟨d, rfl, hvalue⟩ := hvalue
  refine ⟨.assign target ⟨t, ht⟩ d, ?_, ?_⟩
  · simp [Expression.tokens]
  · simp [Expression.tree?, htarget, hvalue]

theorem IsOperation.operand {e : Expr} {ts rest : List Token} (h : IsOperand e ts rest) :
    IsOperation Level.operand e ts rest := by
  obtain ⟨d, rfl, htree⟩ := h
  exact ⟨.operand d, rfl, htree⟩

theorem IsOperation.lower_one {level : Nat} {e : Expr} {ts rest : List Token}
    (hlevel : level < Level.operand) (h : IsOperation (level + 1) e ts rest) :
    IsOperation level e ts rest := by
  obtain ⟨d, rfl, htree⟩ := h
  refine ⟨.chain hlevel d .nil, ?_, ?_⟩
  · simp [Operation.tokens, Tail.tokens]
  · simp [Operation.tree?, Tail.join?, htree]

/-- An operation counts as one of every looser level. -/
theorem IsOperation.lower {level tighter : Nat} {e : Expr} {ts rest : List Token}
    (hle : level ≤ tighter) (hoperand : tighter ≤ Level.operand)
    (h : IsOperation tighter e ts rest) : IsOperation level e ts rest := by
  induction hle with
  | refl => exact h
  | step _ ih => exact ih (by omega) (h.lower_one (by omega))

/-- One more operator with its right operand at the end of a chain. -/
def Tail.snoc {level : Nat} (sign : Sign level) (right : Operation (level + 1)) :
    Tail level → Tail level
  | .nil => .cons sign right .nil
  | .cons first operand rest => .cons first operand (rest.snoc sign right)

theorem Tail.tokens_snoc {level : Nat} (sign : Sign level) (right : Operation (level + 1)) :
    (tail : Tail level) →
      (tail.snoc sign right).tokens = tail.tokens ++ sign.token.val :: right.tokens
  | .nil => by simp [Tail.snoc, Tail.tokens]
  | .cons first operand rest => by
    simp [Tail.snoc, Tail.tokens, Tail.tokens_snoc sign right rest]

theorem Tail.join?_snoc {level : Nat} (sign : Sign level) (right : Operation (level + 1)) :
    (tail : Tail level) → (left : Expr) →
      (tail.snoc sign right).join? left = (do
        let e ← tail.join? left
        return .join sign.op e (← right.tree?) sign.token.val.line)
  | .nil, left => by simp [Tail.snoc, Tail.join?]
  | .cons first operand rest, left => by
    simp [Tail.snoc, Tail.join?, Tail.join?_snoc sign right rest, Option.bind_assoc]

theorem IsOperation.join {op : Operator} {left right : Expr} {t : Token} {ts mid rest : List Token}
    (hleft : IsOperation op.level left ts (t :: mid)) (ht : t.kind = op.kind)
    (hright : IsOperation (op.level + 1) right mid rest) :
    IsOperation op.level (.join op left right t.line) ts rest := by
  obtain ⟨dleft, rfl, hleft⟩ := hleft
  obtain ⟨dright, rfl, hright⟩ := hright
  have hlevel := op.level_lt_operand
  generalize hl : op.level = level at dleft dright hlevel
  cases dleft with
  | operand => exact absurd hlevel (by simp)
  | chain looser first tail =>
    let sign : Sign level := ⟨op, ⟨t, ht⟩, hl⟩
    refine ⟨.chain looser first (tail.snoc sign dright), ?_, ?_⟩
    · simp [Operation.tokens, Tail.tokens_snoc, sign]
    · simp only [Operation.tree?, Option.bind_eq_bind] at hleft ⊢
      obtain ⟨e, he, hleft⟩ := Option.bind_eq_some_iff.mp hleft
      simp [he, Tail.join?_snoc, hleft, hright, sign]

theorem IsOperand.mk {head e : Expr} {ts mid rest : List Token} (hhead : IsPrimary head ts mid)
    (hsuffixes : IsSuffixes head e mid rest) : IsOperand e ts rest := by
  obtain ⟨p, rfl, hp⟩ := hhead
  obtain ⟨s, rfl, hs⟩ := hsuffixes
  refine ⟨.mk p s, ?_, ?_⟩
  · simp [Operand.tokens]
  · simp [Operand.tree?, hp, hs]

theorem IsSuffixes.nil (head : Expr) (ts : List Token) : IsSuffixes head head ts ts :=
  ⟨.nil, rfl, rfl⟩

theorem IsSuffixes.call {head e : Expr} {arguments : List Expr} {opening closing : Token}
    {ts mid rest : List Token} (hopening : opening.kind = .symbol .openParen)
    (harguments : IsItems arguments ts (closing :: mid))
    (hclosing : closing.kind = .symbol .closeParen)
    (hrest : IsSuffixes (.call head arguments opening.line) e mid rest) :
    IsSuffixes head e (opening :: ts) rest := by
  obtain ⟨d, rfl, hd⟩ := harguments
  obtain ⟨s, rfl, hs⟩ := hrest
  refine ⟨.call ⟨opening, hopening⟩ d ⟨closing, hclosing⟩ s, ?_, ?_⟩
  · simp [Suffixes.tokens]
  · simp [Suffixes.extend?, hd, hs]

theorem IsSuffixes.member {head e property : Expr} {opening closing : Token}
    {ts mid rest : List Token} (hopening : opening.kind = .symbol .openBracket)
    (hproperty : IsExpression property ts (closing :: mid))
    (hclosing : closing.kind = .symbol .closeBracket)
    (hrest : IsSuffixes (.member head property opening.line) e mid rest) :
    IsSuffixes head e (opening :: ts) rest := by
  obtain ⟨d, rfl, hd⟩ := hproperty
  obtain ⟨s, rfl, hs⟩ := hrest
  refine ⟨.member ⟨opening, hopening⟩ d ⟨closing, hclosing⟩ s, ?_, ?_⟩
  · simp [Suffixes.tokens]
  · simp [Suffixes.extend?, hd, hs]

def Suffixes.append : Suffixes → Suffixes → Suffixes
  | .nil, more => more
  | .call opening arguments closing rest, more =>
    .call opening arguments closing (rest.append more)
  | .member opening property closing rest, more =>
    .member opening property closing (rest.append more)

theorem Suffixes.tokens_append : (suffixes more : Suffixes) →
    (suffixes.append more).tokens = suffixes.tokens ++ more.tokens
  | .nil, more => rfl
  | .call _ _ _ rest, more => by
    simp [Suffixes.append, Suffixes.tokens, rest.tokens_append more]
  | .member _ _ _ rest, more => by
    simp [Suffixes.append, Suffixes.tokens, rest.tokens_append more]

theorem Suffixes.extend?_append : (suffixes more : Suffixes) → (head : Expr) →
    (suffixes.append more).extend? head = (suffixes.extend? head).bind more.extend?
  | .nil, more, head => rfl
  | .call _ arguments _ rest, more, head => by
    cases h : arguments.trees? <;>
      simp [Suffixes.append, Suffixes.extend?, h, rest.extend?_append more]
  | .member _ property _ rest, more, head => by
    cases h : property.tree? <;>
      simp [Suffixes.append, Suffixes.extend?, h, rest.extend?_append more]

/-- An operand goes on with more suffixes. -/
theorem IsOperand.extend {head e : Expr} {ts mid rest : List Token} (hhead : IsOperand head ts mid)
    (hsuffixes : IsSuffixes head e mid rest) : IsOperand e ts rest := by
  obtain ⟨⟨primary, suffixes⟩, rfl, htree⟩ := hhead
  obtain ⟨more, rfl, hmore⟩ := hsuffixes
  refine ⟨.mk primary (suffixes.append more), ?_, ?_⟩
  · simp [Operand.tokens, Suffixes.tokens_append]
  · simp only [Operand.tree?, Option.bind_eq_bind] at htree ⊢
    obtain ⟨tree, hprimary, hextend⟩ := Option.bind_eq_some_iff.mp htree
    simp [hprimary, Suffixes.extend?_append, hextend, hmore]

theorem IsOperation.toOperand {e : Expr} {ts rest : List Token}
    (h : IsOperation Level.operand e ts rest) : IsOperand e ts rest := by
  obtain ⟨d, htokens, htree⟩ := h
  cases d with
  | operand value => exact ⟨value, htokens, htree⟩
  | chain looser first tail => exact absurd looser (Nat.lt_irrefl _)

theorem IsPrimary.operand {e : Expr} {ts rest : List Token} (h : IsPrimary e ts rest) :
    IsOperand e ts rest :=
  IsOperand.mk h (IsSuffixes.nil e rest)

theorem IsPrimary.atom {e : Expr} {t : Token} (h : Atom t.line t.kind e) (rest : List Token) :
    IsPrimary e (t :: rest) rest :=
  ⟨.atom t e h, rfl, rfl⟩

theorem IsPrimary.array {es : List Expr} {opening closing : Token} {ts rest : List Token}
    (hopening : opening.kind = .symbol .openBracket) (hitems : IsItems es ts (closing :: rest))
    (hclosing : closing.kind = .symbol .closeBracket) :
    IsPrimary (.array es opening.line) (opening :: ts) rest := by
  obtain ⟨d, rfl, hd⟩ := hitems
  refine ⟨.array ⟨opening, hopening⟩ d ⟨closing, hclosing⟩, ?_, ?_⟩
  · simp [Primary.tokens]
  · simp [Primary.tree?, hd]

theorem IsPrimary.group {e : Expr} {opening closing : Token} {ts rest : List Token}
    (hopening : opening.kind = .symbol .openParen) (hinner : IsExpression e ts (closing :: rest))
    (hclosing : closing.kind = .symbol .closeParen) : IsPrimary e (opening :: ts) rest := by
  obtain ⟨d, rfl, hd⟩ := hinner
  refine ⟨.group ⟨opening, hopening⟩ d ⟨closing, hclosing⟩, ?_, ?_⟩
  · simp [Primary.tokens]
  · simp [Primary.tree?, hd]

theorem IsItems.empty (ts : List Token) : IsItems [] ts ts := ⟨.empty, rfl, rfl⟩

theorem IsItems.cons {e : Expr} {es : List Expr} {ts mid rest : List Token}
    (hfirst : IsExpression e ts mid) (hmore : IsMore es mid rest) : IsItems (e :: es) ts rest := by
  obtain ⟨d, rfl, hd⟩ := hfirst
  obtain ⟨m, rfl, hm⟩ := hmore
  refine ⟨.cons d m, ?_, ?_⟩
  · simp [Items.tokens]
  · simp [Items.trees?, hd, hm]

theorem IsMore.nil (ts : List Token) : IsMore [] ts ts := ⟨.nil, rfl, rfl⟩

theorem IsMore.cons {e : Expr} {es : List Expr} {comma : Token} {ts mid rest : List Token}
    (hcomma : comma.kind = .symbol .comma) (hitem : IsExpression e ts mid)
    (hmore : IsMore es mid rest) : IsMore (e :: es) (comma :: ts) rest := by
  obtain ⟨d, rfl, hd⟩ := hitem
  obtain ⟨m, rfl, hm⟩ := hmore
  refine ⟨.cons ⟨comma, hcomma⟩ d m, ?_, ?_⟩
  · simp [More.tokens]
  · simp [More.trees?, hd, hm]

theorem IsParams.empty (ts : List Token) : IsParams [] ts ts := ⟨.empty, rfl, rfl⟩

theorem IsParams.one {name : String} {t : Token} (ht : t.kind = .identifier name)
    (rest : List Token) : IsParams [name] (t :: rest) rest :=
  ⟨.cons ⟨name, t, ht⟩ [], rfl, rfl⟩

theorem IsParams.cons {name : String} {names : List String} {t comma : Token} {ts rest : List Token}
    (ht : t.kind = .identifier name) (hcomma : comma.kind = .symbol .comma) (hne : names ≠ [])
    (hrest : IsParams names ts rest) : IsParams (name :: names) (t :: comma :: ts) rest := by
  obtain ⟨d, rfl, rfl⟩ := hrest
  cases d with
  | empty => exact absurd rfl hne
  | cons first more =>
    refine ⟨.cons ⟨name, t, ht⟩ ((⟨comma, hcomma⟩, first) :: more), ?_, rfl⟩
    simp [Params.tokens]

theorem IsStatement.declare {name : String} {value : Expr} {keyword t equals semicolon : Token}
    {ts rest : List Token} (hkeyword : keyword.kind = .keyword .declare)
    (ht : t.kind = .identifier name) (hequals : equals.kind = .symbol .equals)
    (hvalue : IsExpression value ts (semicolon :: rest))
    (hsemicolon : semicolon.kind = .symbol .semicolon) :
    IsStatement (.declare name value keyword.line) (keyword :: t :: equals :: ts) rest := by
  obtain ⟨d, rfl, hd⟩ := hvalue
  refine ⟨.declare ⟨keyword, hkeyword⟩ ⟨name, t, ht⟩ ⟨equals, hequals⟩
    ⟨d, semicolon, hsemicolon⟩, ?_, ?_⟩
  · simp [Statement.tokens, Terminated.tokens]
  · simp [Statement.tree?, hd]

theorem IsStatement.print {value : Expr} {keyword semicolon : Token} {ts rest : List Token}
    (hkeyword : keyword.kind = .keyword .print)
    (hvalue : IsExpression value ts (semicolon :: rest))
    (hsemicolon : semicolon.kind = .symbol .semicolon) :
    IsStatement (.print value keyword.line) (keyword :: ts) rest := by
  obtain ⟨d, rfl, hd⟩ := hvalue
  refine ⟨.print ⟨keyword, hkeyword⟩ ⟨d, semicolon, hsemicolon⟩, ?_, ?_⟩
  · simp [Statement.tokens, Terminated.tokens]
  · simp [Statement.tree?, hd]

theorem IsStatement.branch {condition : Expr} {yes : KakaLang.Block} {no : Option KakaLang.Block}
    {keyword opening closing : Token} {ts mid last rest : List Token}
    (hkeyword : keyword.kind = .keyword .ifWord) (hopening : opening.kind = .symbol .openParen)
    (hcondition : IsExpression condition ts (closing :: mid))
    (hclosing : closing.kind = .symbol .closeParen) (hyes : IsBlock yes mid last)
    (hno : IsElse no last rest) :
    IsStatement (.branch condition yes no keyword.line) (keyword :: opening :: ts) rest := by
  obtain ⟨c, rfl, hc⟩ := hcondition
  obtain ⟨y, rfl, hy⟩ := hyes
  obtain ⟨n, rfl, hn⟩ := hno
  refine ⟨.branch ⟨keyword, hkeyword⟩ ⟨⟨opening, hopening⟩, c, ⟨closing, hclosing⟩⟩ y n, ?_, ?_⟩
  · simp [Statement.tokens, Condition.tokens]
  · simp [Statement.tree?, hc, hy, hn]

theorem IsStatement.loop {condition : Expr} {body : KakaLang.Block}
    {keyword opening closing : Token} {ts mid rest : List Token}
    (hkeyword : keyword.kind = .keyword .whileWord) (hopening : opening.kind = .symbol .openParen)
    (hcondition : IsExpression condition ts (closing :: mid))
    (hclosing : closing.kind = .symbol .closeParen) (hbody : IsBlock body mid rest) :
    IsStatement (.loop condition body keyword.line) (keyword :: opening :: ts) rest := by
  obtain ⟨c, rfl, hc⟩ := hcondition
  obtain ⟨b, rfl, hb⟩ := hbody
  refine ⟨.loop ⟨keyword, hkeyword⟩ ⟨⟨opening, hopening⟩, c, ⟨closing, hclosing⟩⟩ b, ?_, ?_⟩
  · simp [Statement.tokens, Condition.tokens]
  · simp [Statement.tree?, hc, hb]

theorem IsStatement.block {body : KakaLang.Block} {ts rest : List Token}
    (hbody : IsBlock body ts rest) : IsStatement (.block body) ts rest := by
  obtain ⟨b, rfl, hb⟩ := hbody
  exact ⟨.block b, rfl, by simp [Statement.tree?, hb]⟩

theorem IsStatement.leave {keyword semicolon : Token} (rest : List Token)
    (hkeyword : keyword.kind = .keyword .breakWord)
    (hsemicolon : semicolon.kind = .symbol .semicolon) :
    IsStatement (.leave keyword.line) (keyword :: semicolon :: rest) rest :=
  ⟨.leave ⟨keyword, hkeyword⟩ ⟨semicolon, hsemicolon⟩, rfl, rfl⟩

theorem IsStatement.next {keyword semicolon : Token} (rest : List Token)
    (hkeyword : keyword.kind = .keyword .continueWord)
    (hsemicolon : semicolon.kind = .symbol .semicolon) :
    IsStatement (.next keyword.line) (keyword :: semicolon :: rest) rest :=
  ⟨.next ⟨keyword, hkeyword⟩ ⟨semicolon, hsemicolon⟩, rfl, rfl⟩

theorem IsStatement.function {name : String} {params : List String} {body : KakaLang.Block}
    {keyword t opening closing : Token} {ts mid rest : List Token}
    (hkeyword : keyword.kind = .keyword .function) (ht : t.kind = .identifier name)
    (hopening : opening.kind = .symbol .openParen) (hparams : IsParams params ts (closing :: mid))
    (hclosing : closing.kind = .symbol .closeParen) (hbody : IsBlock body mid rest) :
    IsStatement (.function 0 name params body keyword.line) (keyword :: t :: opening :: ts)
      rest := by
  obtain ⟨p, rfl, rfl⟩ := hparams
  obtain ⟨b, rfl, hb⟩ := hbody
  refine ⟨.function ⟨keyword, hkeyword⟩ ⟨name, t, ht⟩ ⟨opening, hopening⟩ p
    ⟨closing, hclosing⟩ b, ?_, ?_⟩
  · simp [Statement.tokens]
  · simp [Statement.tree?, hb]

theorem IsStatement.give {keyword semicolon : Token} (rest : List Token)
    (hkeyword : keyword.kind = .keyword .returnWord)
    (hsemicolon : semicolon.kind = .symbol .semicolon) :
    IsStatement (.give none keyword.line) (keyword :: semicolon :: rest) rest :=
  ⟨.give ⟨keyword, hkeyword⟩ ⟨semicolon, hsemicolon⟩, rfl, rfl⟩

theorem IsStatement.giveValue {value : Expr} {keyword semicolon : Token} {ts rest : List Token}
    (hkeyword : keyword.kind = .keyword .returnWord)
    (hvalue : IsExpression value ts (semicolon :: rest))
    (hsemicolon : semicolon.kind = .symbol .semicolon) :
    IsStatement (.give (some value) keyword.line) (keyword :: ts) rest := by
  obtain ⟨d, rfl, hd⟩ := hvalue
  refine ⟨.giveValue ⟨keyword, hkeyword⟩ ⟨d, semicolon, hsemicolon⟩, ?_, ?_⟩
  · simp [Statement.tokens, Terminated.tokens]
  · simp [Statement.tree?, hd]

theorem IsStatement.expression {value : Expr} {semicolon : Token} {ts rest : List Token}
    (hvalue : IsExpression value ts (semicolon :: rest))
    (hsemicolon : semicolon.kind = .symbol .semicolon) :
    IsStatement (.expression value (lineOf ts)) ts rest := by
  obtain ⟨d, rfl, hd⟩ := hvalue
  have hline : lineOf (d.tokens ++ semicolon :: rest) = lineOf (d.tokens ++ [semicolon]) := by
    cases d.tokens <;> rfl
  refine ⟨.expression ⟨d, semicolon, hsemicolon⟩, ?_, ?_⟩
  · simp [Statement.tokens, Terminated.tokens]
  · simp [Statement.tree?, Terminated.tokens, hd, hline]

theorem IsElse.absent (ts : List Token) : IsElse none ts ts := ⟨.absent, rfl, rfl⟩

theorem IsElse.present {body : KakaLang.Block} {keyword : Token} {ts rest : List Token}
    (hkeyword : keyword.kind = .keyword .elseWord) (hbody : IsBlock body ts rest) :
    IsElse (some body) (keyword :: ts) rest := by
  obtain ⟨b, rfl, hb⟩ := hbody
  exact ⟨.present ⟨keyword, hkeyword⟩ b, rfl, by simp [Else.tree?, hb]⟩

theorem IsBlock.mk {body : List KakaLang.Statement} {opening closing : Token} {ts rest : List Token}
    (hopening : opening.kind = .symbol .openBrace) (hbody : IsStatements body ts (closing :: rest))
    (hclosing : closing.kind = .symbol .closeBrace) :
    IsBlock (.mk body opening.line) (opening :: ts) rest := by
  obtain ⟨b, rfl, hb⟩ := hbody
  refine ⟨.mk ⟨opening, hopening⟩ b ⟨closing, hclosing⟩, ?_, ?_⟩
  · simp [Block.tokens]
  · simp [Block.tree?, hb]

theorem IsStatements.nil (ts : List Token) : IsStatements [] ts ts := ⟨.nil, rfl, rfl⟩

theorem IsStatements.cons {s : KakaLang.Statement} {body : List KakaLang.Statement}
    {ts mid rest : List Token} (hfirst : IsStatement s ts mid) (hrest : IsStatements body mid rest) :
    IsStatements (s :: body) ts rest := by
  obtain ⟨d, rfl, hd⟩ := hfirst
  obtain ⟨b, rfl, hb⟩ := hrest
  refine ⟨.cons d b, ?_, ?_⟩
  · simp [Statements.tokens]
  · simp [Statements.trees?, hd, hb]

end Grammar

end KakaLang
