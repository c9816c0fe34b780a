import KakaLang.Proofs.LineComposition
import KakaLang.Proofs.ParserStops
import KakaLang.Proofs.RoundTrip

/-!
How many parentheses a program needs. The printer encloses an operand exactly where it binds more
loosely than its place. In a derivation an operand of such a place can only come from a group, and a
group has a parenthesis of its own. Whatever tokens a program was read from, they hold therefore at
least as many opening parentheses as the printed text.
-/

namespace KakaLang

open Level

/-- The number of opening parentheses among tokens. -/
def Token.parens (ts : List Token) : Nat := (ts.map (·.kind)).count (.symbol .openParen)

/-- The tokens before the first end marker. -/
def Token.beforeEnd (ts : List Token) : List Token :=
  ts.takeWhile (·.kind ≠ .keyword .programEnd)

namespace Token

@[simp]
theorem parens_nil : parens [] = 0 := rfl

@[simp]
theorem parens_append (ts us : List Token) : parens (ts ++ us) = parens ts + parens us := by
  simp [parens]

theorem parens_cons (t : Token) (ts : List Token) :
    parens (t :: ts) = parens ts + if t.kind = .symbol .openParen then 1 else 0 := by
  simp [parens, List.count_cons]

/-- Every token counts for nothing or more. -/
theorem parens_le_cons (t : Token) (ts : List Token) : parens ts ≤ parens (t :: ts) := by
  rw [parens_cons]
  exact Nat.le_add_right _ _

@[simp]
theorem parens_opening (t : Grammar.Terminal (.symbol .openParen)) (ts : List Token) :
    parens (t.val :: ts) = parens ts + 1 := by
  rw [parens_cons, if_pos t.property]

end Token

namespace Lexeme

/-- The number of opening parentheses among lexemes. -/
def parens (ls : List Lexeme) : Nat := ls.count (symbol .openParen)

@[simp]
theorem parens_nil : parens [] = 0 := rfl

@[simp]
theorem parens_append (ls ms : List Lexeme) : parens (ls ++ ms) = parens ls + parens ms :=
  List.count_append

@[simp]
theorem parens_cons (l : Lexeme) (ls : List Lexeme) :
    parens (l :: ls) = parens ls + if l = symbol .openParen then 1 else 0 := by
  simp [parens, List.count_cons]

@[simp]
theorem parens_parenthesized (needed : Bool) (ls : List Lexeme) :
    parens (parenthesized needed ls) = parens ls + needed.toNat := by
  cases needed <;> simp [parenthesized]

@[simp]
theorem parens_line (depth : Nat) (ls : List Lexeme) : parens (line depth ls) = parens ls := by
  simp [line, parens, List.count_replicate]

@[simp]
theorem parens_following (lss : List (List Lexeme)) :
    parens (following lss) = (lss.map parens).sum := by
  induction lss with
  | nil => rfl
  | cons ls lss ih => simp [following, ih]

@[simp]
theorem parens_separated (lss : List (List Lexeme)) :
    parens (separated lss) = (lss.map parens).sum := by
  cases lss with
  | nil => rfl
  | cons ls lss => simp [separated]

@[simp]
theorem parens_ofLiteral (v : Literal) : parens [ofLiteral v] = 0 := by
  cases v with
  | bool b => cases b <;> rfl
  | _ => rfl

/-- A request for input has no parenthesis, however it is read. -/
theorem count_kinds (ls : List Lexeme) : (kinds ls).count (.symbol .openParen) = parens ls := by
  induction ls with
  | nil => rfl
  | cons l ls ih =>
    have hbefore : (l.kindsBefore (join ls)).count (.symbol .openParen) =
        if l = symbol .openParen then 1 else 0 := by
      rw [kindsBefore]
      split
      · rename_i hinput
        rw [hinput.1]
        rfl
      · cases l with
        | symbol s => cases s <;> rfl
        | _ => rfl
    rw [kinds, List.count_append, ih, hbefore, parens_cons, Nat.add_comm]

end Lexeme

namespace Expr

open Lexeme (parens)

/-- A tighter place costs a parenthesis more or none. -/
theorem parens_mono {level tighter : Nat} (h : level ≤ tighter) (e : Expr) :
    parens (e.lexemes level) ≤ parens (e.lexemes tighter) := by
  rw [e.lexemes_eq level, e.lexemes_eq tighter, Lexeme.parens_parenthesized,
    Lexeme.parens_parenthesized]
  have himp : decide (e.level < level) ≤ decide (e.level < tighter) := by
    simp only [Bool.le_iff_imp, decide_eq_true_eq]
    omega
  exact Nat.add_le_add_left (Bool.toNat_le_toNat himp) _

theorem parens_le_succ (level : Nat) (e : Expr) :
    parens (e.lexemes level) ≤ parens (e.lexemes assignment) + 1 := by
  rw [e.lexemes_eq level, e.lexemes_eq assignment, Lexeme.parens_parenthesized,
    Lexeme.parens_parenthesized]
  have hone := Bool.toNat_le (decide (e.level < level))
  omega

/-- At its own level an operation is printed as its operands are. -/
theorem parens_join (op : Operator) (left right : Expr) (line : Nat) :
    parens ((join op left right line).lexemes op.level) =
      parens (left.lexemes op.level) + parens (right.lexemes (op.level + 1)) := by
  cases op with
  | binary op =>
    have hsymbol : op.symbol ≠ .openParen := by cases op <;> decide
    simp [join, lexemes, level, Operator.level, hsymbol]
  | logical op => simp [join, lexemes, level, Operator.level]

end Expr

namespace Grammar

open Lexeme (parens)

theorem Atom.parens_eq_zero {line : Nat} {kind : TokenKind} {e : Expr} (h : Atom line kind e) :
    parens (e.lexemes operand) = 0 := by
  cases h <;> simp [Expr.lexemes, Expr.level, Lexeme.ofLiteral]

mutual

/-- The tokens of a derivation hold the parentheses that its tree is printed with. -/
theorem Expression.parens_le : (d : Expression) → {e : Expr} → d.tree? = some e →
    parens (e.lexemes assignment) ≤ Token.parens d.tokens
  | .plain value, e, htree => by
    have hvalue := value.parens_le htree
    exact Nat.le_trans (e.parens_mono (by decide)) hvalue
  | .assign target equals value, e, htree => by
    simp only [Expression.tree?, Option.bind_eq_bind] at htree
    obtain ⟨left, hleft, htree⟩ := Option.bind_eq_some_iff.mp htree
    split at htree
    · obtain ⟨right, hright, htree⟩ := Option.bind_eq_some_iff.mp htree
      cases htree
      have hvalue := value.parens_le hright
      have hassign : ∀ name line, parens ((Expr.assign name right line).lexemes assignment) =
          parens (right.lexemes assignment) := by
        simp [Expr.lexemes, Expr.level]
      have hequals := Token.parens_le_cons equals.val value.tokens
      rw [hassign, Expression.tokens, Token.parens_append]
      omega
    · cases htree

/-- At the place of a level, an operation of that level needs no more than its tokens have. -/
theorem Operation.parens_le : {level : Nat} → (d : Operation level) → {e : Expr} →
    d.tree? = some e → parens (e.lexemes level) ≤ Token.parens d.tokens
  | _, .operand value, e, htree => value.parens_le htree
  | level, .chain _ first tail, e, htree => by
    simp only [Operation.tree?, Option.bind_eq_bind] at htree
    obtain ⟨left, hleft, htree⟩ := Option.bind_eq_some_iff.mp htree
    have hfirst := first.parens_le hleft
    have hlower := left.parens_mono (Nat.le_add_right level 1)
    have htail := tail.parens_le htree
    rw [Operation.tokens, Token.parens_append]
    omega

theorem Tail.parens_le : {level : Nat} → (d : Tail level) → {left e : Expr} →
    d.join? left = some e →
    parens (e.lexemes level) ≤ parens (left.lexemes level) + Token.parens d.tokens
  | _, .nil, left, e, htree => by
    cases htree
    exact Nat.le_add_right _ _
  | _, .cons sign right tail, left, e, htree => by
    simp only [Tail.join?, Option.bind_eq_bind] at htree
    obtain ⟨operand, hoperand, htree⟩ := Option.bind_eq_some_iff.mp htree
    have hright := right.parens_le hoperand
    have htail := tail.parens_le htree
    have hjoin := Expr.parens_join sign.op left operand sign.token.val.line
    rw [sign.level_eq] at hjoin
    have hsign := Token.parens_le_cons sign.token.val (right.tokens ++ tail.tokens)
    rw [Token.parens_append] at hsign
    rw [Tail.tokens]
    omega

theorem Operand.parens_le : (d : Operand) → {e : Expr} → d.tree? = some e →
    parens (e.lexemes operand) ≤ Token.parens d.tokens
  | .mk head suffixes, e, htree => by
    simp only [Operand.tree?, Option.bind_eq_bind] at htree
    obtain ⟨primary, hprimary, htree⟩ := Option.bind_eq_some_iff.mp htree
    have hhead := head.parens_le hprimary
    have hsuffixes := suffixes.parens_le htree
    rw [Operand.tokens, Token.parens_append]
    omega

theorem Suffixes.parens_le : (d : Suffixes) → {head e : Expr} → d.extend? head = some e →
    parens (e.lexemes operand) ≤ parens (head.lexemes operand) + Token.parens d.tokens
  | .nil, head, e, htree => by
    cases htree
    exact Nat.le_add_right _ _
  | .call opening arguments closing suffixes, head, e, htree => by
    simp only [Suffixes.extend?, Option.bind_eq_bind] at htree
    obtain ⟨items, hitems, htree⟩ := Option.bind_eq_some_iff.mp htree
    have harguments := arguments.parens_le hitems
    have hsuffixes := suffixes.parens_le htree
    have hcall : parens ((Expr.call head items opening.val.line).lexemes operand) =
        parens (head.lexemes operand) + ((Expr.listLexemes items).map parens).sum + 1 := by
      simp [Expr.lexemes, Expr.level]
      omega
    have hclosing := Token.parens_le_cons closing.val suffixes.tokens
    rw [Suffixes.tokens, Token.parens_opening, Token.parens_append]
    omega
  | .member opening property closing suffixes, head, e, htree => by
    simp only [Suffixes.extend?, Option.bind_eq_bind] at htree
    obtain ⟨inner, hinner, htree⟩ := Option.bind_eq_some_iff.mp htree
    have hproperty := property.parens_le hinner
    have hsuffixes := suffixes.parens_le htree
    have hmember : parens ((Expr.member head inner opening.val.line).lexemes operand) =
        parens (head.lexemes operand) + parens (inner.lexemes assignment) := by
      simp [Expr.lexemes, Expr.level]
    have hopening := Token.parens_le_cons opening.val
      (property.tokens ++ closing.val :: suffixes.tokens)
    have hclosing := Token.parens_le_cons closing.val suffixes.tokens
    rw [Token.parens_append] at hopening
    rw [Suffixes.tokens]
    omega

theorem Primary.parens_le : (d : Primary) → {e : Expr} → d.tree? = some e →
    parens (e.lexemes operand) ≤ Token.parens d.tokens
  | .atom token value hatom, e, htree => by
    cases htree
    rw [hatom.parens_eq_zero]
    exact Nat.zero_le _
  | .array opening elements closing, e, htree => by
    simp only [Primary.tree?, Option.bind_eq_bind] at htree
    obtain ⟨items, hitems, htree⟩ := Option.bind_eq_some_iff.mp htree
    cases htree
    have helements := elements.parens_le hitems
    have harray : parens ((Expr.array items opening.val.line).lexemes operand) =
        ((Expr.listLexemes items).map parens).sum := by
      simp [Expr.lexemes, Expr.level]
    have hopening := Token.parens_le_cons opening.val (elements.tokens ++ [closing.val])
    rw [Token.parens_append] at hopening
    rw [Primary.tokens]
    omega
  | .group opening inner closing, e, htree => by
    -- The only place where an operation may become looser pays for it.
    have hinner := inner.parens_le htree
    have hsucc := e.parens_le_succ operand
    rw [Primary.tokens, Token.parens_opening, Token.parens_append]
    omega

theorem Items.parens_le : (d : Items) → {es : List Expr} → d.trees? = some es →
    ((Expr.listLexemes es).map parens).sum ≤ Token.parens d.tokens
  | .empty, es, htrees => by
    cases htrees
    exact Nat.zero_le _
  | .cons first more, es, htrees => by
    simp only [Items.trees?, Option.bind_eq_bind] at htrees
    obtain ⟨e, he, htrees⟩ := Option.bind_eq_some_iff.mp htrees
    obtain ⟨rest, hrest, htrees⟩ := Option.bind_eq_some_iff.mp htrees
    cases htrees
    have hfirst := first.parens_le he
    have hmore := more.parens_le hrest
    rw [Expr.listLexemes, List.map_cons, List.sum_cons, Items.tokens, Token.parens_append]
    omega

theorem More.parens_le : (d : More) → {es : List Expr} → d.trees? = some es →
    ((Expr.listLexemes es).map parens).sum ≤ Token.parens d.tokens
  | .nil, es, htrees => by
    cases htrees
    exact Nat.zero_le _
  | .cons comma item more, es, htrees => by
    simp only [More.trees?, Option.bind_eq_bind] at htrees
    obtain ⟨e, he, htrees⟩ := Option.bind_eq_some_iff.mp htrees
    obtain ⟨rest, hrest, htrees⟩ := Option.bind_eq_some_iff.mp htrees
    cases htrees
    have hitem := item.parens_le he
    have hmore := more.parens_le hrest
    have hcomma := Token.parens_le_cons comma.val (item.tokens ++ more.tokens)
    rw [Token.parens_append] at hcomma
    rw [Expr.listLexemes, List.map_cons, List.sum_cons, More.tokens]
    omega

end

theorem Terminated.parens_le (d : Terminated) {e : Expr} (h : d.value.tree? = some e) :
    parens (e.lexemes assignment) ≤ Token.parens d.tokens := by
  have hvalue := d.value.parens_le h
  rw [Terminated.tokens, Token.parens_append]
  omega

/-- A condition has its parentheses both in the tokens and in the printed text. -/
theorem Condition.parens_le (d : Condition) {e : Expr} (h : d.value.tree? = some e)
    (k : Keyword) :
    parens (KakaLang.Statement.headerLexemes k e) ≤ Token.parens d.tokens := by
  have hvalue := d.value.parens_le h
  have hheader : parens (KakaLang.Statement.headerLexemes k e) =
      parens (e.lexemes assignment) + 1 := by
    simp [KakaLang.Statement.headerLexemes]
  rw [Condition.tokens, Token.parens_opening, Token.parens_append]
  omega

mutual

theorem Statement.parens_le : (d : Statement) → {s : KakaLang.Statement} → d.tree? = some s →
    ∀ depth, parens (s.lexemes depth) ≤ Token.parens d.tokens
  | .declare keyword name equals value, s, htree, depth => by
    simp only [Statement.tree?, Option.bind_eq_bind] at htree
    obtain ⟨e, he, htree⟩ := Option.bind_eq_some_iff.mp htree
    cases htree
    have hprinted :
        parens ((KakaLang.Statement.declare name.text e keyword.val.line).lexemes depth) =
          parens (e.lexemes assignment) := by
      simp [KakaLang.Statement.lexemes]
    have hvalue := value.parens_le he
    have hequals := Token.parens_le_cons equals.val value.tokens
    have hname := Token.parens_le_cons name.token.val (equals.val :: value.tokens)
    have hkeyword := Token.parens_le_cons keyword.val
      (name.token.val :: equals.val :: value.tokens)
    rw [hprinted, Statement.tokens]
    omega
  | .print keyword value, s, htree, depth => by
    simp only [Statement.tree?, Option.bind_eq_bind] at htree
    obtain ⟨e, he, htree⟩ := Option.bind_eq_some_iff.mp htree
    cases htree
    have hprinted : parens ((KakaLang.Statement.print e keyword.val.line).lexemes depth) =
        parens (e.lexemes assignment) := by
      simp [KakaLang.Statement.lexemes]
    have hvalue := value.parens_le he
    have hkeyword := Token.parens_le_cons keyword.val value.tokens
    rw [hprinted, Statement.tokens]
    omega
  | .branch keyword condition yes no, s, htree, depth => by
    simp only [Statement.tree?, Option.bind_eq_bind] at htree
    obtain ⟨e, he, htree⟩ := Option.bind_eq_some_iff.mp htree
    obtain ⟨b, hb, htree⟩ := Option.bind_eq_some_iff.mp htree
    obtain ⟨c, hc, htree⟩ := Option.bind_eq_some_iff.mp htree
    cases htree
    have hcondition := condition.parens_le he .ifWord
    have hyes := yes.parens_le hb (depth + 1)
    have hkeyword := Token.parens_le_cons keyword.val
      (condition.tokens ++ (yes.tokens ++ no.tokens))
    rw [Token.parens_append, Token.parens_append] at hkeyword
    rw [Statement.tokens]
    cases c with
    | none =>
      have hprinted : parens ((KakaLang.Statement.branch e b none keyword.val.line).lexemes depth) =
          parens (KakaLang.Statement.headerLexemes .ifWord e) +
            parens (KakaLang.Statement.blockLexemes (depth + 1) b) := by
        simp [KakaLang.Statement.lexemes]
      omega
    | some b' =>
      have hprinted :
          parens ((KakaLang.Statement.branch e b (some b') keyword.val.line).lexemes depth) =
            parens (KakaLang.Statement.headerLexemes .ifWord e) +
              parens (KakaLang.Statement.blockLexemes (depth + 1) b) +
                parens (KakaLang.Statement.blockLexemes (depth + 1) b') := by
        simp [KakaLang.Statement.lexemes, Nat.add_assoc]
      have hno := no.parens_le hc (depth + 1) b' rfl
      omega
  | .loop keyword condition body, s, htree, depth => by
    simp only [Statement.tree?, Option.bind_eq_bind] at htree
    obtain ⟨e, he, htree⟩ := Option.bind_eq_some_iff.mp htree
    obtain ⟨b, hb, htree⟩ := Option.bind_eq_some_iff.mp htree
    cases htree
    have hprinted : parens ((KakaLang.Statement.loop e b keyword.val.line).lexemes depth) =
        parens (KakaLang.Statement.headerLexemes .whileWord e) +
          parens (KakaLang.Statement.blockLexemes (depth + 1) b) := by
      simp [KakaLang.Statement.lexemes]
    have hcondition := condition.parens_le he .whileWord
    have hbody := body.parens_le hb (depth + 1)
    have hkeyword := Token.parens_le_cons keyword.val (condition.tokens ++ body.tokens)
    rw [Token.parens_append] at hkeyword
    rw [hprinted, Statement.tokens]
    omega
  | .block body, s, htree, depth => by
    simp only [Statement.tree?, Option.bind_eq_bind] at htree
    obtain ⟨b, hb, htree⟩ := Option.bind_eq_some_iff.mp htree
    cases htree
    have hprinted : parens ((KakaLang.Statement.block b).lexemes depth) =
        parens (KakaLang.Statement.blockLexemes (depth + 1) b) := by
      simp [KakaLang.Statement.lexemes]
    rw [hprinted, Statement.tokens]
    exact body.parens_le hb (depth + 1)
  | .leave keyword semicolon, s, htree, depth => by
    cases htree
    simp [KakaLang.Statement.lexemes]
  | .next keyword semicolon, s, htree, depth => by
    cases htree
    simp [KakaLang.Statement.lexemes]
  | .function keyword name opening params closing body, s, htree, depth => by
    simp only [Statement.tree?, Option.bind_eq_bind] at htree
    obtain ⟨b, hb, htree⟩ := Option.bind_eq_some_iff.mp htree
    cases htree
    have hprinted :
        parens ((KakaLang.Statement.function 0 name.text params.names b
          keyword.val.line).lexemes depth) =
            parens (KakaLang.Statement.blockLexemes (depth + 1) b) + 1 := by
      simp [KakaLang.Statement.lexemes, Function.comp_def, Nat.add_comm]
    have hbody := body.parens_le hb (depth + 1)
    have hclosing := Token.parens_le_cons closing.val body.tokens
    have hname := Token.parens_le_cons name.token.val
      (opening.val :: (params.tokens ++ closing.val :: body.tokens))
    have hkeyword := Token.parens_le_cons keyword.val
      (name.token.val :: opening.val :: (params.tokens ++ closing.val :: body.tokens))
    rw [Token.parens_opening, Token.parens_append] at hname
    rw [hprinted, Statement.tokens]
    omega
  | .give keyword semicolon, s, htree, depth => by
    cases htree
    simp [KakaLang.Statement.lexemes]
  | .giveValue keyword value, s, htree, depth => by
    simp only [Statement.tree?, Option.bind_eq_bind] at htree
    obtain ⟨e, he, htree⟩ := Option.bind_eq_some_iff.mp htree
    cases htree
    have hprinted : parens ((KakaLang.Statement.give (some e) keyword.val.line).lexemes depth) =
        parens (e.lexemes assignment) := by
      simp [KakaLang.Statement.lexemes]
    have hvalue := value.parens_le he
    have hkeyword := Token.parens_le_cons keyword.val value.tokens
    rw [hprinted, Statement.tokens]
    omega
  | .expression value, s, htree, depth => by
    simp only [Statement.tree?, Option.bind_eq_bind] at htree
    obtain ⟨e, he, htree⟩ := Option.bind_eq_some_iff.mp htree
    cases htree
    have hprinted : ∀ line, parens ((KakaLang.Statement.expression e line).lexemes depth) =
        parens (e.lexemes assignment) := by
      simp [KakaLang.Statement.lexemes]
    rw [hprinted, Statement.tokens]
    exact value.parens_le he

theorem Else.parens_le : (d : Else) → {c : Option KakaLang.Block} → d.tree? = some c →
    ∀ depth b, c = some b →
      parens (KakaLang.Statement.blockLexemes depth b) ≤ Token.parens d.tokens
  | .absent, c, htree, depth, b, hb => by
    cases htree
    cases hb
  | .present keyword body, c, htree, depth, b, hb => by
    simp only [Else.tree?, Option.bind_eq_bind] at htree
    obtain ⟨b', hb', htree⟩ := Option.bind_eq_some_iff.mp htree
    cases htree
    cases hb
    have hbody := body.parens_le hb' depth
    exact Nat.le_trans hbody (Token.parens_le_cons keyword.val body.tokens)

theorem Block.parens_le : (d : Block) → {b : KakaLang.Block} → d.tree? = some b →
    ∀ depth, parens (KakaLang.Statement.blockLexemes depth b) ≤ Token.parens d.tokens
  | .mk opening body closing, b, htree, depth => by
    simp only [Block.tree?, Option.bind_eq_bind] at htree
    obtain ⟨ss, hss, htree⟩ := Option.bind_eq_some_iff.mp htree
    cases htree
    have hbody := body.parens_le hss depth
    have hopening := Token.parens_le_cons opening.val (body.tokens ++ [closing.val])
    rw [Token.parens_append] at hopening
    rw [KakaLang.Statement.blockLexemes, Block.tokens]
    omega

theorem Statements.parens_le : (d : Statements) → {ss : List KakaLang.Statement} →
    d.trees? = some ss →
    ∀ depth, parens (KakaLang.Statement.listLexemes depth ss) ≤ Token.parens d.tokens
  | .nil, ss, htrees, depth => by
    cases htrees
    exact Nat.zero_le _
  | .cons first rest, ss, htrees, depth => by
    simp only [Statements.trees?, Option.bind_eq_bind] at htrees
    obtain ⟨s, hs, htrees⟩ := Option.bind_eq_some_iff.mp htrees
    obtain ⟨ss', hss', htrees⟩ := Option.bind_eq_some_iff.mp htrees
    cases htrees
    have hfirst := first.parens_le hs depth
    have hrest := rest.parens_le hss' depth
    rw [KakaLang.Statement.listLexemes, Lexeme.parens_append, Statements.tokens,
      Token.parens_append]
    omega

end

/-- Exactly the tokens before the first end marker are read. -/
theorem exists_whole_of_ofTokens {tokens : List Token} {p : Program}
    (h : Program.ofTokens tokens = .ok p) :
    ∃ w : Whole, w.program? = some p ∧ Token.beforeEnd tokens = w.start.val :: w.body.tokens := by
  obtain ⟨ahead, after, rfl, hopen, hends⟩ := Parser.exists_barrier tokens
  -- Without what stands behind the barrier the program is the same, so its end marker is there.
  have hbarred : Parser.Barred after (after.take 1) := by
    cases after with
    | nil => exact ⟨hends, rfl, rfl⟩
    | cons t after => exact ⟨hends, rfl, rfl⟩
  rw [Parser.ofTokens_barred hbarred hopen] at h
  obtain ⟨w, rest, htokens, hw⟩ := ofTokens_eq_ok_iff.mp h
  rw [w.tokens_append, ← List.cons_append] at htokens
  have hstop : w.stop.val ∉ ahead := fun hmem => hopen _ hmem (.inl w.stop.property)
  cases after with
  | nil =>
    rw [List.take_nil, List.append_nil] at htokens
    exact absurd (by simp [htokens]) hstop
  | cons t after =>
    obtain ⟨hahead, rfl, -⟩ :=
      (List.append_cons_inj_of_notMem hstop List.not_mem_nil).mp htokens
    refine ⟨w, hw, ?_⟩
    have hkinds : ∀ t ∈ ahead, decide (t.kind ≠ .keyword .programEnd) = true :=
      fun t ht => decide_eq_true fun hkind => hopen t ht (.inl hkind)
    rw [Token.beforeEnd, List.takeWhile_append_of_pos hkinds,
      List.takeWhile_cons_of_neg (by simp [w.stop.property]), List.append_nil, hahead]

end Grammar

namespace Expr

mutual

/-- Lines do not show in what is printed. -/
theorem lexemes_bare (level : Nat) : (e : Expr) → (e.bare id).lexemes level = e.lexemes level
  | .literal _ _ => rfl
  | .ident _ _ => rfl
  | .binary _ left right _ => by
    rw [bare, lexemes, lexemes, lexemes_bare _ left, lexemes_bare _ right]
    rfl
  | .logical _ left right _ => by
    rw [bare, lexemes, lexemes, lexemes_bare _ left, lexemes_bare _ right]
    rfl
  | .assign _ value _ => by
    rw [bare, lexemes, lexemes, lexemes_bare _ value]
    rfl
  | .input _ => rfl
  | .call callee arguments _ => by
    rw [bare, lexemes, lexemes, lexemes_bare _ callee, listLexemes_bare arguments]
    rfl
  | .array elements _ => by
    rw [bare, lexemes, lexemes, listLexemes_bare elements]
    rfl
  | .member object property _ => by
    rw [bare, lexemes, lexemes, lexemes_bare _ object, lexemes_bare _ property]
    rfl

theorem listLexemes_bare : (es : List Expr) → listLexemes (bareAll id es) = listLexemes es
  | [] => rfl
  | e :: es => by rw [bareAll, listLexemes, listLexemes, lexemes_bare _ e, listLexemes_bare es]

end

end Expr

namespace Statement

mutual

theorem lexemes_bare (depth : Nat) : (s : Statement) →
    (s.bare id).lexemes depth = s.lexemes depth
  | .declare _ value _ => by simp [bare, lexemes, value.lexemes_bare]
  | .print value _ => by simp [bare, lexemes, value.lexemes_bare]
  | .branch condition yes none _ => by
    simp [bare, lexemes, headerLexemes, condition.lexemes_bare, blockLexemes_bare _ yes]
  | .branch condition yes (some no) _ => by
    simp [bare, lexemes, headerLexemes, condition.lexemes_bare, blockLexemes_bare _ yes,
      blockLexemes_bare _ no]
  | .loop condition body _ => by
    simp [bare, lexemes, headerLexemes, condition.lexemes_bare, blockLexemes_bare _ body]
  | .block body => by simp [bare, lexemes, blockLexemes_bare _ body]
  | .expression value _ => by simp [bare, lexemes, value.lexemes_bare]
  | .leave _ => rfl
  | .next _ => rfl
  | .function _ _ _ body _ => by simp [bare, lexemes, blockLexemes_bare _ body]
  | .give none _ => rfl
  | .give (some value) _ => by simp [bare, lexemes, value.lexemes_bare]

theorem blockLexemes_bare (depth : Nat) : (b : Block) →
    blockLexemes depth (bareBlock id b) = blockLexemes depth b
  | .mk statements _ => by
    rw [bareBlock, blockLexemes, blockLexemes, listLexemes_bare depth statements]

theorem listLexemes_bare (depth : Nat) : (ss : List Statement) →
    listLexemes depth (bareAll id ss) = listLexemes depth ss
  | [] => rfl
  | s :: rest => by
    rw [bareAll, listLexemes, listLexemes, lexemes_bare depth s, listLexemes_bare depth rest]

end

end Statement

namespace Program

open Token (beforeEnd)

/-- Programs that are the same apart from lines are printed alike. -/
theorem lexemes_eq_of_bare {p q : Program} (h : q.bare id = p.bare id) : q.lexemes = p.lexemes := by
  have hlist : Statement.listLexemes 1 q = Statement.listLexemes 1 p := by
    rw [← Statement.listLexemes_bare 1 q, ← Statement.listLexemes_bare 1 p]
    exact congrArg _ h
  rw [lexemes, lexemes, hlist]

/-- The tokens of a program before its end marker hold the parentheses that it is printed with. -/
theorem parens_lexemes_le {tokens : List Token} {p : Program} (h : ofTokens tokens = .ok p) :
    Lexeme.parens p.lexemes ≤ Token.parens (beforeEnd tokens) := by
  obtain ⟨w, hw, hbefore⟩ := Grammar.exists_whole_of_ofTokens h
  have hbody := w.body.parens_le hw 1
  have hprinted : Lexeme.parens p.lexemes = Lexeme.parens (Statement.listLexemes 1 p) := by
    simp [lexemes]
  rw [hprinted, hbefore]
  exact Nat.le_trans hbody (Token.parens_le_cons _ _)

/-- No text of a program has fewer opening parentheses before its end marker than the printed one:
neither the text that the program was read from nor any other that is read as the same program apart
from lines. -/
theorem printed_parens_fewest {source : String} {tokens : List Token} {p : Program}
    (hscan : Token.scan source = .ok tokens) (hparse : ofTokens tokens = .ok p) :
    ∃ printed, Token.scan p.source = .ok printed ∧
      Token.parens printed ≤ Token.parens (beforeEnd tokens) ∧
      ∀ (source' : String) (tokens' : List Token) (q : Program),
        Token.scan source' = .ok tokens' → ofTokens tokens' = .ok q → q.bare id = p.bare id →
          Token.parens printed ≤ Token.parens (beforeEnd tokens') := by
  obtain ⟨printed, hprinted, hkinds⟩ := scan_source (plain_of_source hscan hparse).1
  have hcount : Token.parens printed = Lexeme.parens p.lexemes := by
    rw [Token.parens, hkinds, Lexeme.count_kinds]
  refine ⟨printed, hprinted, ?_, fun source' tokens' q _ hparse' hbare => ?_⟩
  · rw [hcount]
    exact parens_lexemes_le hparse
  · rw [hcount, ← lexemes_eq_of_bare hbare]
    exact parens_lexemes_le hparse'

/-- An assignment inside a sum keeps its parentheses, and what stands behind the end marker does not
count. -/
theorem printed_parens_fewest_assignment :
    let tokens : List Token :=
      [⟨.keyword .programStart, "ও কাকা", 1⟩, ⟨.keyword .print, "কাকা বলো", 1⟩,
        ⟨.identifier "a", "a", 1⟩, ⟨.symbol .plus, "+", 1⟩, ⟨.symbol .openParen, "(", 1⟩,
        ⟨.identifier "b", "b", 1⟩, ⟨.symbol .equals, "=", 1⟩, ⟨.identifier "c", "c", 1⟩,
        ⟨.symbol .closeParen, ")", 1⟩, ⟨.symbol .semicolon, ";", 1⟩,
        ⟨.keyword .programEnd, "আসি কাকা", 1⟩, ⟨.symbol .openParen, "(", 1⟩, ⟨.endOfInput, "", 1⟩]
    let p : Program :=
      [.print (.binary .add (.ident "a" 1) (.assign "b" (.ident "c" 1) 1) 1) 1]
    Token.scan "ও কাকা কাকা বলো a + (b = c); আসি কাকা (" = .ok tokens ∧ ofTokens tokens = .ok p ∧
      ∃ printed, Token.scan p.source = .ok printed ∧ Token.parens printed ≤ 1 := by
  intro tokens p
  have hscan : Token.scan "ও কাকা কাকা বলো a + (b = c); আসি কাকা (" = .ok tokens :=
    Scan.scan_of_toOption (by decide +kernel)
  have hparse : ofTokens tokens = .ok p := rfl
  have hbefore : Token.parens (beforeEnd tokens) = 1 := by decide
  obtain ⟨printed, hprinted, hparens, -⟩ := printed_parens_fewest hscan hparse
  rw [hbefore] at hparens
  exact ⟨hscan, hparse, printed, hprinted, hparens⟩

end Program

end KakaLang
