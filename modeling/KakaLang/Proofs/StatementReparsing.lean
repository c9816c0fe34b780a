import KakaLang.Proofs.Recognition
import KakaLang.Proofs.Reparsing

/-!
Tokens that spell the lexemes of printable statements stand for those statements again. With the
markers around them they make a whole derivation, which the parser accepts.
-/

namespace KakaLang

open Grammar

open Lexeme (Spelled)

namespace Statement

variable {ts rest : List Token}

theorem terminated_returns {value : Expr} (h : value.Printable)
    (hspelled : Spelled (value.lexemes Level.assignment ++ [.symbol .semicolon]) ts rest) :
    ∃ value' semicolon, value'.bare id = value.bare Literal.unsigned ∧
      semicolon.kind = .symbol .semicolon ∧ IsExpression value' ts (semicolon :: rest) := by
  simp only [Lexeme.spelled_append, Lexeme.spelled_symbol, Lexeme.spelled_nil] at hspelled
  obtain ⟨_, hvalue, semicolon, last, rfl, hsemicolon, hlast⟩ := hspelled
  subst hlast
  obtain ⟨value', hbare, hexpression⟩ := (value.returns h).expression hvalue
  exact ⟨value', semicolon, hbare, hsemicolon, hexpression⟩

/-- The header of a branch or a loop, up to the brace that opens its block. -/
theorem header_returns {k : Keyword} {condition : Expr} (h : condition.Printable)
    (hspelled : Spelled (headerLexemes k condition) ts rest) :
    ∃ condition' keyword opening mid closing brace,
      condition'.bare id = condition.bare Literal.unsigned ∧ ts = keyword :: opening :: mid ∧
      keyword.kind = .keyword k ∧ opening.kind = .symbol .openParen ∧
      IsExpression condition' mid (closing :: brace :: rest) ∧
      closing.kind = .symbol .closeParen ∧ brace.kind = .symbol .openBrace := by
  simp only [headerLexemes, Lexeme.spelled_append, Lexeme.spelled_symbol, Lexeme.spelled_keyword,
    Lexeme.spelled_space, Lexeme.spelled_nil] at hspelled
  obtain ⟨keyword, _, rfl, hkeyword, opening, mid, rfl, hopening, _, hcondition, closing, _, rfl,
    hclosing, brace, last, rfl, hbrace, hlast⟩ := hspelled
  subst hlast
  obtain ⟨condition', hbare, hexpression⟩ := (condition.returns h).expression hcondition
  exact ⟨condition', keyword, opening, mid, closing, brace, hbare, rfl, hkeyword, hopening,
    hexpression, hclosing, hbrace⟩

theorem closing_returns {depth : Nat}
    (hspelled : Spelled (Lexeme.line depth [.symbol .closeBrace]) ts rest) :
    ∃ closing, closing.kind = .symbol .closeBrace ∧ ts = closing :: rest := by
  simp only [Lexeme.spelled_line, Lexeme.spelled_symbol, Lexeme.spelled_nil] at hspelled
  obtain ⟨closing, last, rfl, hclosing, hlast⟩ := hspelled
  subst hlast
  exact ⟨closing, hclosing, rfl⟩

theorem params_returns {params : List String}
    (hspelled : Spelled (Lexeme.separated (params.map fun param => [.name param])) ts rest) :
    IsParams params ts rest := by
  have hfollowing : ∀ (params : List String) (name : String) (t : Token) (ts : List Token),
      t.kind = .identifier name →
      Spelled (Lexeme.following (params.map fun param => [.name param])) ts rest →
      IsParams (name :: params) (t :: ts) rest := by
    intro params
    induction params with
    | nil =>
      intro name t ts ht h
      rw [List.map_nil, Lexeme.following, Lexeme.spelled_nil] at h
      subst h
      exact IsParams.one ht ts
    | cons param params ih =>
      intro name t ts ht h
      simp only [List.map_cons, Lexeme.following, Lexeme.spelled_symbol, Lexeme.spelled_space,
        Lexeme.spelled_append, Lexeme.spelled_name, Lexeme.spelled_nil] at h
      obtain ⟨comma, _, rfl, hcomma, mid, ⟨next, last, rfl, hnext, hlast⟩, hrest⟩ := h
      subst hlast
      exact IsParams.cons ht hcomma (List.cons_ne_nil _ _) (ih param next last hnext hrest)
  cases params with
  | nil =>
    rw [List.map_nil, Lexeme.separated, Lexeme.spelled_nil] at hspelled
    subst hspelled
    exact IsParams.empty ts
  | cons param params =>
    simp only [List.map_cons, Lexeme.separated, Lexeme.spelled_append, Lexeme.spelled_name,
      Lexeme.spelled_nil] at hspelled
    obtain ⟨_, ⟨t, last, rfl, ht, hlast⟩, hrest⟩ := hspelled
    subst hlast
    exact hfollowing params param t last ht hrest

mutual

/-- Tokens that spell a printable statement stand for it again. -/
theorem returns (depth : Nat) : (s : Statement) → s.Printable → ∀ ts rest,
    Spelled (s.lexemes depth) ts rest →
      ∃ s', s'.bare id = s.bare Literal.unsigned ∧ IsStatement s' ts rest
  | .declare name value _, h, ts, rest, hspelled => by
    simp only [lexemes, Lexeme.spelled_line, Lexeme.spelled_keyword, Lexeme.spelled_space,
      Lexeme.spelled_name, Lexeme.spelled_symbol] at hspelled
    obtain ⟨keyword, _, rfl, hkeyword, t, _, rfl, ht, equals, mid, rfl, hequals, hvalue⟩ :=
      hspelled
    obtain ⟨value', semicolon, hbare, hsemicolon, hvalue⟩ := terminated_returns h.2 hvalue
    refine ⟨_, ?_, IsStatement.declare hkeyword ht hequals hvalue hsemicolon⟩
    simp [bare, hbare]
  | .print value _, h, ts, rest, hspelled => by
    simp only [lexemes, Lexeme.spelled_line, Lexeme.spelled_keyword,
      Lexeme.spelled_space] at hspelled
    obtain ⟨keyword, mid, rfl, hkeyword, hvalue⟩ := hspelled
    obtain ⟨value', semicolon, hbare, hsemicolon, hvalue⟩ := terminated_returns h hvalue
    refine ⟨_, ?_, IsStatement.print hkeyword hvalue hsemicolon⟩
    simp [bare, hbare]
  | .branch condition yes none _, h, ts, rest, hspelled => by
    rw [lexemes, Lexeme.spelled_append] at hspelled
    obtain ⟨last, hspelled, hclosing⟩ := hspelled
    simp only [Lexeme.spelled_append, Lexeme.spelled_line] at hspelled
    obtain ⟨mid, hheader, hyes⟩ := hspelled
    obtain ⟨condition', keyword, opening, inner, closing, brace, hbare, rfl, hkeyword, hopening,
      hcondition, hparen, hbrace⟩ := header_returns h.1 hheader
    obtain ⟨stop, hstop, rfl⟩ := closing_returns hclosing
    obtain ⟨yes', hbares, hyes⟩ := block_returns (depth + 1) yes h.2 _ _ hyes hbrace hstop
    refine ⟨_, ?_, IsStatement.branch hkeyword hopening hcondition hparen hyes (.absent rest)⟩
    simp [bare, hbare, hbares]
  | .branch condition yes (some no) _, h, ts, rest, hspelled => by
    rw [lexemes, Lexeme.spelled_append] at hspelled
    obtain ⟨last, hspelled, hclosing⟩ := hspelled
    rw [Lexeme.spelled_append] at hspelled
    obtain ⟨_, hspelled, hno⟩ := hspelled
    simp only [Lexeme.spelled_append, Lexeme.spelled_line, Lexeme.spelled_symbol,
      Lexeme.spelled_keyword, Lexeme.spelled_space, Lexeme.spelled_nil] at hspelled
    obtain ⟨_, ⟨mid, hheader, hyes⟩, stop, _, rfl, hstop, word, _, rfl, hword, brace', _, rfl,
      hbrace', hlast⟩ := hspelled
    subst hlast
    obtain ⟨condition', keyword, opening, inner, closing, brace, hbare, rfl, hkeyword, hopening,
      hcondition, hparen, hbrace⟩ := header_returns h.1 hheader
    obtain ⟨stop', hstop', rfl⟩ := closing_returns hclosing
    obtain ⟨yes', hbares, hyes⟩ := block_returns (depth + 1) yes h.2.1 _ _ hyes hbrace hstop
    obtain ⟨no', hbares', hno⟩ := block_returns (depth + 1) no h.2.2 _ _ hno hbrace' hstop'
    refine ⟨_, ?_, IsStatement.branch hkeyword hopening hcondition hparen hyes
      (.present hword hno)⟩
    simp [bare, hbare, hbares, hbares']
  | .loop condition body _, h, ts, rest, hspelled => by
    rw [lexemes, Lexeme.spelled_append] at hspelled
    obtain ⟨last, hspelled, hclosing⟩ := hspelled
    simp only [Lexeme.spelled_append, Lexeme.spelled_line] at hspelled
    obtain ⟨mid, hheader, hbody⟩ := hspelled
    obtain ⟨condition', keyword, opening, inner, closing, brace, hbare, rfl, hkeyword, hopening,
      hcondition, hparen, hbrace⟩ := header_returns h.1 hheader
    obtain ⟨stop, hstop, rfl⟩ := closing_returns hclosing
    obtain ⟨body', hbares, hbody⟩ := block_returns (depth + 1) body h.2 _ _ hbody hbrace hstop
    refine ⟨_, ?_, IsStatement.loop hkeyword hopening hcondition hparen hbody⟩
    simp [bare, hbare, hbares]
  | .block body, h, ts, rest, hspelled => by
    rw [lexemes, Lexeme.spelled_append] at hspelled
    obtain ⟨last, hspelled, hclosing⟩ := hspelled
    simp only [Lexeme.spelled_append, Lexeme.spelled_line, Lexeme.spelled_symbol,
      Lexeme.spelled_nil] at hspelled
    obtain ⟨_, ⟨brace, mid, rfl, hbrace, hmid⟩, hbody⟩ := hspelled
    subst hmid
    obtain ⟨stop, hstop, rfl⟩ := closing_returns hclosing
    obtain ⟨body', hbares, hbody⟩ := block_returns (depth + 1) body h _ _ hbody hbrace hstop
    exact ⟨_, by simp [bare, hbares], IsStatement.block hbody⟩
  | .expression value _, h, ts, rest, hspelled => by
    rw [lexemes, Lexeme.spelled_line] at hspelled
    obtain ⟨value', semicolon, hbare, hsemicolon, hvalue⟩ := terminated_returns h hspelled
    exact ⟨_, by simp [bare, hbare], IsStatement.expression hvalue hsemicolon⟩
  | .leave _, _, ts, rest, hspelled => by
    simp only [lexemes, Lexeme.spelled_line, Lexeme.spelled_keyword, Lexeme.spelled_symbol,
      Lexeme.spelled_nil] at hspelled
    obtain ⟨keyword, _, rfl, hkeyword, semicolon, last, rfl, hsemicolon, rfl⟩ := hspelled
    exact ⟨_, rfl, IsStatement.leave last hkeyword hsemicolon⟩
  | .next _, _, ts, rest, hspelled => by
    simp only [lexemes, Lexeme.spelled_line, Lexeme.spelled_keyword, Lexeme.spelled_symbol,
      Lexeme.spelled_nil] at hspelled
    obtain ⟨keyword, _, rfl, hkeyword, semicolon, last, rfl, hsemicolon, rfl⟩ := hspelled
    exact ⟨_, rfl, IsStatement.next last hkeyword hsemicolon⟩
  | .function _ name params body _, h, ts, rest, hspelled => by
    rw [lexemes, Lexeme.spelled_append] at hspelled
    obtain ⟨last, hspelled, hclosing⟩ := hspelled
    simp only [Lexeme.spelled_append, Lexeme.spelled_line, Lexeme.spelled_keyword,
      Lexeme.spelled_space, Lexeme.spelled_name, Lexeme.spelled_symbol,
      Lexeme.spelled_nil] at hspelled
    obtain ⟨_, ⟨keyword, _, rfl, hkeyword, t, _, rfl, ht, opening, _, rfl, hopening, _, hparams,
      closing, _, rfl, hparen, brace, mid, rfl, hbrace, hmid⟩, hbody⟩ := hspelled
    subst hmid
    obtain ⟨stop, hstop, rfl⟩ := closing_returns hclosing
    obtain ⟨body', hbares, hbody⟩ := block_returns (depth + 1) body h.2.2 _ _ hbody hbrace hstop
    refine ⟨_, ?_, IsStatement.function hkeyword ht hopening (params_returns hparams) hparen hbody⟩
    simp [bare, hbares]
  | .give none _, _, ts, rest, hspelled => by
    simp only [lexemes, Lexeme.spelled_line, Lexeme.spelled_keyword, Lexeme.spelled_symbol,
      Lexeme.spelled_nil] at hspelled
    obtain ⟨keyword, _, rfl, hkeyword, semicolon, last, rfl, hsemicolon, rfl⟩ := hspelled
    exact ⟨_, by simp [bare], IsStatement.give last hkeyword hsemicolon⟩
  | .give (some value) _, h, ts, rest, hspelled => by
    simp only [lexemes, Lexeme.spelled_line, Lexeme.spelled_keyword,
      Lexeme.spelled_space] at hspelled
    obtain ⟨keyword, mid, rfl, hkeyword, hvalue⟩ := hspelled
    obtain ⟨value', semicolon, hbare, hsemicolon, hvalue⟩ := terminated_returns h hvalue
    refine ⟨_, ?_, IsStatement.giveValue hkeyword hvalue hsemicolon⟩
    simp [bare, hbare]

theorem block_returns (depth : Nat) : (b : Block) → BlockPrintable b →
    ∀ ts rest {opening closing : Token}, Spelled (blockLexemes depth b) ts (closing :: rest) →
      opening.kind = .symbol .openBrace → closing.kind = .symbol .closeBrace →
      ∃ b', bareBlock id b' = bareBlock Literal.unsigned b ∧ IsBlock b' (opening :: ts) rest
  | .mk statements _, h, ts, rest, opening, closing, hspelled, hopening, hclosing => by
    rw [blockLexemes] at hspelled
    obtain ⟨body, hbare, hbody⟩ := list_returns depth statements h _ _ hspelled
    exact ⟨_, by simp [bareBlock, hbare], IsBlock.mk hopening hbody hclosing⟩

theorem list_returns (depth : Nat) : (ss : List Statement) → AllPrintable ss → ∀ ts rest,
    Spelled (listLexemes depth ss) ts rest →
      ∃ ss', bareAll id ss' = bareAll Literal.unsigned ss ∧ IsStatements ss' ts rest
  | [], _, ts, rest, hspelled => by
    rw [listLexemes, Lexeme.spelled_nil] at hspelled
    subst hspelled
    exact ⟨[], rfl, .nil ts⟩
  | s :: ss, h, ts, rest, hspelled => by
    rw [listLexemes, Lexeme.spelled_append] at hspelled
    obtain ⟨mid, hs, hss⟩ := hspelled
    obtain ⟨s', hbare, hs⟩ := returns depth s h.1 _ _ hs
    obtain ⟨ss', hbares, hss⟩ := list_returns depth ss h.2 _ _ hss
    exact ⟨s' :: ss', by simp [bareAll, hbare, hbares], .cons hs hss⟩

end

end Statement

/-- The parser reads a printable program back from the tokens of its lexemes. -/
theorem Program.ofTokens_of_spelled {p : Program} (h : p.Printable) {ts rest : List Token}
    (hspelled : Spelled p.lexemes ts rest) :
    ∃ q : Program, ofTokens ts = .ok q ∧ q.bare id = p.bare Literal.unsigned := by
  simp only [lexemes, Lexeme.spelled_append, Lexeme.spelled_line, Lexeme.spelled_keyword,
    Lexeme.spelled_nil] at hspelled
  obtain ⟨_, ⟨_, ⟨start, mid, rfl, hstart, hmid⟩, hbody⟩, stop, last, rfl, hstop, hlast⟩ :=
    hspelled
  subst hmid hlast
  obtain ⟨q, hbare, body, rfl, htrees⟩ := Statement.list_returns 1 p h _ _ hbody
  let whole : Whole := ⟨⟨start, hstart⟩, body, ⟨stop, hstop⟩⟩
  have htokens := whole.tokens_append last
  exact ⟨q, ofTokens_eq_ok_iff.mpr ⟨whole, last, htokens.symm, htrees⟩, hbare⟩

end KakaLang
