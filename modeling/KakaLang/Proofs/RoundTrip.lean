import KakaLang.Proofs.Exposure
import KakaLang.Proofs.ParsedPrograms

/-!
Reading back what the printer writes. A printable program comes back from its source text exactly
when no request for input is exposed in it, and programs that were themselves read from a source
text are printable, so formatting a program keeps it under the same condition.
-/

namespace KakaLang.Program

open Lexeme (Exposed)

theorem plain_of_source {source : String} {tokens : List Token} {p : Program}
    (hscan : Token.scan source = .ok tokens) (hparse : ofTokens tokens = .ok p) :
    p.Printable ∧ p.bare Literal.unsigned = p.bare id := by
  obtain ⟨w, rest, rfl, htrees⟩ := Grammar.ofTokens_eq_ok_iff.mp hparse
  have hscanned := Scan.wellSpelled_of_scan hscan
  rw [w.tokens_append] at hscanned
  refine w.body.trees_plain (fun t ht => hscanned t ?_) htrees
  simp [ht]

/-- Source text either reads back as the program with positive zeros or is rejected, and exposure
decides which. -/
theorem ofTokens_printed {p : Program} (h : p.Printable) {tokens : List Token}
    (hkinds : tokens.map (·.kind) = Lexeme.kinds p.lexemes) :
    ((∃ q : Program, ofTokens tokens = .ok q ∧ q.bare id = p.bare Literal.unsigned) ↔
        ¬ Exposed p.lexemes) ∧
      (Exposed p.lexemes → ∃ e, ofTokens tokens = .error e) := by
  refine ⟨⟨?_, ofTokens_of_not_exposed h hkinds⟩, ofTokens_of_exposed hkinds⟩
  rintro ⟨q, hq, -⟩ hexposed
  obtain ⟨e, he⟩ := ofTokens_of_exposed hkinds hexposed
  rw [hq] at he
  cases he

/-- The source text of a printable program scans. It parses to the same program, apart from lines
and the sign of zero, exactly when no request for input is printed before a bracket; otherwise it
is rejected. -/
theorem printable_reads_back_iff {p : Program} (h : p.Printable) :
    ∃ tokens, Token.scan p.source = .ok tokens ∧
      ((∃ q : Program, ofTokens tokens = .ok q ∧ q.bare id = p.bare Literal.unsigned) ↔
        ¬ Exposed p.lexemes) ∧
      (Exposed p.lexemes → ∃ e, ofTokens tokens = .error e) := by
  obtain ⟨tokens, hscan, hkinds⟩ := scan_source h
  exact ⟨tokens, hscan, ofTokens_printed h hkinds⟩

/-- A negative zero and a request for input inside a call, which keep apart from brackets. -/
theorem printable_reads_back_call :
    let call : Expr := .call (.ident "ক" 1) [.input 2, .literal (.number (Number.zero true)) 3] 4
    let p : Program := [.print call 5]
    ∃ tokens, Token.scan p.source = .ok tokens ∧
      ∃ q : Program, ofTokens tokens = .ok q ∧ q.bare id = p.bare Literal.unsigned := by
  intro call p
  have hname : Scan.IsName "ক" := Scan.isName_iff.mpr ⟨'ক', [], rfl, rfl, by simp, rfl⟩
  have hzero : Number.IsUnsigned (Number.zero true) := by decide
  have hprintable : p.Printable := ⟨⟨hname, trivial, hzero, trivial⟩, trivial⟩
  obtain ⟨tokens, hscan, hback, -⟩ := printable_reads_back_iff hprintable
  exact ⟨tokens, hscan, hback.mpr (by decide +kernel)⟩

/-- The program of a source text passes a test. -/
def sourcePasses (test : Program → Bool) (source : String) : Bool :=
  match Token.scan source with
  | .error _ => false
  | .ok tokens =>
    match ofTokens tokens with
    | .error _ => false
    | .ok p => test p

theorem exists_of_sourcePasses {test : Program → Bool} {source : String}
    (h : sourcePasses test source = true) :
    ∃ tokens p, Token.scan source = .ok tokens ∧ ofTokens tokens = .ok p ∧ test p = true := by
  unfold sourcePasses at h
  split at h
  · cases h
  · split at h
    · cases h
    · exact ⟨_, _, by assumption, by assumption, h⟩

/-- The text that a program is formatted to scans, and parses to the same program apart from lines
exactly when no request for input is printed before a bracket; otherwise it is rejected. -/
theorem formatted_reads_back_iff {source : String} {tokens : List Token} {p : Program}
    (hscan : Token.scan source = .ok tokens) (hparse : ofTokens tokens = .ok p) :
    ∃ printed, Token.scan p.source = .ok printed ∧
      ((∃ q : Program, ofTokens printed = .ok q ∧ q.bare id = p.bare id) ↔
        ¬ Exposed p.lexemes) ∧
      (Exposed p.lexemes → ∃ e, ofTokens printed = .error e) := by
  obtain ⟨hprintable, hbare⟩ := plain_of_source hscan hparse
  obtain ⟨printed, hprinted, hkinds⟩ := scan_source hprintable
  rw [← hbare]
  exact ⟨printed, hprinted, ofTokens_printed hprintable hkinds⟩

theorem formatted_reads_back_sum :
    ∃ tokens p printed q, Token.scan "ও কাকা কাকা বলো (কাকা শোনো) + 1.50; আসি কাকা" = .ok tokens ∧
      ofTokens tokens = .ok p ∧ Token.scan p.source = .ok printed ∧ ofTokens printed = .ok q ∧
      q.bare id = p.bare id := by
  obtain ⟨tokens, p, hscan, hparse, hcovered⟩ := exists_of_sourcePasses
    (show sourcePasses (fun p => !Lexeme.isExposed p.lexemes)
      "ও কাকা কাকা বলো (কাকা শোনো) + 1.50; আসি কাকা" = true by decide +kernel)
  obtain ⟨printed, hprinted, hback, -⟩ := formatted_reads_back_iff hscan hparse
  have hexposed : ¬ Exposed p.lexemes := by
    rw [← Lexeme.isExposed_iff]
    simpa using hcovered
  obtain ⟨q, hq, hbare⟩ := hback.mpr hexposed
  exact ⟨tokens, p, printed, q, hscan, hparse, hprinted, hq, hbare⟩

/-- Formatting does not always keep a program readable: the space before the bracket of an indexed
request for input is lost, and with it the request. -/
theorem formatted_indexed_input_rejected :
    ¬ ∀ source tokens p, Token.scan source = .ok tokens → ofTokens tokens = .ok p →
      ∃ printed, Token.scan p.source = .ok printed ∧
        ∃ q : Program, ofTokens printed = .ok q ∧ q.bare id = p.bare id := by
  intro h
  obtain ⟨tokens, p, hscan, hparse, hexposed⟩ := exists_of_sourcePasses
    (show sourcePasses (fun p => Lexeme.isExposed p.lexemes)
      "ও কাকা কাকা বলো কাকা শোনো [0]; আসি কাকা" = true by decide +kernel)
  obtain ⟨printed, hprinted, hkinds⟩ := scan_source (plain_of_source hscan hparse).1
  obtain ⟨printed', hprinted', q, hq, -⟩ := h _ tokens p hscan hparse
  cases hprinted.symm.trans hprinted'
  obtain ⟨e, he⟩ := ofTokens_of_exposed hkinds (Lexeme.isExposed_iff.mp hexposed)
  rw [hq] at he
  cases he

end KakaLang.Program
