import KakaLang.Proofs.ParserSoundness
import KakaLang.Proofs.StatementCompleteness
import KakaLang.Proofs.StatementUnambiguity

/-!
The parser recognizes the grammar. Soundness and completeness meet here: a list of tokens is
accepted exactly when it starts with a whole derivation, the result is the tree that the derivation
stands for, and there is only one derivation to choose from.
-/

namespace KakaLang.Grammar

open KakaLang.Parser

theorem ofTokens_eq_ok_iff_program {tokens : List Token} {p : Program} :
    Program.ofTokens tokens = .ok p ↔ ∃ rest, program tokens = .ok p rest := by
  rw [Program.ofTokens]
  cases program tokens <;> simp

/-- An accepted list of tokens starts with a whole derivation of the program. -/
theorem ofTokens_eq_ok_iff {tokens : List Token} {p : Program} :
    Program.ofTokens tokens = .ok p ↔
      ∃ (w : Whole) (rest : List Token), tokens = w.tokens ++ rest ∧ w.program? = some p := by
  rw [ofTokens_eq_ok_iff_program]
  constructor
  · rintro ⟨rest, h⟩
    exact program_sound h
  · rintro ⟨w, rest, rfl, hw⟩
    exact ⟨w.stop.val :: rest, w.accepted hw rest⟩

theorem Whole.tokens_append (w : Whole) (rest : List Token) :
    w.tokens ++ rest = w.start.val :: (w.body.tokens ++ w.stop.val :: rest) := by
  simp [Whole.tokens]

/-- No token stands between one list of statements and another that it could be. -/
theorem Statements.tokens_injective {body body' : Statements} (h : body.tokens = body'.tokens) :
    body = body' := by
  have hstops : Stops [] := ⟨rfl, by simp [kindOf]⟩
  have happend : body.tokens ++ [] = body'.tokens ++ [] := by rw [h]
  exact (body.determined body' [] [] happend hstops hstops).1

/-- The parser accepts exactly a start marker, the tokens of a derivation, an end marker and
anything after it, and gives the tree of that derivation. Neither the derivation nor the place
where it ends can be chosen in two ways. -/
theorem parser_recognizes_grammar :
    (∀ (tokens : List Token) (p : Program),
      Program.ofTokens tokens = .ok p ↔
        ∃ (start : Terminal (.keyword .programStart)) (body : Statements)
          (stop : Terminal (.keyword .programEnd)) (rest : List Token),
          tokens = start.val :: (body.tokens ++ stop.val :: rest) ∧ body.trees? = some p) ∧
    (∀ body body' : Statements, body.tokens = body'.tokens → body = body') ∧
    (∀ (w w' : Whole) (rest rest' : List Token),
      w.tokens ++ rest = w'.tokens ++ rest' → w = w' ∧ rest = rest') := by
  refine ⟨?_, fun _ _ => Statements.tokens_injective, fun w w' _ _ => w.determined w'⟩
  intro tokens p
  rw [ofTokens_eq_ok_iff]
  constructor
  · rintro ⟨w, rest, rfl, hw⟩
    exact ⟨w.start, w.body, w.stop, rest, w.tokens_append rest, hw⟩
  · rintro ⟨start, body, stop, rest, rfl, hbody⟩
    let w : Whole := ⟨start, body, stop⟩
    exact ⟨w, rest, (w.tokens_append rest).symm, hbody⟩

end KakaLang.Grammar
