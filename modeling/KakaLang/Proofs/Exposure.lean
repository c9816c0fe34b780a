import KakaLang.Proofs.Adjacency
import KakaLang.Proofs.StatementReparsing

/-!
Which printable programs read back from their source text. A request for input that is printed
right before a bracket is exposed: its two words scan as two names. No derivation has two names side
by side, so the parser rejects the text, and this is the only way in which reading back can fail.
-/

namespace KakaLang

namespace Lexeme

/-- A request for input stands right before a bracket. -/
def Exposed (ls : List Lexeme) : Prop :=
  ∃ before after, ls = before ++ keyword .input :: after ∧ bracketed (join after) = true

def isExposed : List Lexeme → Bool
  | [] => false
  | l :: after => (l = keyword .input && bracketed (join after)) || isExposed after

theorem isExposed_iff {ls : List Lexeme} : isExposed ls = true ↔ Exposed ls := by
  induction ls with
  | nil => simp [isExposed, Exposed]
  | cons l ls ih =>
    rw [isExposed, Bool.or_eq_true, Bool.and_eq_true, decide_eq_true_iff, ih]
    constructor
    · rintro (⟨rfl, hbracket⟩ | ⟨before, after, rfl, hbracket⟩)
      · exact ⟨[], ls, rfl, hbracket⟩
      · exact ⟨l :: before, after, rfl, hbracket⟩
    · rintro ⟨before, after, h, hbracket⟩
      cases before with
      | nil =>
        cases h
        exact Or.inl ⟨rfl, hbracket⟩
      | cons first before =>
        cases h
        exact Or.inr ⟨before, after, rfl, hbracket⟩

instance (ls : List Lexeme) : Decidable (Exposed ls) := decidable_of_iff _ isExposed_iff

theorem kinds_of_not_exposed {ls : List Lexeme} (h : ¬ Exposed ls) :
    kinds ls = ls.filterMap kind? ++ [.endOfInput] := by
  induction ls with
  | nil => rfl
  | cons l after ih =>
    have hhead : ¬ (l = keyword .input ∧ bracketed (join after) = true) := by
      rintro ⟨rfl, hbracket⟩
      exact h ⟨[], after, rfl, hbracket⟩
    have hafter : ¬ Exposed after := by
      rintro ⟨before, rest, rfl, hbracket⟩
      exact h ⟨l :: before, rest, rfl, hbracket⟩
    rw [kinds, kindsBefore, if_neg hhead, ih hafter]
    cases hkind : l.kind? with
    | none => rw [List.filterMap_cons_none hkind]; rfl
    | some kind => rw [List.filterMap_cons_some hkind]; rfl

/-- Lexemes in front add kinds in front, and keywords only for keywords. -/
theorem kinds_append (ls ms : List Lexeme) :
    ∃ ks, kinds (ls ++ ms) = ks ++ kinds ms ∧ ∀ k, .keyword k ∈ ks → keyword k ∈ ls := by
  induction ls with
  | nil => exact ⟨[], rfl, by simp⟩
  | cons l ls ih =>
    obtain ⟨ks, hks, hmem⟩ := ih
    refine ⟨l.kindsBefore (join (ls ++ ms)) ++ ks, ?_, ?_⟩
    · rw [List.cons_append, kinds, hks, List.append_assoc]
    · intro k hk
      rcases List.mem_append.mp hk with hk | hk
      · rw [kindsBefore] at hk
        split at hk
        · simp at hk
        · cases l <;> simp [kind?] at hk
          simp [hk]
      · exact List.mem_cons_of_mem l (hmem k hk)

theorem mem_separated {k : Keyword} {lss : List (List Lexeme)} :
    keyword k ∈ separated lss ↔ ∃ ls ∈ lss, keyword k ∈ ls := by
  have hfollowing : ∀ lss, keyword k ∈ following lss ↔ ∃ ls ∈ lss, keyword k ∈ ls := by
    intro lss
    induction lss with
    | nil => simp [following]
    | cons ls lss ih => simp [following, ih]
  cases lss with
  | nil => simp [separated]
  | cons ls lss => simp [separated, hfollowing]

theorem mem_parenthesized {k : Keyword} {needed : Bool} {ls : List Lexeme} :
    keyword k ∈ parenthesized needed ls ↔ keyword k ∈ ls := by
  cases needed <;> simp [parenthesized]

theorem mem_line {k : Keyword} {depth : Nat} {ls : List Lexeme} :
    keyword k ∈ line depth ls ↔ keyword k ∈ ls := by
  simp [line]

end Lexeme

namespace Expr

open Lexeme (keyword separated)

mutual

/-- The end marker is no part of an expression. -/
theorem end_notMem_lexemes (level : Nat) : (e : Expr) → keyword .programEnd ∉ e.lexemes level
  | .literal value _ => by
    rw [lexemes, Lexeme.mem_parenthesized]
    cases value with
    | bool b => cases b <;> simp [Lexeme.ofLiteral]
    | _ => simp [Lexeme.ofLiteral]
  | .ident _ _ => by simp [lexemes, Lexeme.mem_parenthesized]
  | .binary _ left right _ => by
    simp [lexemes, Lexeme.mem_parenthesized, end_notMem_lexemes _ left, end_notMem_lexemes _ right]
  | .logical op left right _ => by
    have hop : Keyword.programEnd ≠ op.keyword := by cases op <;> decide
    simp [lexemes, Lexeme.mem_parenthesized, end_notMem_lexemes _ left, end_notMem_lexemes _ right,
      hop]
  | .assign _ value _ => by
    simp [lexemes, Lexeme.mem_parenthesized, end_notMem_lexemes _ value]
  | .input _ => by simp [lexemes, Lexeme.mem_parenthesized]
  | .call callee arguments _ => by
    have harguments := end_notMem_list arguments
    simpa [lexemes, Lexeme.mem_parenthesized, Lexeme.mem_separated,
      end_notMem_lexemes _ callee] using harguments
  | .array elements _ => by
    have helements := end_notMem_list elements
    simpa [lexemes, Lexeme.mem_parenthesized, Lexeme.mem_separated] using helements
  | .member object property _ => by
    simp [lexemes, Lexeme.mem_parenthesized, end_notMem_lexemes _ object,
      end_notMem_lexemes _ property]

theorem end_notMem_list : (es : List Expr) → ∀ ls ∈ listLexemes es, keyword .programEnd ∉ ls
  | [] => by simp [listLexemes]
  | e :: es => by
    rw [listLexemes, List.forall_mem_cons]
    exact ⟨end_notMem_lexemes _ e, end_notMem_list es⟩

end

end Expr

namespace Statement

open Lexeme (keyword)

mutual

theorem end_notMem_lexemes (depth : Nat) : (s : Statement) →
    keyword .programEnd ∉ s.lexemes depth
  | .declare _ value _ => by simp [lexemes, Lexeme.mem_line, value.end_notMem_lexemes]
  | .print value _ => by simp [lexemes, Lexeme.mem_line, value.end_notMem_lexemes]
  | .branch condition yes none _ => by
    simp [lexemes, headerLexemes, Lexeme.mem_line, condition.end_notMem_lexemes,
      end_notMem_block _ yes]
  | .branch condition yes (some no) _ => by
    simp [lexemes, headerLexemes, Lexeme.mem_line, condition.end_notMem_lexemes,
      end_notMem_block _ yes, end_notMem_block _ no]
  | .loop condition body _ => by
    simp [lexemes, headerLexemes, Lexeme.mem_line, condition.end_notMem_lexemes,
      end_notMem_block _ body]
  | .block body => by simp [lexemes, Lexeme.mem_line, end_notMem_block _ body]
  | .expression value _ => by simp [lexemes, Lexeme.mem_line, value.end_notMem_lexemes]
  | .leave _ => by simp [lexemes, Lexeme.mem_line]
  | .next _ => by simp [lexemes, Lexeme.mem_line]
  | .function _ _ _ body _ => by
    simp [lexemes, Lexeme.mem_line, Lexeme.mem_separated, end_notMem_block _ body]
  | .give none _ => by simp [lexemes, Lexeme.mem_line]
  | .give (some value) _ => by simp [lexemes, Lexeme.mem_line, value.end_notMem_lexemes]

theorem end_notMem_block (depth : Nat) : (b : Block) →
    keyword .programEnd ∉ blockLexemes depth b
  | .mk statements _ => by
    rw [blockLexemes]
    exact end_notMem_list depth statements

/-- The end marker is printed only at the end. -/
theorem end_notMem_list (depth : Nat) : (ss : List Statement) →
    keyword .programEnd ∉ listLexemes depth ss
  | [] => by simp [listLexemes]
  | s :: ss => by simp [listLexemes, end_notMem_lexemes depth s, end_notMem_list depth ss]

end

end Statement

namespace Program

open Grammar

theorem kinds_lexemes (p : Program) :
    ∃ ks, Lexeme.kinds p.lexemes = ks ++ [.keyword .programEnd, .endOfInput] ∧
      .keyword .programEnd ∉ ks := by
  obtain ⟨ks, hks, hmem⟩ :=
    Lexeme.kinds_append (Lexeme.line 0 [.keyword .programStart] ++ Statement.listLexemes 1 p)
      (Lexeme.line 0 [.keyword .programEnd])
  refine ⟨ks, hks, fun h => ?_⟩
  have hend := hmem _ h
  simp [Lexeme.mem_line, Statement.end_notMem_list] at hend

/-- Two names side by side are accepted nowhere before the end marker. -/
theorem apart_of_accepted {p q : Program} {tokens : List Token}
    (hkinds : tokens.map (·.kind) = Lexeme.kinds p.lexemes) (h : ofTokens tokens = .ok q) :
    Apart tokens := by
  obtain ⟨w, rest, rfl, -⟩ := ofTokens_eq_ok_iff.mp h
  obtain ⟨ks, hks, hend⟩ := p.kinds_lexemes
  -- The derivation ends with an end marker, and there is only one: nothing before it is left out.
  have hsplit : ks ++ .keyword .programEnd :: [.endOfInput] =
      (w.start.val :: w.body.tokens).map (·.kind) ++
        .keyword .programEnd :: rest.map (·.kind) := by
    rw [← hks, ← hkinds, Whole.tokens_append]
    simp [w.stop.property]
  obtain ⟨-, -, hrest⟩ := (List.append_cons_inj_of_notMem hend (by simp)).mp hsplit
  obtain ⟨last, rfl⟩ : ∃ last, rest = [last] := by
    obtain ⟨last, more, rfl, -, hmore⟩ := List.map_eq_cons_iff.mp hrest.symm
    exact ⟨last, by rw [List.map_eq_nil_iff.mp hmore]⟩
  exact w.apart (List.isChain_singleton last)

theorem not_apart_of_exposed {ls : List Lexeme} {tokens : List Token}
    (hkinds : tokens.map (·.kind) = Lexeme.kinds ls) (h : Lexeme.Exposed ls) :
    ¬ Apart tokens := by
  obtain ⟨before, after, rfl, hbracket⟩ := h
  obtain ⟨ks, hks, -⟩ := Lexeme.kinds_append before (.keyword .input :: after)
  rw [hks, Lexeme.kinds, Lexeme.kindsBefore, if_pos ⟨rfl, hbracket⟩] at hkinds
  obtain ⟨first, last, rfl, -, hlast⟩ := List.map_eq_append_iff.mp hkinds
  obtain ⟨s, last, rfl, hs, hlast⟩ := List.map_eq_cons_iff.mp hlast
  obtain ⟨t, last, rfl, ht, -⟩ := List.map_eq_cons_iff.mp hlast
  intro hapart
  have hpair := (List.isChain_split.mp hapart).2
  rw [List.isChain_cons_cons, hs, ht] at hpair
  exact hpair.1 ⟨rfl, rfl⟩

/-- An exposed program is rejected. -/
theorem ofTokens_of_exposed {p : Program} {tokens : List Token}
    (hkinds : tokens.map (·.kind) = Lexeme.kinds p.lexemes) (h : Lexeme.Exposed p.lexemes) :
    ∃ e, ofTokens tokens = .error e := by
  cases hresult : ofTokens tokens with
  | error e => exact ⟨e, rfl⟩
  | ok q => exact absurd (apart_of_accepted hkinds hresult) (not_apart_of_exposed hkinds h)

/-- A printable program that is not exposed reads back. -/
theorem ofTokens_of_not_exposed {p : Program} (hprintable : p.Printable) {tokens : List Token}
    (hkinds : tokens.map (·.kind) = Lexeme.kinds p.lexemes) (h : ¬ Lexeme.Exposed p.lexemes) :
    ∃ q : Program, ofTokens tokens = .ok q ∧ q.bare id = p.bare Literal.unsigned := by
  rw [Lexeme.kinds_of_not_exposed h, List.map_eq_append_iff] at hkinds
  obtain ⟨body, last, rfl, hbody, -⟩ := hkinds
  exact ofTokens_of_spelled hprintable ⟨body, rfl, hbody⟩

end Program

end KakaLang
