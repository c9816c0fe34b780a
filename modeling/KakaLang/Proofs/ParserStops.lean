import KakaLang.Proofs.SufficientDepth

/-!
Where parsers stop. On any tokens, well formed or not, a parser that is called from outside comes to
an end, leaves a suffix of its tokens and has taken at least one of them when it succeeds; an error
points to the first token that was left. A program is read up to its first end marker or the end of
input, and what stands behind has no influence on the result, be it a program or an error.
-/

namespace KakaLang.Parser

/-- Where the tokens that parsers may take end. -/
theorem exists_barrier (ts : List Token) : ∃ ahead after, ts = ahead ++ after ∧
    (∀ t ∈ ahead, ¬ EndsProgram t.kind) ∧ EndsProgram (kindOf after) := by
  induction ts with
  | nil => exact ⟨[], [], rfl, fun _ ht => absurd ht List.not_mem_nil, .inr rfl⟩
  | cons t ts ih =>
    by_cases ht : EndsProgram t.kind
    · exact ⟨[], t :: ts, rfl, fun _ hu => absurd hu List.not_mem_nil, ht⟩
    · obtain ⟨ahead, after, rfl, hopen, hends⟩ := ih
      refine ⟨t :: ahead, after, rfl, fun u hu => ?_, hends⟩
      rcases List.mem_cons.mp hu with rfl | hu
      · exact ht
      · exact hopen u hu

/-- A parser from outside, and what it does with a given depth. -/
structure Orderly (p : Parser α) (within : (TokenKind → Nat → SyntaxError) → Nat → Parser α) :
    Prop where
  /-- The calls end before the depth that the tokens allow is used up: a larger one changes nothing,
  nor does what would be answered then. -/
  ends : ∀ ts spent depth, enough ts ≤ depth → within spent depth ts = p ts
  /-- At least one token is taken. -/
  ok : ∀ ts a rest, p ts = .ok a rest → ∃ t taken, ts = t :: (taken ++ rest)
  error : ∀ ts e rest, p ts = .error e rest → ∃ taken, ts = taken ++ rest ∧ Located taken rest e

/-- It is enough to compare two runs on the same tokens. -/
theorem orderly_of_alike {within : (TokenKind → Nat → SyntaxError) → Nat → Parser α}
    (h : ∀ after spent depth depth' n, Barred after after → 8 * n ≤ min depth depth' →
      Alike after after 1 n (within spent depth) (within .unexpected depth')) :
    Orderly (deeply within) within := by
  have houtcome : ∀ ts, ∃ ahead after, ts = ahead ++ after ∧ ∀ spent depth, enough ts ≤ depth →
      SameOutcome after after 1 ahead (within spent depth ts) (deeply within ts) := by
    intro ts
    obtain ⟨ahead, after, rfl, hopen, hends⟩ := exists_barrier ts
    refine ⟨ahead, after, rfl, fun spent depth hdepth => ?_⟩
    have hbound : 8 * (ahead.length + 1) ≤ min depth (enough (ahead ++ after)) := by
      unfold enough at hdepth ⊢
      rw [List.length_append] at hdepth ⊢
      omega
    exact h after spent depth _ _ (.refl hends) hbound _ ahead (Nat.lt_succ_self _) hopen rfl
  refine ⟨fun ts spent depth hdepth => ?_, fun ts a rest hok => ?_, fun ts e rest herror => ?_⟩
  · obtain ⟨ahead, after, -, hsame⟩ := houtcome ts
    have hruns := hsame spent depth hdepth
    generalize within spent depth ts = r at hruns
    generalize deeply within ts = r' at hruns
    cases hruns with
    | ok a taken split progress => rfl
    | error taken split located => rfl
  · obtain ⟨ahead, after, rfl, hsame⟩ := houtcome ts
    have hruns := hsame .unexpected _ (Nat.le_refl _)
    rw [hok] at hruns
    generalize within .unexpected _ _ = r at hruns
    cases hruns with
    | ok a taken split progress =>
      cases taken with
      | nil => cases progress
      | cons t taken =>
        refine ⟨t, taken, ?_⟩
        rw [split, List.append_assoc, List.cons_append]
  · obtain ⟨ahead, after, rfl, hsame⟩ := houtcome ts
    have hruns := hsame .unexpected _ (Nat.le_refl _)
    rw [herror] at hruns
    generalize within .unexpected _ _ = r at hruns
    cases hruns with
    | error taken split located =>
      refine ⟨taken, ?_, located⟩
      rw [split, List.append_assoc]

/-- Every parser that is called from outside ends on all tokens, leaves a suffix of them, takes at
least one when it succeeds, and otherwise points to the first token left, or to an equals sign it
has taken. -/
theorem parsers_stop_in_order :
    Orderly statement Within.statement ∧ Orderly block Within.block ∧
    Orderly expression Within.expression ∧
    (∀ level, Orderly (operation level) fun spent depth => Within.operation spent depth level) ∧
    Orderly operand Within.operand ∧ Orderly primary Within.primary := by
  refine ⟨orderly_of_alike ?_, orderly_of_alike ?_, orderly_of_alike ?_,
    fun level => orderly_of_alike ?_, orderly_of_alike ?_, orderly_of_alike ?_⟩
  · intro after spent depth depth' n h hn
    exact (statementsAlike h depth depth').statement n (by omega)
  · intro after spent depth depth' n h hn
    exact (statementsAlike h depth depth').block n (by omega)
  · intro after spent depth depth' n h hn
    exact (expressionsAlike h depth depth').expression n (by omega)
  · intro after spent depth depth' n h hn
    exact (expressionsAlike h depth depth').operation level n (by omega)
  · intro after spent depth depth' n h hn
    exact (expressionsAlike h depth depth').operand n (by omega)
  · intro after spent depth depth' n h hn
    exact (expressionsAlike h depth depth').primary n (by omega)

/-- A text is no target, which is found out behind the value and said of the equals sign. -/
theorem parsers_stop_in_order_target :
    let text : Token := ⟨.string "a", "'a'", 1⟩
    let equals : Token := ⟨.symbol .equals, "=", 2⟩
    let semicolon : Token := ⟨.symbol .semicolon, ";", 3⟩
    let ts := [text, equals, text, semicolon]
    statement ts = .error (.invalidTarget 2) [semicolon] ∧
      ∃ taken, ts = taken ++ [semicolon] ∧ Located taken [semicolon] (.invalidTarget 2) := by
  intro text equals semicolon ts
  have herror : statement ts = .error (.invalidTarget 2) [semicolon] := rfl
  exact ⟨herror, parsers_stop_in_order.1.error ts _ _ herror⟩

/-- Statements are read alike up to the place that is never passed, however much stands behind. -/
theorem statementsUntil_sameOutcome {after after' ahead : List Token} (h : Barred after after')
    (hopen : ∀ t ∈ ahead, ¬ EndsProgram t.kind) (stop : TokenKind) :
    SameOutcome after after' 0 ahead (statementsUntil stop (ahead ++ after))
      (statementsUntil stop (ahead ++ after')) := by
  have hbound : 8 * (ahead.length + 1) ≤
      min (enough (ahead ++ after)) (enough (ahead ++ after')) + 2 := by
    unfold enough
    rw [List.length_append, List.length_append]
    omega
  exact (statementsAlike h _ _).statements stop [] _ hbound _ ahead (Nat.lt_succ_self _) hopen rfl

theorem ofTokens_barred {after after' ahead : List Token} (h : Barred after after')
    (hopen : ∀ t ∈ ahead, ¬ EndsProgram t.kind) :
    Program.ofTokens (ahead ++ after) = Program.ofTokens (ahead ++ after') := by
  rw [Program.ofTokens, Program.ofTokens, program]
  by_cases hstart : kindOf (ahead ++ after) = .keyword .programStart
  · obtain ⟨t, rest, rfl, ht⟩ := h.exists_cons hstart (by simp [EndsProgram])
    have hrest := statementsUntil_sameOutcome h (fun u hu => hopen u (List.mem_cons_of_mem t hu))
      (.keyword .programEnd)
    rw [List.cons_append, List.cons_append, bind_apply_ok (accept_cons ht _),
      bind_apply_ok (accept_cons ht _), if_pos rfl]
    generalize hleft : statementsUntil _ (rest ++ after) = r at hrest
    generalize hright : statementsUntil _ (rest ++ after') = r' at hrest
    cases hrest with
    | @ok body taken left split progress =>
      rw [bind_apply_ok hleft, bind_apply_ok hright, kind_bind, kind_bind, h.kindOf_append]
      by_cases hend : kindOf (left ++ after) = .keyword .programEnd
      · rw [if_pos hend]
        rfl
      · rw [if_neg hend, line_bind, line_bind, h.lineOf_append]
        rfl
    | error taken split located => rw [bind_apply_error hleft, bind_apply_error hright]
  · have hstart' : kindOf (ahead ++ after') ≠ .keyword .programStart := by
      rw [h.kindOf_append]
      exact hstart
    rw [bind_apply_ok (accept_of_ne hstart), bind_apply_ok (accept_of_ne hstart'),
      if_neg Bool.false_ne_true, line_bind, line_bind, h.lineOf_append]
    rfl

/-- Tokens that coincide up to and including an end marker or an end of input, the first of them or
any other, make the same program or the same error. -/
theorem end_hides_the_rest (ahead : List Token) (stop : Token)
    (hstop : stop.kind = .keyword .programEnd ∨ stop.kind = .endOfInput)
    (after after' : List Token) :
    Program.ofTokens (ahead ++ stop :: after) = Program.ofTokens (ahead ++ stop :: after') := by
  obtain ⟨pre, post, hsplit, hopen, hends⟩ := exists_barrier (ahead ++ [stop])
  have hafter : ∀ rest, ahead ++ stop :: rest = pre ++ (post ++ rest) := by
    intro rest
    rw [← List.append_assoc, ← hsplit, List.append_assoc]
    rfl
  cases post with
  | nil =>
    have hmem : stop ∈ pre := by
      rw [List.append_nil] at hsplit
      rw [← hsplit]
      exact List.mem_append_right ahead List.mem_cons_self
    exact absurd hstop (hopen stop hmem)
  | cons t post =>
    rw [hafter, hafter]
    exact ofTokens_barred ⟨hends, rfl, rfl⟩ hopen

/-- A block that is still open at the end marker is an error there, whether it is closed behind the
marker or not. -/
theorem end_hides_the_rest_of_block :
    let start : Token := ⟨.keyword .programStart, "ও কাকা", 1⟩
    let opening : Token := ⟨.symbol .openBrace, "\x7b", 1⟩
    let stop : Token := ⟨.keyword .programEnd, "আসি কাকা", 2⟩
    let closing : Token := ⟨.symbol .closeBrace, "\x7d", 3⟩
    Program.ofTokens [start, opening, stop, closing, stop] =
        Program.ofTokens [start, opening, stop] ∧
      Program.ofTokens [start, opening, stop] = .error (.unexpected (.keyword .programEnd) 2) := by
  intro start opening stop closing
  exact ⟨end_hides_the_rest [start, opening] stop (.inl rfl) [closing, stop] [], rfl⟩

end KakaLang.Parser
