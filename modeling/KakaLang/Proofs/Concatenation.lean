import KakaLang.Proofs.Recognition

/-!
Programs one after the other. Derivations of statements can be put together as they are, since the
tree of a statement is read off its own derivation and nothing else. An accepted body without an end
marker in it is spelled by one derivation from its first token to its last, so two such bodies with
no marker between them are accepted too, and their statements follow each other.
-/

namespace KakaLang.Grammar

/-- The statements of one derivation and then those of another. -/
def Statements.append : Statements → Statements → Statements
  | .nil, after => after
  | .cons first rest, after => .cons first (rest.append after)

theorem Statements.tokens_append : (body after : Statements) →
    (body.append after).tokens = body.tokens ++ after.tokens
  | .nil, after => rfl
  | .cons first rest, after => by
    rw [append, tokens, tokens, rest.tokens_append after, List.append_assoc]

theorem Statements.trees?_append : (body after : Statements) → {s s' : Program} →
    body.trees? = some s → after.trees? = some s' → (body.append after).trees? = some (s ++ s')
  | .nil, after, s, s', h, h' => by
    rw [trees?, Option.some.injEq] at h
    rw [append, h', ← h, List.nil_append]
  | .cons first rest, after, s, s', h, h' => by
    simp only [trees?, Option.bind_eq_bind, Option.bind_eq_some_iff, Option.pure_def,
      Option.some.injEq] at h
    obtain ⟨tree, htree, trees, htrees, rfl⟩ := h
    rw [append, trees?, htree, rest.trees?_append after htrees h']
    rfl

/-- Tokens between a start marker and an end marker. -/
def enclosed (start : Terminal (.keyword .programStart)) (stop : Terminal (.keyword .programEnd))
    (body : List Token) : List Token :=
  start.val :: (body ++ [stop.val])

section

variable {start : Terminal (.keyword .programStart)} {stop : Terminal (.keyword .programEnd)}
variable {body : List Token} {s : Program}

/-- The derivation of an accepted body ends at an end marker, the one after the body or an earlier
one. What the marker after the body is makes no difference. -/
theorem exists_derivation (h : Program.ofTokens (enclosed start stop body) = .ok s) :
    ∃ d : Statements, d.trees? = some s ∧ ∀ stop' : Terminal (.keyword .programEnd),
      ∃ (marker : Terminal (.keyword .programEnd)) (rest : List Token),
        body ++ [stop'.val] = d.tokens ++ marker.val :: rest := by
  obtain ⟨w, rest, htokens, htrees⟩ := ofTokens_eq_ok_iff.mp h
  rw [w.tokens_append] at htokens
  have hbody : body ++ [stop.val] = w.body.tokens ++ w.stop.val :: rest :=
    (List.cons.inj htokens).2
  refine ⟨w.body, htrees, fun stop' => ?_⟩
  rcases List.eq_nil_or_concat rest with rfl | ⟨between, last, rfl⟩
  · have hsame : body = w.body.tokens := List.append_inj_left' hbody rfl
    exact ⟨stop', [], by rw [hsame]⟩
  · rw [List.concat_eq_append, ← List.cons_append, ← List.append_assoc] at hbody
    have hsame : body = w.body.tokens ++ w.stop.val :: between := List.append_inj_left' hbody rfl
    exact ⟨w.stop, between ++ [stop'.val], by simp [hsame]⟩

/-- Without an end marker in it, the body is all that the derivation spells. -/
theorem exists_derivation_of_unmarked (h : Program.ofTokens (enclosed start stop body) = .ok s)
    (hbody : ∀ t ∈ body, t.kind ≠ .keyword .programEnd) :
    ∃ d : Statements, d.trees? = some s ∧ d.tokens = body := by
  obtain ⟨d, htrees, hsplit⟩ := exists_derivation h
  obtain ⟨marker, rest, hmarker⟩ := hsplit stop
  refine ⟨d, htrees, ?_⟩
  rcases List.append_eq_append_iff.mp hmarker with ⟨more, hd, hlast⟩ | ⟨more, hd, hlast⟩
  · have hmore : more = [] := by
      have hlength := congrArg List.length hlast
      simp only [List.length_append, List.length_cons, List.length_nil] at hlength
      exact List.length_eq_zero_iff.mp (by omega)
    rw [hd, hmore, List.append_nil]
  · cases more with
    | nil => rw [hd, List.append_nil]
    | cons t more =>
      -- The marker would be inside the body.
      have hmem : marker.val ∈ body := by
        rw [hd, (List.cons.inj hlast).1]
        simp
      exact absurd marker.property (hbody marker.val hmem)

end

/-- Two accepted bodies one after the other are accepted, and give the statements of the first and
then those of the second, if no end marker in the first hides the second. Which markers enclose them
makes no difference. -/
theorem programs_concatenate {start start' start'' : Terminal (.keyword .programStart)}
    {stop stop' stop'' : Terminal (.keyword .programEnd)} {body body' : List Token}
    {s s' : Program} (hbody : ∀ t ∈ body, t.kind ≠ .keyword .programEnd)
    (h : Program.ofTokens (enclosed start stop body) = .ok s)
    (h' : Program.ofTokens (enclosed start' stop' body') = .ok s') :
    Program.ofTokens (enclosed start'' stop'' (body ++ body')) = .ok (s ++ s') := by
  obtain ⟨d, htrees, rfl⟩ := exists_derivation_of_unmarked h hbody
  obtain ⟨d', htrees', hsplit⟩ := exists_derivation h'
  obtain ⟨marker, rest, hmarker⟩ := hsplit stop''
  let whole : Whole := ⟨start'', d.append d', marker⟩
  refine ofTokens_eq_ok_iff.mpr ⟨whole, rest, ?_, d.trees?_append d' htrees htrees'⟩
  rw [enclosed, List.append_assoc, hmarker, whole.tokens_append, Statements.tokens_append,
    List.append_assoc]

/-- An if statement that could take an else, and a block that is none. -/
theorem programs_concatenate_after_if :
    let start : Terminal (.keyword .programStart) := ⟨⟨.keyword .programStart, "ও কাকা", 1⟩, rfl⟩
    let stop : Terminal (.keyword .programEnd) := ⟨⟨.keyword .programEnd, "আসি কাকা", 3⟩, rfl⟩
    let braces (line : Nat) : List Token :=
      [⟨.symbol .openBrace, "\x7b", line⟩, ⟨.symbol .closeBrace, "\x7d", line⟩]
    let branch : List Token := ⟨.keyword .ifWord, "যদি কাকা", 1⟩ :: ⟨.symbol .openParen, "(", 1⟩ ::
      ⟨.identifier "x", "x", 1⟩ :: ⟨.symbol .closeParen, ")", 1⟩ :: braces 1
    let conditional : KakaLang.Statement := .branch (.ident "x" 1) (.mk [] 1) none 1
    (∀ t ∈ branch, t.kind ≠ .keyword .programEnd) ∧
      Program.ofTokens (enclosed start stop branch) = .ok [conditional] ∧
      Program.ofTokens (enclosed start stop (braces 2)) = .ok [.block (.mk [] 2)] ∧
      Program.ofTokens (enclosed start stop (branch ++ braces 2)) =
        .ok [conditional, .block (.mk [] 2)] := by
  intro start stop braces branch conditional
  have hbranch : Program.ofTokens (enclosed start stop branch) = .ok [conditional] := rfl
  have hblock : Program.ofTokens (enclosed start stop (braces 2)) = .ok [.block (.mk [] 2)] := rfl
  have hunmarked : ∀ t ∈ branch, t.kind ≠ .keyword .programEnd := by decide
  exact ⟨hunmarked, hbranch, hblock, programs_concatenate hunmarked hbranch hblock⟩

end KakaLang.Grammar
