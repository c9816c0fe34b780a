import KakaLang.Proofs.Alike

/-!
Depth makes no difference once there is enough of it. Every parser is alike in two runs whose depths
are both large enough for the tokens ahead, whatever the runs would answer with their depth used up.
Eight for each token is enough, and one more round of eight for the place where the tokens end: at
most six calls are made before a token is taken. The parsers differ in how many of these calls may
already have been made when they start, which is the number added to the depth below.
-/

namespace KakaLang.Parser

variable {after after' : List Token} {spent spent' : TokenKind → Nat → SyntaxError}
variable {depth depth' n : Nat}

theorem not_endsProgram_of_operator {kind : TokenKind} {op : Operator}
    (h : Operator.ofKind? kind = some op) : ¬ EndsProgram kind := by
  rintro (rfl | rfl) <;> cases h

theorem not_endsProgram_of_atom {kind : TokenKind} {line : Nat} {e : Expr}
    (h : atom? kind line = some e) : ¬ EndsProgram kind := by
  rintro (rfl | rfl) <;> cases h

/-- The value of an assignment is read before its target is refused, on the line of the equals
sign. -/
theorem AlikeAt.invalidTarget (h : Barred after after') {least more bound : Nat} {x y : Parser α}
    (hx : Alike after after' more (bound - 1) x y) :
    AlikeAt after after' (.symbol .equals) least bound
      (do
        let equalsLine ← line
        advance
        let _ ← x
        throw (.invalidTarget equalsLine) : Parser β)
      (do
        let equalsLine ← line
        advance
        let _ ← y
        throw (.invalidTarget equalsLine)) := by
  intro ahead hlength hopen hkind
  obtain ⟨t, rest, rfl, ht⟩ := h.exists_cons hkind (by simp [EndsProgram])
  rw [List.length_cons] at hlength
  have hvalue := hx _ rest (by omega) (fun u hu => hopen u (List.mem_cons_of_mem t hu)) rfl
  rw [List.cons_append, List.cons_append, Parser.line_bind, Parser.line_bind, Parser.advance_bind,
    Parser.advance_bind, List.tail_cons, List.tail_cons]
  generalize hleft : x (rest ++ after) = r at hvalue
  generalize hright : y (rest ++ after') = r' at hvalue
  cases hvalue with
  | ok a taken split progress =>
    rw [bind_apply_ok hleft, bind_apply_ok hright]
    refine .error (t :: taken) ?_ ⟨t, List.mem_cons_self, ht, rfl⟩
    rw [split, List.cons_append]
  | error taken split located =>
    rw [bind_apply_error hleft, bind_apply_error hright]
    refine .error (t :: taken) ?_ (located.append [t])
    rw [split, List.cons_append]

/-- The parsers of expressions are alike at two depths that are enough for fewer than some number of
tokens. -/
structure ExpressionsAlike (after after' : List Token)
    (spent spent' : TokenKind → Nat → SyntaxError) (depth depth' : Nat) : Prop where
  expression : ∀ n, 8 * n ≤ min depth depth' + 4 → Alike after after' 1 n
    (Within.expression spent depth) (Within.expression spent' depth')
  operation : ∀ level n, 8 * n ≤ min depth depth' + 5 → Alike after after' 1 n
    (Within.operation spent depth level) (Within.operation spent' depth' level)
  chain : ∀ level left n, 8 * n ≤ min depth depth' + 4 → Alike after after' 0 n
    (Within.chain spent depth level left) (Within.chain spent' depth' level left)
  operand : ∀ n, 8 * n ≤ min depth depth' + 6 → Alike after after' 1 n
    (Within.operand spent depth) (Within.operand spent' depth')
  suffixes : ∀ head n, 8 * n ≤ min depth depth' + 4 → Alike after after' 0 n
    (Within.suffixes spent depth head) (Within.suffixes spent' depth' head)
  primary : ∀ n, 8 * n ≤ min depth depth' + 7 → Alike after after' 1 n
    (Within.primary spent depth) (Within.primary spent' depth')
  list : ∀ closing n, 8 * n ≤ min depth depth' + 2 → Alike after after' 1 n
    (Within.list spent depth closing) (Within.list spent' depth' closing)
  items : ∀ closing found n, 8 * n ≤ min depth depth' + 3 → Alike after after' 1 n
    (Within.items spent depth closing found) (Within.items spent' depth' closing found)

/-- Where no depth is left, it was enough for no tokens only. -/
theorem Alike.of_no_depth {least slack : Nat} {x y : Parser α} (h : min depth depth' = 0)
    (hslack : slack < 8) (hn : 8 * n ≤ min depth depth' + slack) :
    Alike after after' least n x y := by
  obtain rfl : n = 0 := by omega
  exact .zero

namespace ExpressionsAlike

theorem of_no_depth (h : min depth depth' = 0) :
    ExpressionsAlike after after' spent spent' depth depth' where
  expression _ := .of_no_depth h (by decide)
  operation _ _ := .of_no_depth h (by decide)
  chain _ _ _ := .of_no_depth h (by decide)
  operand _ := .of_no_depth h (by decide)
  suffixes _ _ := .of_no_depth h (by decide)
  primary _ := .of_no_depth h (by decide)
  list _ _ := .of_no_depth h (by decide)
  items _ _ _ := .of_no_depth h (by decide)

variable (ih : ExpressionsAlike after after' spent spent' depth depth')

include ih

theorem expression_succ (h : Barred after after')
    (hn : 8 * n ≤ min (depth + 1) (depth' + 1) + 4) :
    Alike after after' 1 n (Within.expression spent (depth + 1))
      (Within.expression spent' (depth' + 1)) := by
  rw [Within.expression, Within.expression]
  apply Alike.bind (ih.operation Level.or n (by omega))
  intro target
  apply Alike.kind_bind h
  intro kind
  split
  · rename_i hkind
    subst hkind
    have hvalue := ih.expression (n - 1 - 1) (by omega)
    cases target with
    | ident name line =>
      apply AlikeAt.mono _ (Nat.zero_le 1)
      apply AlikeAt.line_bind h
      intro _
      apply AlikeAt.advance_bind h (by simp [EndsProgram])
      exact hvalue.bind fun value => .pure _
    | _ => exact AlikeAt.invalidTarget h hvalue
  · exact Alike.pure target kind

theorem operation_succ {level : Nat} (hn : 8 * n ≤ min (depth + 1) (depth' + 1) + 5) :
    Alike after after' 1 n (Within.operation spent (depth + 1) level)
      (Within.operation spent' (depth' + 1) level) := by
  rw [Within.operation, Within.operation]
  apply Alike.bind (ih.operand n (by omega))
  intro first
  exact ih.chain level first (n - 1) (by omega)

theorem chain_succ (h : Barred after after') {level : Nat} {left : Expr}
    (hn : 8 * n ≤ min (depth + 1) (depth' + 1) + 4) :
    Alike after after' 0 n (Within.chain spent (depth + 1) level left)
      (Within.chain spent' (depth' + 1) level left) := by
  rw [Within.chain, Within.chain]
  apply Alike.operator?_bind h
  · exact .pure left
  · intro kind op hop
    apply AlikeAt.mono _ (Nat.zero_le 1)
    apply AlikeAt.line_bind h
    intro line
    apply AlikeAt.advance_bind h (not_endsProgram_of_operator hop)
    apply Alike.bind (ih.operation (op.level + 1) (n - 1) (by omega))
    intro right
    exact ih.chain level _ (n - 1 - 1) (by omega)

theorem operand_succ (hn : 8 * n ≤ min (depth + 1) (depth' + 1) + 6) :
    Alike after after' 1 n (Within.operand spent (depth + 1))
      (Within.operand spent' (depth' + 1)) := by
  rw [Within.operand, Within.operand]
  apply Alike.bind (ih.primary n (by omega))
  intro head
  exact ih.suffixes head (n - 1) (by omega)

theorem suffixes_succ (h : Barred after after') {head : Expr}
    (hn : 8 * n ≤ min (depth + 1) (depth' + 1) + 4) :
    Alike after after' 0 n (Within.suffixes spent (depth + 1) head)
      (Within.suffixes spent' (depth' + 1) head) := by
  rw [Within.suffixes, Within.suffixes]
  apply Alike.kind_bind h
  intro kind
  split
  · apply AlikeAt.mono _ (Nat.zero_le 1)
    apply AlikeAt.line_bind h
    intro line
    apply AlikeAt.advance_bind h (by simp [EndsProgram])
    apply Alike.bind (ih.list .closeParen (n - 1) (by omega))
    intro arguments
    exact ih.suffixes _ (n - 1 - 1) (by omega)
  · apply AlikeAt.mono _ (Nat.zero_le 1)
    apply AlikeAt.line_bind h
    intro line
    apply AlikeAt.advance_bind h (by simp [EndsProgram])
    apply Alike.bind (ih.expression (n - 1) (by omega))
    intro property
    apply Alike.bind (.expect h .closeBracket)
    intro _
    exact ih.suffixes _ (n - 1 - 1 - 1) (by omega)
  · exact Alike.pure head kind

theorem primary_succ (h : Barred after after')
    (hn : 8 * n ≤ min (depth + 1) (depth' + 1) + 7) :
    Alike after after' 1 n (Within.primary spent (depth + 1))
      (Within.primary spent' (depth' + 1)) := by
  rw [Within.primary, Within.primary]
  apply Alike.line_bind h
  intro line
  apply Alike.kind_bind h
  intro kind
  split
  · apply AlikeAt.advance_bind h (by simp [EndsProgram])
    exact (ih.list .closeBracket (n - 1) (by omega)).bind fun _ => .pure _
  · apply AlikeAt.advance_bind h (by simp [EndsProgram])
    apply Alike.bind (ih.expression (n - 1) (by omega))
    intro inner
    exact (Alike.expect h .closeParen).bind fun _ => .pure _
  · cases hatom : atom? kind line with
    | none => exact Alike.unexpected h kind
    | some e => exact AlikeAt.advance_bind h (not_endsProgram_of_atom hatom) (.pure e)

theorem list_succ (h : Barred after after') {closing : Symbol}
    (hn : 8 * n ≤ min (depth + 1) (depth' + 1) + 2) :
    Alike after after' 1 n (Within.list spent (depth + 1) closing)
      (Within.list spent' (depth' + 1) closing) := by
  rw [Within.list, Within.list]
  apply Alike.accept_bind h (by simp [EndsProgram]) (Nat.le_refl 1)
  · exact .pure []
  · exact ih.items closing [] n (by omega)

theorem items_succ (h : Barred after after') {closing : Symbol} {found : List Expr}
    (hn : 8 * n ≤ min (depth + 1) (depth' + 1) + 3) :
    Alike after after' 1 n (Within.items spent (depth + 1) closing found)
      (Within.items spent' (depth' + 1) closing found) := by
  rw [Within.items, Within.items]
  apply Alike.bind (ih.expression n (by omega))
  intro item
  apply Alike.accept_bind h (by simp [EndsProgram]) (Nat.le_refl 1)
  · exact ih.items closing _ (n - 1 - 1) (by omega)
  · exact (Alike.expect h closing).bind fun _ => .pure _

end ExpressionsAlike

theorem expressionsAlike (h : Barred after after') : ∀ depth depth',
    ExpressionsAlike after after' spent spent' depth depth'
  | 0, _ => .of_no_depth (Nat.zero_min _)
  | _, 0 => .of_no_depth (Nat.min_zero _)
  | depth + 1, depth' + 1 =>
    have ih := expressionsAlike h depth depth'
    { expression _ hn := ih.expression_succ h hn
      operation _ _ hn := ih.operation_succ hn
      chain _ _ _ hn := ih.chain_succ h hn
      operand _ hn := ih.operand_succ hn
      suffixes _ _ hn := ih.suffixes_succ h hn
      primary _ hn := ih.primary_succ h hn
      list _ _ hn := ih.list_succ h hn
      items _ _ _ hn := ih.items_succ h hn }

theorem names_alike (h : Barred after after') {found : List String}
    (hn : 8 * n ≤ min depth depth' + 4) :
    Alike after after' 1 n (names spent depth found) (names spent' depth' found) := by
  induction depth generalizing depth' n found with
  | zero => exact .of_no_depth (Nat.zero_min depth') (by decide) hn
  | succ depth ih =>
    cases depth' with
    | zero => exact .of_no_depth (Nat.min_zero _) (by decide) hn
    | succ depth' =>
      rw [names, names]
      apply Alike.bind (.identifier h)
      intro name
      apply Alike.accept_bind h (by simp [EndsProgram]) (Nat.le_refl 1)
      · exact ih (by omega)
      · exact (Alike.expect h .closeParen).bind fun _ => .pure _

theorem condition_alike (h : Barred after after') (hn : 8 * n ≤ min depth depth' + 4) :
    Alike after after' 1 n (Within.condition spent depth) (Within.condition spent' depth') := by
  rw [Within.condition, Within.condition]
  apply Alike.bind (.expect h .openParen)
  intro _
  apply Alike.bind ((expressionsAlike h depth depth').expression (n - 1) (by omega))
  intro value
  exact (Alike.expect h .closeParen).bind fun _ => .pure _

theorem terminated_alike (h : Barred after after') (hn : 8 * n ≤ min depth depth' + 4) :
    Alike after after' 1 n (Within.terminated spent depth) (Within.terminated spent' depth') := by
  rw [Within.terminated, Within.terminated]
  apply Alike.bind ((expressionsAlike h depth depth').expression n hn)
  intro value
  exact (Alike.expect h .semicolon).bind fun _ => .pure _

/-- The parsers of statements are alike at two depths that are enough for fewer than some number of
tokens. -/
structure StatementsAlike (after after' : List Token) (spent spent' : TokenKind → Nat → SyntaxError)
    (depth depth' : Nat) : Prop where
  statement : ∀ n, 8 * n ≤ min depth depth' + 3 → Alike after after' 1 n
    (Within.statement spent depth) (Within.statement spent' depth')
  block : ∀ n, 8 * n ≤ min depth depth' + 4 → Alike after after' 1 n
    (Within.block spent depth) (Within.block spent' depth')
  statements : ∀ stop found n, 8 * n ≤ min depth depth' + 2 → Alike after after' 0 n
    (Within.statements spent depth stop found) (Within.statements spent' depth' stop found)

namespace StatementsAlike

theorem of_no_depth (h : min depth depth' = 0) :
    StatementsAlike after after' spent spent' depth depth' where
  statement _ := .of_no_depth h (by decide)
  block _ := .of_no_depth h (by decide)
  statements _ _ _ := .of_no_depth h (by decide)

variable (ih : StatementsAlike after after' spent spent' depth depth')

include ih

theorem statement_succ (h : Barred after after')
    (hn : 8 * n ≤ min (depth + 1) (depth' + 1) + 3) :
    Alike after after' 1 n (Within.statement spent (depth + 1))
      (Within.statement spent' (depth' + 1)) := by
  rw [Within.statement, Within.statement]
  apply Alike.line_bind h
  intro line
  apply Alike.kind_bind h
  intro kind
  split
  -- declaration
  · apply AlikeAt.advance_bind h (by simp [EndsProgram])
    apply Alike.bind (.identifier h)
    intro name
    apply Alike.bind (.expect h .equals)
    intro _
    exact (terminated_alike h (by omega)).bind fun _ => .pure _
  -- print
  · apply AlikeAt.advance_bind h (by simp [EndsProgram])
    exact (terminated_alike h (by omega)).bind fun _ => .pure _
  -- branch
  · apply AlikeAt.advance_bind h (by simp [EndsProgram])
    apply Alike.bind (condition_alike h (by omega))
    intro condition
    apply Alike.bind (ih.block _ (by omega))
    intro yes
    apply Alike.accept_bind h (by simp [EndsProgram]) (Nat.zero_le 1)
    · exact (ih.block _ (by omega)).bind fun _ => .pure _
    · exact .pure _
  -- loop
  · apply AlikeAt.advance_bind h (by simp [EndsProgram])
    apply Alike.bind (condition_alike h (by omega))
    intro condition
    exact (ih.block _ (by omega)).bind fun _ => .pure _
  -- block
  · exact (ih.block n (by omega)).bind (fun _ => .pure _) _
  -- break
  · apply AlikeAt.advance_bind h (by simp [EndsProgram])
    exact (Alike.expect h .semicolon).bind fun _ => .pure _
  -- continue
  · apply AlikeAt.advance_bind h (by simp [EndsProgram])
    exact (Alike.expect h .semicolon).bind fun _ => .pure _
  -- function
  · apply AlikeAt.advance_bind h (by simp [EndsProgram])
    apply Alike.bind (.identifier h)
    intro name
    apply Alike.bind (.expect h .openParen)
    intro _
    apply Alike.accept_bind h (by simp [EndsProgram]) (Nat.zero_le 1)
    · apply Alike.bind (.pure [])
      intro params
      exact (ih.block _ (by omega)).bind fun _ => .pure _
    · apply Alike.mono _ (Nat.zero_le 1)
      apply Alike.bind (names_alike h (by omega))
      intro params
      exact (ih.block _ (by omega)).bind fun _ => .pure _
  -- return
  · apply AlikeAt.advance_bind h (by simp [EndsProgram])
    apply Alike.accept_bind h (by simp [EndsProgram]) (Nat.zero_le 1)
    · exact .pure _
    · exact ((terminated_alike h (by omega)).bind fun _ => .pure _).mono (Nat.zero_le 1)
  -- expression
  · exact (terminated_alike h (by omega)).bind (fun _ => .pure _) kind

theorem block_succ (h : Barred after after') (hn : 8 * n ≤ min (depth + 1) (depth' + 1) + 4) :
    Alike after after' 1 n (Within.block spent (depth + 1))
      (Within.block spent' (depth' + 1)) := by
  rw [Within.block, Within.block]
  apply Alike.bind (.expect h .openBrace)
  intro line
  apply Alike.bind (ih.statements (.symbol .closeBrace) [] (n - 1) (by omega))
  intro body
  exact (Alike.expect h .closeBrace).bind fun _ => .pure _

theorem statements_succ (h : Barred after after') {stop : TokenKind} {found : List Statement}
    (hn : 8 * n ≤ min (depth + 1) (depth' + 1) + 2) :
    Alike after after' 0 n (Within.statements spent (depth + 1) stop found)
      (Within.statements spent' (depth' + 1) stop found) := by
  rw [Within.statements, Within.statements]
  apply Alike.kind_bind h
  intro kind
  split
  · exact Alike.pure _ kind
  · apply AlikeAt.mono _ (Nat.zero_le 1)
    exact (ih.statement n (by omega)).bind (fun s => ih.statements stop _ (n - 1) (by omega)) kind

end StatementsAlike

theorem statementsAlike (h : Barred after after') : ∀ depth depth',
    StatementsAlike after after' spent spent' depth depth'
  | 0, _ => .of_no_depth (Nat.zero_min _)
  | _, 0 => .of_no_depth (Nat.min_zero _)
  | depth + 1, depth' + 1 =>
    have ih := statementsAlike h depth depth'
    { statement _ hn := ih.statement_succ h hn
      block _ hn := ih.block_succ h hn
      statements _ _ _ hn := ih.statements_succ h hn }

end KakaLang.Parser
