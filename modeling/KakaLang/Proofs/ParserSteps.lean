import KakaLang.Syntax.Parser

/-!
Single steps of a parser. A step that looks at the next token changes nothing, and a step that takes
one takes it off the front of the list. What a successful sequence of steps did is found by taking
it apart from the left.
-/

namespace KakaLang.Parser

variable {α β : Type}

theorem kind_bind (f : TokenKind → Parser α) (ts : List Token) :
    (kind >>= f) ts = f (kindOf ts) ts := rfl

theorem line_bind (f : Nat → Parser α) (ts : List Token) :
    (line >>= f) ts = f (lineOf ts) ts := rfl

theorem advance_bind (f : Unit → Parser α) (ts : List Token) :
    (advance >>= f) ts = f () ts.tail := rfl

theorem bind_apply_ok {x : Parser α} {a : α} {ts rest : List Token} (h : x ts = .ok a rest)
    (f : α → Parser β) : (x >>= f) ts = f a rest := by
  change EStateM.bind x f ts = f a rest
  simp only [EStateM.bind, h]

theorem bind_apply_error {x : Parser α} {e : SyntaxError} {ts rest : List Token}
    (h : x ts = .error e rest) (f : α → Parser β) : (x >>= f) ts = .error e rest := by
  change EStateM.bind x f ts = .error e rest
  simp only [EStateM.bind, h]

theorem bind_eq_ok {x : Parser α} {f : α → Parser β} {b : β} {ts rest : List Token} :
    (x >>= f) ts = .ok b rest ↔ ∃ a mid, x ts = .ok a mid ∧ f a mid = .ok b rest := by
  change EStateM.bind x f ts = .ok b rest ↔ _
  unfold EStateM.bind
  constructor
  · intro h
    split at h
    · exact ⟨_, _, ‹_›, h⟩
    · cases h
  · rintro ⟨a, mid, hx, hf⟩
    simp only [hx, hf]

theorem pure_ok {a b : α} {ts rest : List Token} (h : (pure a : Parser α) ts = .ok b rest) :
    a = b ∧ ts = rest := by
  cases h
  exact ⟨rfl, rfl⟩

/-- Past the last token there is only the end of input. -/
theorem exists_of_kindOf {ts : List Token} {k : TokenKind} (h : kindOf ts = k)
    (hk : k ≠ .endOfInput) : ∃ t rest, ts = t :: rest ∧ t.kind = k := by
  cases ts with
  | nil => exact absurd h.symm hk
  | cons t rest => exact ⟨t, rest, rfl, h⟩

theorem expect_cons {s : Symbol} {t : Token} (h : t.kind = .symbol s) (rest : List Token) :
    expect s (t :: rest) = .ok t.line rest := by
  rw [expect, kind_bind, if_pos (show kindOf (t :: rest) = .symbol s from h)]
  rfl

theorem expect_bind_ok {s : Symbol} {f : Nat → Parser α} {a : α} {ts rest : List Token}
    (h : (expect s >>= f) ts = .ok a rest) :
    ∃ t mid, ts = t :: mid ∧ t.kind = .symbol s ∧ f t.line mid = .ok a rest := by
  obtain ⟨n, mid, hexpect, hf⟩ := bind_eq_ok.mp h
  rw [expect, kind_bind] at hexpect
  split at hexpect
  · rename_i hkind
    obtain ⟨t, tail, rfl, ht⟩ := exists_of_kindOf hkind (by simp)
    rw [line_bind, advance_bind] at hexpect
    obtain ⟨rfl, rfl⟩ := pure_ok hexpect
    exact ⟨t, tail, rfl, ht, hf⟩
  · cases hexpect

theorem accept_cons {k : TokenKind} {t : Token} (h : t.kind = k) (rest : List Token) :
    accept k (t :: rest) = .ok true rest := by
  rw [accept, kind_bind, if_pos (show kindOf (t :: rest) = k from h)]
  rfl

theorem accept_of_ne {k : TokenKind} {ts : List Token} (h : kindOf ts ≠ k) :
    accept k ts = .ok false ts := by
  rw [accept, kind_bind, if_neg h]
  rfl

/-- Either the token was there and is taken, or it was not and nothing is. -/
theorem accept_ite_ok {k : TokenKind} {yes no : Parser α} {a : α} {ts rest : List Token}
    (hk : k ≠ .endOfInput)
    (h : (accept k >>= fun b => if b = true then yes else no) ts = .ok a rest) :
    (∃ t mid, ts = t :: mid ∧ t.kind = k ∧ yes mid = .ok a rest) ∨
      (kindOf ts ≠ k ∧ no ts = .ok a rest) := by
  by_cases hkind : kindOf ts = k
  · obtain ⟨t, mid, rfl, ht⟩ := exists_of_kindOf hkind hk
    rw [bind_apply_ok (accept_cons ht mid), if_pos rfl] at h
    exact Or.inl ⟨t, mid, rfl, ht, h⟩
  · rw [bind_apply_ok (accept_of_ne hkind), if_neg Bool.false_ne_true] at h
    exact Or.inr ⟨hkind, h⟩

theorem identifier_cons {name : String} {t : Token} (h : t.kind = .identifier name)
    (rest : List Token) : identifier (t :: rest) = .ok name rest := by
  rw [identifier, kind_bind, show kindOf (t :: rest) = .identifier name from h]
  rfl

theorem identifier_bind_ok {f : String → Parser α} {a : α} {ts rest : List Token}
    (h : (identifier >>= f) ts = .ok a rest) :
    ∃ name t mid, ts = t :: mid ∧ t.kind = .identifier name ∧ f name mid = .ok a rest := by
  obtain ⟨name, mid, hname, hf⟩ := bind_eq_ok.mp h
  rw [identifier, kind_bind] at hname
  generalize hkind : kindOf ts = k at hname
  split at hname
  · obtain ⟨t, tail, rfl, ht⟩ := exists_of_kindOf hkind (by simp)
    rw [advance_bind] at hname
    obtain ⟨rfl, rfl⟩ := pure_ok hname
    exact ⟨_, t, tail, rfl, ht, hf⟩
  · cases hname

/-- No operator that binds at least as tightly as the level is next. -/
def NoOperator (level : Nat) (ts : List Token) : Prop :=
  ∀ op, Operator.ofKind? (kindOf ts) = some op → op.level < level

theorem NoOperator.mono {level tighter : Nat} {ts : List Token} (h : NoOperator level ts)
    (hle : level ≤ tighter) : NoOperator tighter ts := by
  intro op hop
  have hlt := h op hop
  omega

theorem operator?_bind (level : Nat) (f : Option Operator → Parser α) (ts : List Token) :
    (operator? level >>= f) ts =
      f ((Operator.ofKind? (kindOf ts)).filter (level ≤ ·.level)) ts := rfl

theorem filter_level_eq_none {level : Nat} {ts : List Token} :
    (Operator.ofKind? (kindOf ts)).filter (level ≤ ·.level) = none ↔ NoOperator level ts := by
  simp only [Option.filter_eq_none_iff, decide_eq_true_eq, Nat.not_le, NoOperator]

end KakaLang.Parser
