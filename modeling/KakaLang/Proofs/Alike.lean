import KakaLang.Proofs.ParserSteps

/-!
Two runs of a parser side by side. They read the same tokens up to a place where the next one is an
end marker or the end of input, which no parser takes; after that their tokens may differ, and so
may their depths. The runs are alike when they have taken the same tokens and answer the same. The
relation also keeps what is known about a single run: a success has taken at least some number of
tokens, and an error points to the tokens left or to one that was taken.

How many tokens there are before that place is bounded, and the bound goes down with every token
taken. It is what the depth of a parser is measured against.
-/

namespace KakaLang.Parser

variable {α β : Type}

/-- Tokens of these kinds are never taken. -/
def EndsProgram (kind : TokenKind) : Prop := kind = .keyword .programEnd ∨ kind = .endOfInput

instance : DecidablePred EndsProgram := fun kind =>
  inferInstanceAs (Decidable (kind = .keyword .programEnd ∨ kind = .endOfInput))

/-- Where an error points. A token that is not as wanted is the first one left, or the end of input
on line zero when none is left. A target that cannot be assigned to is reported on the line of an
equals sign that was taken. -/
def Located (taken rest : List Token) : SyntaxError → Prop
  | .expected _ found line | .unexpected found line =>
    (∃ t after, rest = t :: after ∧ found = t.kind ∧ line = t.line) ∨
      (rest = [] ∧ found.display = "end of input" ∧ line = 0)
  | .invalidTarget line => ∃ t ∈ taken, t.kind = .symbol .equals ∧ t.line = line
  | .missingStart _ | .missingEnd _ => False

theorem located_expected (wanted : Wanted) (taken rest : List Token) :
    Located taken rest (.expected wanted (kindOf rest) (lineOf rest)) := by
  cases rest with
  | nil => exact .inr ⟨rfl, rfl, rfl⟩
  | cons t after => exact .inl ⟨t, after, rfl, rfl, rfl⟩

theorem located_unexpected (taken rest : List Token) :
    Located taken rest (.unexpected (kindOf rest) (lineOf rest)) := by
  cases rest with
  | nil => exact .inr ⟨rfl, rfl, rfl⟩
  | cons t after => exact .inl ⟨t, after, rfl, rfl, rfl⟩

/-- What was taken before leaves an error where it is. -/
theorem Located.append {taken rest : List Token} {e : SyntaxError} (h : Located taken rest e)
    (before : List Token) : Located (before ++ taken) rest e := by
  cases e with
  | invalidTarget line =>
    obtain ⟨t, ht, hkind⟩ := h
    exact ⟨t, List.mem_append_right before ht, hkind⟩
  | _ => exact h

/-- Tokens that start alike, with one that is never taken. -/
structure Barred (after after' : List Token) : Prop where
  ends : EndsProgram (kindOf after)
  kind : kindOf after' = kindOf after
  line : lineOf after' = lineOf after

/-- The outcome of two runs that had the same tokens ahead. -/
inductive SameOutcome (after after' : List Token) (least : Nat) (ahead : List Token) :
    EStateM.Result SyntaxError (List Token) α → EStateM.Result SyntaxError (List Token) α → Prop
  | ok (a : α) (taken : List Token) {left : List Token} (split : ahead = taken ++ left)
      (progress : least ≤ taken.length) :
      SameOutcome after after' least ahead (.ok a (left ++ after)) (.ok a (left ++ after'))
  | error {e : SyntaxError} (taken : List Token) {left : List Token} (split : ahead = taken ++ left)
      (located : Located taken (left ++ after) e) :
      SameOutcome after after' least ahead (.error e (left ++ after)) (.error e (left ++ after'))

/-- The runs have the same outcome on fewer tokens than the bound, the first of them being of the
given kind. -/
def AlikeAt (after after' : List Token) (kind : TokenKind) (least bound : Nat)
    (x y : Parser α) : Prop :=
  ∀ ahead : List Token, ahead.length < bound → (∀ t ∈ ahead, ¬ EndsProgram t.kind) →
    kindOf (ahead ++ after) = kind →
    SameOutcome after after' least ahead (x (ahead ++ after)) (y (ahead ++ after'))

def Alike (after after' : List Token) (least bound : Nat) (x y : Parser α) : Prop :=
  ∀ kind, AlikeAt after after' kind least bound x y

variable {after after' : List Token} {least bound : Nat}

namespace SameOutcome

variable {ahead : List Token} {r r' : EStateM.Result SyntaxError (List Token) α}

theorem mono {fewer : Nat} (h : SameOutcome after after' least ahead r r') (hle : fewer ≤ least) :
    SameOutcome after after' fewer ahead r r' := by
  cases h with
  | ok a taken split progress => exact .ok a taken split (Nat.le_trans hle progress)
  | error taken split located => exact .error taken split located

/-- An outcome on what is left is one on all that was ahead. -/
theorem append {left : List Token} (h : SameOutcome after after' least left r r')
    (before : List Token) :
    SameOutcome after after' (before.length + least) (before ++ left) r r' := by
  cases h with
  | ok a taken split progress =>
    refine .ok a (before ++ taken) ?_ ?_
    · rw [split, List.append_assoc]
    · rw [List.length_append]
      omega
  | error taken split located =>
    refine .error (before ++ taken) ?_ (located.append before)
    rw [split, List.append_assoc]

end SameOutcome

namespace Barred

theorem refl (h : EndsProgram (kindOf after)) : Barred after after := ⟨h, rfl, rfl⟩

theorem kindOf_append (h : Barred after after') (ahead : List Token) :
    kindOf (ahead ++ after') = kindOf (ahead ++ after) := by
  cases ahead with
  | nil => exact h.kind
  | cons t ahead => rfl

theorem lineOf_append (h : Barred after after') (ahead : List Token) :
    lineOf (ahead ++ after') = lineOf (ahead ++ after) := by
  cases ahead with
  | nil => exact h.line
  | cons t ahead => rfl

/-- A token of another kind stands before the place that is never passed. -/
theorem exists_cons (h : Barred after after') {ahead : List Token} {kind : TokenKind}
    (hkind : kindOf (ahead ++ after) = kind) (hopen : ¬ EndsProgram kind) :
    ∃ t rest, ahead = t :: rest ∧ t.kind = kind := by
  cases ahead with
  | nil =>
    rw [List.nil_append] at hkind
    rw [← hkind] at hopen
    exact absurd h.ends hopen
  | cons t rest => exact ⟨t, rest, rfl, hkind⟩

end Barred

namespace AlikeAt

variable {next : TokenKind}

theorem mono {x y : Parser α} {fewer : Nat} (h : AlikeAt after after' next least bound x y)
    (hle : fewer ≤ least) : AlikeAt after after' next fewer bound x y :=
  fun ahead hlength hopen hkind => (h ahead hlength hopen hkind).mono hle

theorem line_bind (h : Barred after after') {f g : Nat → Parser α}
    (hf : ∀ n, AlikeAt after after' next least bound (f n) (g n)) :
    AlikeAt after after' next least bound (line >>= f) (line >>= g) := by
  intro ahead hlength hopen hkind
  rw [Parser.line_bind, Parser.line_bind, h.lineOf_append]
  exact hf _ ahead hlength hopen hkind

/-- Both runs take the token that is next. -/
theorem advance_bind (h : Barred after after') {f g : Unit → Parser α}
    (hnext : ¬ EndsProgram next) (hf : Alike after after' least (bound - 1) (f ()) (g ())) :
    AlikeAt after after' next 1 bound (advance >>= f) (advance >>= g) := by
  intro ahead hlength hopen hkind
  obtain ⟨t, rest, rfl, -⟩ := h.exists_cons hkind hnext
  rw [List.length_cons] at hlength
  rw [Parser.advance_bind, Parser.advance_bind]
  have hrest := hf _ rest (by omega) (fun u hu => hopen u (List.mem_cons_of_mem t hu)) rfl
  exact (hrest.append [t]).mono (Nat.le_add_right 1 least)

end AlikeAt

namespace Alike

theorem zero {x y : Parser α} : Alike after after' least 0 x y :=
  fun _ _ hlength => absurd hlength (Nat.not_lt_zero _)

theorem mono {x y : Parser α} {fewer : Nat} (h : Alike after after' least bound x y)
    (hle : fewer ≤ least) : Alike after after' fewer bound x y :=
  fun kind => (h kind).mono hle

theorem pure (a : α) : Alike after after' 0 bound (Pure.pure a) (Pure.pure a) :=
  fun _ ahead _ _ _ => .ok a [] (List.nil_append ahead).symm (Nat.zero_le _)

/-- What comes second may count on the tokens that were taken first. -/
theorem bind {x y : Parser α} {f g : α → Parser β} {more : Nat}
    (hx : Alike after after' least bound x y)
    (hf : ∀ a, Alike after after' more (bound - least) (f a) (g a)) :
    Alike after after' least bound (x >>= f) (y >>= g) := by
  intro kind ahead hlength hopen hkind
  have hfirst := hx kind ahead hlength hopen hkind
  generalize hleft : x (ahead ++ after) = r at hfirst
  generalize hright : y (ahead ++ after') = r' at hfirst
  cases hfirst with
  | @ok a taken left split progress =>
    rw [bind_apply_ok hleft, bind_apply_ok hright]
    subst split
    rw [List.length_append] at hlength
    have hsecond := hf a _ left (by omega)
      (fun t ht => hopen t (List.mem_append_right taken ht)) rfl
    exact (hsecond.append taken).mono (Nat.le_add_right_of_le progress)
  | error taken split located =>
    rw [bind_apply_error hleft, bind_apply_error hright]
    exact .error taken split located

theorem kind_bind (h : Barred after after') {f g : TokenKind → Parser α}
    (hf : ∀ kind, AlikeAt after after' kind least bound (f kind) (g kind)) :
    Alike after after' least bound (kind >>= f) (kind >>= g) := by
  intro next ahead hlength hopen hkind
  rw [Parser.kind_bind, Parser.kind_bind, h.kindOf_append, hkind]
  exact hf next ahead hlength hopen hkind

theorem line_bind (h : Barred after after') {f g : Nat → Parser α}
    (hf : ∀ n, Alike after after' least bound (f n) (g n)) :
    Alike after after' least bound (line >>= f) (line >>= g) :=
  fun kind => AlikeAt.line_bind h fun n => hf n kind

/-- Both runs complain about the token that is next. -/
theorem reject (h : Barred after after') {e : TokenKind → Nat → SyntaxError}
    (he : ∀ rest, Located [] rest (e (kindOf rest) (lineOf rest))) :
    Alike after after' least bound (reject e : Parser α) (Parser.reject e) := by
  intro next ahead _ _ _
  unfold Parser.reject
  rw [Parser.kind_bind, Parser.line_bind, Parser.kind_bind, Parser.line_bind, h.kindOf_append,
    h.lineOf_append]
  exact .error [] (List.nil_append ahead).symm (he _)

theorem unexpected (h : Barred after after') :
    Alike after after' least bound (Parser.reject .unexpected : Parser α)
      (Parser.reject .unexpected) :=
  .reject h (located_unexpected [])

theorem expect (h : Barred after after') (s : Symbol) :
    Alike after after' 1 bound (expect s) (Parser.expect s) := by
  unfold Parser.expect
  apply kind_bind h
  intro kind
  split
  · rename_i hkind
    apply AlikeAt.line_bind h
    intro n
    apply AlikeAt.advance_bind h
    · rw [hkind]
      simp [EndsProgram]
    · exact .pure n
  · exact Alike.reject h (located_expected _ []) kind

theorem identifier (h : Barred after after') :
    Alike after after' 1 bound identifier identifier := by
  unfold Parser.identifier
  apply kind_bind h
  intro kind
  split
  · apply AlikeAt.advance_bind h
    · simp [EndsProgram]
    · exact .pure _
  · exact Alike.reject h (located_expected _ []) _

/-- Both runs take the token if it is of the given kind, or neither does. -/
theorem accept_bind (h : Barred after after') {k : TokenKind} (hk : ¬ EndsProgram k)
    {f g : Bool → Parser α} {more : Nat} (hle : least ≤ 1)
    (htaken : Alike after after' more (bound - 1) (f true) (g true))
    (hother : Alike after after' least bound (f false) (g false)) :
    Alike after after' least bound (accept k >>= f) (accept k >>= g) := by
  intro next ahead hlength hopen hkind
  by_cases heq : next = k
  · subst heq
    obtain ⟨t, rest, rfl, ht⟩ := h.exists_cons hkind hk
    rw [List.cons_append, List.cons_append, bind_apply_ok (accept_cons ht _),
      bind_apply_ok (accept_cons ht _)]
    rw [List.length_cons] at hlength
    have hrest := htaken _ rest (by omega) (fun u hu => hopen u (List.mem_cons_of_mem t hu)) rfl
    exact (hrest.append [t]).mono (Nat.le_add_right_of_le hle)
  · have hne : kindOf (ahead ++ after) ≠ k := by
      rw [hkind]
      exact heq
    have hne' : kindOf (ahead ++ after') ≠ k := by
      rw [h.kindOf_append]
      exact hne
    rw [bind_apply_ok (accept_of_ne hne), bind_apply_ok (accept_of_ne hne')]
    exact hother next ahead hlength hopen hkind

theorem operator?_bind (h : Barred after after') {level : Nat}
    {f g : Option Operator → Parser α}
    (hnone : Alike after after' least bound (f none) (g none))
    (hsome : ∀ kind op, Operator.ofKind? kind = some op →
      AlikeAt after after' kind least bound (f (some op)) (g (some op))) :
    Alike after after' least bound (operator? level >>= f) (operator? level >>= g) := by
  intro kind ahead hlength hopen hkind
  rw [Parser.operator?_bind, Parser.operator?_bind, h.kindOf_append, hkind]
  cases hop : (Operator.ofKind? kind).filter (level ≤ ·.level) with
  | none => exact hnone kind ahead hlength hopen hkind
  | some op =>
    exact hsome kind op (Option.filter_eq_some_iff.mp hop).1 ahead hlength hopen hkind

end Alike

end KakaLang.Parser
