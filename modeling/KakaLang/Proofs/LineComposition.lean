import KakaLang.Proofs.Pieces

/-!
Scanning line by line. Before a new line every piece of a text is read as it is at the end of the
text, a quoted text without its closing quote apart: a new line is part of no word, numeral or
comment, it extends no symbol, and a phrase may end before it as it may end with the text. A text
that is followed by a new line and more text therefore scans to its own tokens and then to those of
the rest, which only come on later lines.
-/

namespace KakaLang

/-- The token of a quoted text without its closing quote. -/
def Token.IsUnclosed (t : Token) : Prop :=
  ∃ content quote, t.kind = .string content ∧ t.lexeme.toList = quote :: content.toList

/-- The same token some lines below. -/
def Token.lower (lines : Nat) (t : Token) : Token := { t with line := t.line + lines }

def UnknownCharacter.lower (lines : Nat) (e : UnknownCharacter) : UnknownCharacter :=
  { e with line := e.line + lines }

namespace Scan

/-- The result of scanning a text that stands some lines below the tokens before it. -/
def below (before : List Token) (lines : Nat) :
    Except UnknownCharacter (List Token) → Except UnknownCharacter (List Token)
  | .ok tokens => .ok (before ++ tokens.map (·.lower lines))
  | .error e => .error (e.lower lines)

/-- A phrase may end before a new line as it may end with the text. -/
theorem word_newLine (c : Char) (rest more : List Char) :
    word c (rest ++ '\n' :: more) = word c rest := by
  have hpart : isWordPart '\n' = false := by decide
  have hspace : '\n' ≠ ' ' := by decide
  rcases word_append hpart hspace c rest more with hsame | ⟨-, hends⟩
  · exact hsame.symm
  · simp [endsPhrase, Text.isBlank] at hends

theorem piece?_slash_newLine (rest more : List Char) :
    piece? '/' (rest ++ '\n' :: more) = piece? '/' rest := by
  rw [piece?_slash, piece?_slash, takeWhile_append_stop (by decide)]
  cases rest with
  | nil => simp
  | cons d rest => rfl

/-- A piece is read before a new line as at the end of the text, unless it is a quoted text that is
not closed. -/
theorem piece?_newLine (c : Char) (rest more : List Char) :
    piece? c (rest ++ '\n' :: more) = piece? c rest ∨
      piece? c rest = some ⟨some (.string (String.ofList rest)), rest.length⟩ := by
  have of_quoted : ∀ quote, some (quoted quote (rest ++ '\n' :: more)) = some (quoted quote rest) ∨
      some (quoted quote rest) = some ⟨some (.string (String.ofList rest)), rest.length⟩ := by
    intro quote
    by_cases hclosed : quote ∈ rest
    · exact .inl (congrArg some (quoted_append hclosed _).symm)
    · exact .inr (congrArg some (quoted_of_notMem hclosed))
  by_cases hslash : c = '/'
  · subst hslash
    exact .inl (piece?_slash_newLine rest more)
  unfold piece?
  split
  · left
    rw [takeWhile_append_stop (by decide)]
  split
  · exact .inl (congrArg some (word_newLine c rest more))
  split
  · exact .inl rfl
  split
  · exact of_quoted '"'
  · exact of_quoted '\''
  · exact absurd rfl hslash
  all_goals first
    | exact .inl rfl
    | exact .inl (congrArg some (extendable_append (by decide) _ _ rest more).symm)

/-- A scan takes one piece after the other. -/
theorem scanFrom_piece {c : Char} {rest : List Char} {piece : Piece}
    (h : piece? c rest = some piece) (line : Nat) (found : List Token) :
    Token.scanFrom line (c :: rest) found =
      Token.scanFrom (line + (c :: rest.take piece.extra).count '\n') (rest.drop piece.extra)
        ((piece.kind.map fun kind =>
          ⟨kind, String.ofList (c :: rest.take piece.extra), line⟩).toList ++ found) := by
  rw [Token.scanFrom, h]
  cases hkind : piece.kind <;> simp [hkind]

/-- What is read as one piece gives its token, if it has one, after the tokens found before. -/
theorem Reads.scanFrom {kind : Option TokenKind} {text after : List Char}
    (h : Reads kind text after) (line : Nat) (found : List Token) :
    Token.scanFrom line (text ++ after) found =
      Token.scanFrom (line + text.count '\n') after
        ((kind.map fun kind => ⟨kind, String.ofList text, line⟩).toList ++ found) := by
  obtain ⟨c, cs, rfl, hpiece⟩ := h
  rw [List.cons_append, scanFrom_piece hpiece, List.take_left, List.drop_left]

theorem piece?_extra_le {c : Char} {rest : List Char} {piece : Piece}
    (h : piece? c rest = some piece) : piece.extra ≤ rest.length := by
  obtain ⟨cs, after, rfl, hextra, -⟩ := piece?_taken h
  rw [hextra, List.length_append]
  exact Nat.le_add_right _ _

/-- The same piece is taken from a text that goes on with a new line, and the rest is scanned with
the new line after it. -/
theorem scanFrom_newLine_piece {c : Char} {rest more : List Char} {piece : Piece}
    (h : piece? c rest = some piece)
    (hsame : piece? c (rest ++ '\n' :: more) = piece? c rest) (line : Nat) (found : List Token) :
    Token.scanFrom line (c :: rest ++ '\n' :: more) found =
      Token.scanFrom (line + (c :: rest.take piece.extra).count '\n')
        (rest.drop piece.extra ++ '\n' :: more)
        ((piece.kind.map fun kind =>
          ⟨kind, String.ofList (c :: rest.take piece.extra), line⟩).toList ++ found) := by
  have hextra := piece?_extra_le h
  rw [List.cons_append, scanFrom_piece (hsame.trans h), List.take_append_of_le_length hextra,
    List.drop_append_of_le_length hextra]

theorem count_take_drop (c x : Char) (rest : List Char) (n : Nat) :
    (c :: rest).count x = (c :: rest.take n).count x + (rest.drop n).count x := by
  rw [← List.count_append, List.cons_append, List.take_append_drop]

/-- Induction along a scan, one piece after the other. -/
theorem scanFrom_induction {motive : Nat → List Char → List Token → Prop}
    (done : ∀ line found, motive line [] found)
    (unknown : ∀ line found c rest, piece? c rest = none → motive line (c :: rest) found)
    (taken : ∀ line found c rest piece, piece? c rest = some piece →
      motive (line + (c :: rest.take piece.extra).count '\n') (rest.drop piece.extra)
        ((piece.kind.map fun kind =>
          ⟨kind, String.ofList (c :: rest.take piece.extra), line⟩).toList ++ found) →
      motive line (c :: rest) found)
    (line : Nat) (text : List Char) (found : List Token) : motive line text found := by
  induction line, text, found using Token.scanFrom.induct with
  | case1 line found => exact done line found
  | case2 line found c rest hpiece => exact unknown line found c rest hpiece
  | case3 line found c rest piece hpiece lexeme next hkind ih =>
    apply taken line found c rest piece hpiece
    rw [hkind]
    exact ih
  | case4 line found c rest piece hpiece lexeme next kind hkind ih =>
    apply taken line found c rest piece hpiece
    rw [hkind]
    exact ih

/-- A text that scans ends with the end of input, on the line after all its new lines. If no quoted
text is left open, what follows a new line is scanned after the tokens before that. -/
theorem scanFrom_newLine_ok {line : Nat} {text : List Char} {found tokens : List Token}
    (h : Token.scanFrom line text found = .ok tokens) :
    ∃ before last, tokens = before ++ [⟨.endOfInput, "", last⟩] ∧
      last = line + text.count '\n' ∧
      ((∀ t ∈ before.getLast?, ¬ t.IsUnclosed) → ∀ more,
        Token.scanFrom line (text ++ '\n' :: more) found =
          Token.scanFrom (last + 1) more before.reverse) := by
  induction line, text, found using scanFrom_induction with
  | done line found =>
    rw [Token.scanFrom] at h
    cases h
    refine ⟨found.reverse, line, List.reverse_cons, rfl, fun _ more => ?_⟩
    have hpiece : piece? '\n' more = some ⟨none, 0⟩ := rfl
    rw [List.nil_append, scanFrom_piece hpiece, List.reverse_reverse]
    rfl
  | unknown line found c rest hpiece =>
    rw [Token.scanFrom, hpiece] at h
    cases h
  | taken line found c rest piece hpiece ih =>
    rw [scanFrom_piece hpiece] at h
    obtain ⟨before, last, htokens, hlast, hmore⟩ := ih h
    refine ⟨before, last, htokens, ?_, fun hclosed more => ?_⟩
    · rw [hlast, count_take_drop c '\n' rest piece.extra, ← Nat.add_assoc]
    · rcases piece?_newLine c rest more with hsame | hopen
      · rw [scanFrom_newLine_piece hpiece hsame]
        exact hmore hclosed more
      · -- The open text is the last token, against the assumption.
        rw [hpiece] at hopen
        cases hopen
        rw [List.drop_length, Token.scanFrom, List.take_length] at h
        cases h
        rw [List.reverse_cons] at htokens
        have hbefore := List.append_inj_left' htokens rfl
        refine absurd ?_
          (hclosed ⟨.string (String.ofList rest), String.ofList (c :: rest), line⟩ ?_)
        · exact ⟨String.ofList rest, c, rfl, by simp⟩
        · rw [← hbefore]
          simp

/-- A scan that fails stops before anything that follows the text. -/
theorem scanFrom_newLine_error {line : Nat} {text : List Char} {found : List Token}
    {e : UnknownCharacter} (h : Token.scanFrom line text found = .error e) (more : List Char) :
    Token.scanFrom line (text ++ '\n' :: more) found = .error e := by
  induction line, text, found using scanFrom_induction with
  | done line found =>
    rw [Token.scanFrom] at h
    cases h
  | unknown line found c rest hpiece =>
    rw [Token.scanFrom, hpiece] at h
    cases h
    have hnone : piece? c (rest ++ '\n' :: more) = none :=
      piece?_eq_none_iff.mpr (piece?_eq_none_iff.mp hpiece)
    rw [List.cons_append, Token.scanFrom, hnone]
  | taken line found c rest piece hpiece ih =>
    rw [scanFrom_piece hpiece] at h
    rcases piece?_newLine c rest more with hsame | hopen
    · rw [scanFrom_newLine_piece hpiece hsame]
      exact ih h
    · -- An open text takes all that is left, and then nothing can fail.
      rw [hpiece] at hopen
      cases hopen
      rw [List.drop_length, Token.scanFrom] at h
      cases h

/-- A scan that starts some lines below after other tokens has the same result there. -/
theorem scanFrom_below (lines : Nat) (before : List Token) (line : Nat) (text : List Char)
    (found : List Token) :
    Token.scanFrom (line + lines) text (found.map (·.lower lines) ++ before) =
      below before.reverse lines (Token.scanFrom line text found) := by
  induction line, text, found using scanFrom_induction with
  | done line found =>
    rw [Token.scanFrom, Token.scanFrom, below]
    simp [Token.lower]
  | unknown line found c rest hpiece =>
    rw [Token.scanFrom, Token.scanFrom, hpiece]
    rfl
  | taken line found c rest piece hpiece ih =>
    rw [scanFrom_piece hpiece, scanFrom_piece hpiece, Nat.add_right_comm, ← ih]
    cases piece.kind <;> rfl

/-- A text with a new line and another text after it scans to the tokens of the first without its
end of input and those of the second, as many lines below as the first has, unless the first ends in
a quoted text that is not closed. It fails where the second fails, and as the first does if that one
fails. -/
theorem scan_line_by_line (a b : String) :
    (∀ tokens, Token.scan a = .ok tokens →
      ∃ before line, tokens = before ++ [⟨.endOfInput, "", line⟩] ∧
        ((∀ t ∈ before.getLast?, ¬ t.IsUnclosed) →
          Token.scan (a ++ "\n" ++ b) =
            below before (1 + a.toList.count '\n') (Token.scan b))) ∧
    ∀ e, Token.scan a = .error e → Token.scan (a ++ "\n" ++ b) = .error e := by
  have htext : (a ++ "\n" ++ b).toList = a.toList ++ '\n' :: b.toList := by simp
  refine ⟨fun tokens h => ?_, fun e h => ?_⟩
  · obtain ⟨before, last, htokens, hlast, hmore⟩ := scanFrom_newLine_ok h
    refine ⟨before, last, htokens, fun hclosed => ?_⟩
    have hbelow := scanFrom_below (1 + a.toList.count '\n') before.reverse 1 b.toList []
    rw [List.map_nil, List.nil_append, List.reverse_reverse] at hbelow
    rw [Token.scan, htext, hmore hclosed, hlast, Nat.add_comm (1 + _) 1]
    exact hbelow
  · rw [Token.scan, htext]
    exact scanFrom_newLine_error h b.toList

theorem scan_of_toOption {source : String} {tokens : List Token}
    (h : (Token.scan source).toOption = some tokens) : Token.scan source = .ok tokens := by
  cases hscan : Token.scan source with
  | ok found =>
    rw [hscan] at h
    cases h
    rfl
  | error e =>
    rw [hscan] at h
    cases h

/-- A phrase, a closed text over two lines and a comment, and then a text that is not closed. -/
theorem scan_line_by_line_comment :
    let a := "কাকা বলো 'p\nq' // r"
    let b := "ঠিক \"s"
    let before : List Token :=
      [⟨.keyword .print, "কাকা বলো", 1⟩, ⟨.string "p\nq", "'p\nq'", 1⟩]
    Token.scan a = .ok (before ++ [⟨.endOfInput, "", 2⟩]) ∧
      (∀ t ∈ before.getLast?, ¬ t.IsUnclosed) ∧
      Token.scan (a ++ "\n" ++ b) = .ok (before ++
        [⟨.keyword .trueWord, "ঠিক", 3⟩, ⟨.string "s", "\"s", 3⟩, ⟨.endOfInput, "", 3⟩]) := by
  intro a b before
  have ha : Token.scan a = .ok (before ++ [⟨.endOfInput, "", 2⟩]) :=
    scan_of_toOption (by decide +kernel)
  have hb : Token.scan b =
      .ok [⟨.keyword .trueWord, "ঠিক", 1⟩, ⟨.string "s", "\"s", 1⟩, ⟨.endOfInput, "", 1⟩] :=
    scan_of_toOption (by decide +kernel)
  have hclosed : ∀ t ∈ before.getLast?, ¬ t.IsUnclosed := by
    rintro t ht ⟨content, quote, hkind, hlexeme⟩
    cases ht
    cases hkind
    simp at hlexeme
  have hlines : 1 + a.toList.count '\n' = 2 := by decide +kernel
  obtain ⟨before', line, htokens, hmore⟩ := (scan_line_by_line a b).1 _ ha
  cases List.append_inj_left' htokens rfl
  refine ⟨ha, hclosed, ?_⟩
  rw [hmore hclosed, hb, hlines]
  rfl

end Scan

end KakaLang
