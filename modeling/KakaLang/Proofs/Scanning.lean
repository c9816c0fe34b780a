import KakaLang.Proofs.Characters

/-!
Scanning piece by piece. A stretch of text is read as a piece when it gives the same piece before
what follows it; the lemmas here say for each class of pieces what may follow. The scanner prefers
the longest piece, so a word must not be followed by a character of a word, a numeral not by a digit
or a point, and a name not by a space and a word that would make a phrase of the two.
-/

namespace KakaLang.Scan

/-- The text scans to tokens of the given kinds, whatever line it starts on. -/
def Spells (text : List Char) (kinds : List TokenKind) : Prop :=
  ∀ (line : Nat) (found : List Token), ∃ tokens : List Token,
    Token.scanFrom line text found = .ok (found.reverse ++ tokens) ∧ tokens.map (·.kind) = kinds

theorem Spells.nil : Spells [] [.endOfInput] := by
  intro line found
  refine ⟨[⟨.endOfInput, "", line⟩], ?_, rfl⟩
  rw [Token.scanFrom, List.reverse_cons]

/-- The text is read as one piece of the given kind before what follows. -/
def Reads (kind : Option TokenKind) (text after : List Char) : Prop :=
  ∃ c cs, text = c :: cs ∧ piece? c (cs ++ after) = some ⟨kind, cs.length⟩

theorem Reads.spells {kind : Option TokenKind} {text after : List Char} {kinds : List TokenKind}
    (h : Reads kind text after) (hafter : Spells after kinds) :
    Spells (text ++ after) (kind.toList ++ kinds) := by
  obtain ⟨c, cs, rfl, hpiece⟩ := h
  intro line found
  have hdrop : (cs ++ after).drop cs.length = after := List.drop_left
  rw [List.cons_append, Token.scanFrom, hpiece]
  cases kind with
  | none =>
    simp only [hdrop]
    exact hafter _ found
  | some kind =>
    simp only [hdrop]
    obtain ⟨tokens, hscan, hkinds⟩ := hafter
      (line + (c :: (cs ++ after).take cs.length).count '\n')
      (⟨kind, String.ofList (c :: (cs ++ after).take cs.length), line⟩ :: found)
    refine ⟨⟨kind, String.ofList (c :: (cs ++ after).take cs.length), line⟩ :: tokens, ?_, ?_⟩
    · rw [hscan, List.reverse_cons, List.append_assoc]
      rfl
    · simp [hkinds]

/-- What ends a run of characters of a class. -/
def Ends (p : Char → Bool) (text : List Char) : Prop := ∀ c ∈ text.head?, p c = false

theorem takeWhile_append_of_ends {p : Char → Bool} {cs after : List Char}
    (hcs : ∀ x ∈ cs, p x = true) (hafter : Ends p after) : (cs ++ after).takeWhile p = cs := by
  rw [List.takeWhile_append_of_pos hcs]
  cases after with
  | nil => simp
  | cons c after =>
    have hc : p c = false := hafter c rfl
    simp [hc]

theorem Reads.number {c : Char} {cs after : List Char} (hc : Text.isDigit c = true)
    (hcs : ∀ x ∈ cs, isNumeralPart x = true) (hafter : Ends isNumeralPart after) :
    Reads (some (.number (String.ofList (c :: cs)))) (c :: cs) after := by
  refine ⟨c, cs, rfl, ?_⟩
  unfold piece?
  rw [if_pos hc, takeWhile_append_of_ends hcs hafter]

theorem Reads.string {quote : Char} {content after : List Char}
    (hquote : quote = '"' ∨ quote = '\'') (hcontent : quote ∉ content) :
    Reads (some (.string (String.ofList content))) (quote :: (content ++ [quote])) after := by
  refine ⟨quote, content ++ [quote], rfl, ?_⟩
  have htake : (content ++ [quote] ++ after).takeWhile (· ≠ quote) = content := by
    rw [List.append_assoc]
    apply takeWhile_append_of_ends
    · intro x hx
      simp only [decide_eq_true_eq]
      rintro rfl
      exact hcontent hx
    · intro x hx
      simp at hx
      simp [hx]
  have hpiece : quoted quote (content ++ [quote] ++ after) =
      ⟨some (.string (String.ofList content)), (content ++ [quote]).length⟩ := by
    have hshort : content.length < (content ++ [quote] ++ after).length := by
      simp only [List.length_append, List.length_cons, List.length_nil]
      omega
    rw [quoted, htake, if_pos hshort, List.length_append]
    rfl
  rcases hquote with rfl | rfl
  · exact congrArg some hpiece
  · exact congrArg some hpiece

theorem piece?_word {c : Char} (h : isWordStart c = true) (rest : List Char) :
    piece? c rest = some (word c rest) := by
  unfold piece?
  rw [if_neg (by simp [not_isDigit_of_isWordStart h]), if_pos h]

/-- A word that is a keyword by itself. -/
theorem Reads.keyword {c : Char} {cs after : List Char} {k : Keyword} (hc : isWordStart c = true)
    (hcs : ∀ x ∈ cs, isWordPart x = true) (hafter : Ends isWordPart after)
    (hk : Keyword.ofWords? [String.ofList (c :: cs)] = some k) :
    Reads (some (.keyword k)) (c :: cs) after := by
  refine ⟨c, cs, rfl, ?_⟩
  rw [piece?_word hc, word, takeWhile_append_of_ends hcs hafter, hk]

/-- A word that is neither a keyword nor the beginning of a phrase. -/
theorem Reads.name {c : Char} {cs after : List Char} (hc : isWordStart c = true)
    (hcs : ∀ x ∈ cs, isWordPart x = true) (hafter : Ends isWordPart after)
    (hname : Keyword.ofWords? [String.ofList (c :: cs)] = none)
    (hphrase : ∀ rest k, after = ' ' :: rest →
      Keyword.ofWords? [String.ofList (c :: cs), String.ofList (rest.takeWhile isWordPart)] =
        some k → endsPhrase (rest.drop (rest.takeWhile isWordPart).length) = false) :
    Reads (some (.identifier (String.ofList (c :: cs)))) (c :: cs) after := by
  refine ⟨c, cs, rfl, ?_⟩
  have hdrop : (cs ++ after).drop cs.length = after := List.drop_left
  rw [piece?_word hc, word, takeWhile_append_of_ends hcs hafter, hname, hdrop]
  dsimp only
  split
  · rename_i rest
    split
    · rename_i k hk
      rw [hphrase rest k rfl hk]
      rfl
    · rfl
  · rfl

/-- A phrase of two words. -/
theorem Reads.phrase {c : Char} {cs second after : List Char} {k : Keyword}
    (hc : isWordStart c = true) (hcs : ∀ x ∈ cs, isWordPart x = true)
    (hsecond : ∀ x ∈ second, isWordPart x = true) (hafter : Ends isWordPart after)
    (hends : endsPhrase after = true) (hfirst : Keyword.ofWords? [String.ofList (c :: cs)] = none)
    (hk : Keyword.ofWords? [String.ofList (c :: cs), String.ofList second] = some k) :
    Reads (some (.keyword k)) (c :: cs ++ ' ' :: second) after := by
  refine ⟨c, cs ++ ' ' :: second, rfl, ?_⟩
  have hspace : Ends isWordPart (' ' :: (second ++ after)) := by
    intro x hx
    cases hx
    rfl
  have hdrop : (cs ++ ' ' :: (second ++ after)).drop cs.length = ' ' :: (second ++ after) :=
    List.drop_left
  have hrest : (second ++ after).drop second.length = after := List.drop_left
  rw [List.append_assoc, List.cons_append, piece?_word hc, word,
    takeWhile_append_of_ends hcs hspace, hfirst, hdrop]
  simp only [takeWhile_append_of_ends hsecond hafter, hk, hrest, hends, if_true]
  rw [List.length_append, List.length_cons]
  congr 2
  omega

/-- A word that is no keyword by itself. -/
def IsWord (text : List Char) : Prop :=
  ∃ c cs, text = c :: cs ∧ isWordStart c = true ∧ (∀ x ∈ cs, isWordPart x = true) ∧
    Keyword.ofWords? [String.ofList text] = none

/-- What the text of a token is like, for the kinds that carry a text. -/
def WellSpelled : TokenKind → Prop
  | .identifier name => IsWord name.toList
  | .number raw => ∃ c cs, raw = String.ofList (c :: cs) ∧ Text.isDigit c = true ∧
      ∀ x ∈ cs, isNumeralPart x = true
  | .string content => '"' ∉ content.toList ∨ '\'' ∉ content.toList
  | _ => True

theorem mem_takeWhile_imp {p : Char → Bool} {text : List Char} :
    ∀ x ∈ text.takeWhile p, p x = true := by
  intro x hx
  exact List.all_eq_true.mp List.all_takeWhile x hx

theorem word_kind {c : Char} (hc : isWordStart c = true) (rest : List Char) :
    ∃ kind, (word c rest).kind = some kind ∧ WellSpelled kind := by
  rw [word]
  cases hfirst : Keyword.ofWords? [String.ofList (c :: rest.takeWhile isWordPart)] with
  | some k => exact ⟨.keyword k, rfl, trivial⟩
  | none =>
    have hname : WellSpelled (.identifier (String.ofList (c :: rest.takeWhile isWordPart))) := by
      refine ⟨c, rest.takeWhile isWordPart, String.toList_ofList, hc, mem_takeWhile_imp, ?_⟩
      rw [String.ofList_toList]
      exact hfirst
    dsimp only
    split
    · split
      · split
        · rename_i k _ _
          exact ⟨.keyword k, rfl, trivial⟩
        · exact ⟨_, rfl, hname⟩
      · exact ⟨_, rfl, hname⟩
    · exact ⟨_, rfl, hname⟩

theorem quoted_kind {quote : Char} (hquote : quote = '"' ∨ quote = '\'') (rest : List Char) :
    ∃ content, (quoted quote rest).kind = some (.string content) ∧
      ('"' ∉ content.toList ∨ '\'' ∉ content.toList) := by
  refine ⟨_, rfl, ?_⟩
  have hnot : quote ∉ rest.takeWhile (· ≠ quote) := by
    intro h
    have := mem_takeWhile_imp _ h
    simp at this
  rw [String.toList_ofList]
  rcases hquote with rfl | rfl
  · exact Or.inl hnot
  · exact Or.inr hnot

/-- What does not start with a digit, a letter or a blank is a symbol or a quoted text. -/
def IsSymbolOrText : TokenKind → Prop
  | .symbol _ => True
  | .string content => '"' ∉ content.toList ∨ '\'' ∉ content.toList
  | _ => False

theorem extendable_kind {alone extended : Option TokenKind} {rest : List Char} {kind : TokenKind}
    (halone : ∀ k ∈ alone, IsSymbolOrText k) (hextended : ∀ k ∈ extended, IsSymbolOrText k)
    (h : (extendable alone extended rest).kind = some kind) : IsSymbolOrText kind := by
  unfold extendable at h
  split at h
  · exact hextended kind h
  · exact halone kind h

/-- The kinds that start at a place are well spelled. -/
theorem piece?_kind {c : Char} {rest : List Char} {piece : Piece} {kind : TokenKind}
    (h : piece? c rest = some piece) (hkind : piece.kind = some kind) : WellSpelled kind := by
  unfold piece? at h
  by_cases hdigit : Text.isDigit c = true
  · rw [if_pos hdigit] at h
    cases h
    cases hkind
    exact ⟨c, _, rfl, hdigit, mem_takeWhile_imp⟩
  · rw [if_neg hdigit] at h
    by_cases hword : isWordStart c = true
    · rw [if_pos hword] at h
      cases h
      obtain ⟨kind', hkind', hspelled⟩ := word_kind hword rest
      cases hkind'.symm.trans hkind
      exact hspelled
    · rw [if_neg hword] at h
      by_cases hgap : Text.isGap c = true
      · rw [if_pos hgap] at h
        cases h
        cases hkind
      · rw [if_neg hgap] at h
        have hother : IsSymbolOrText kind := by
          split at h
          · cases h
            obtain ⟨content, hcontent, hquotes⟩ := quoted_kind (Or.inl rfl) rest
            cases hcontent.symm.trans hkind
            exact hquotes
          · cases h
            obtain ⟨content, hcontent, hquotes⟩ := quoted_kind (Or.inr rfl) rest
            cases hcontent.symm.trans hkind
            exact hquotes
          · split at h <;> cases h <;> cases hkind
            trivial
          all_goals cases h
          -- Only the last four symbols may be extended.
          all_goals first
            | exact extendable_kind (by simp [symbol, IsSymbolOrText])
                (by simp [symbol, IsSymbolOrText]) hkind
            | cases hkind; trivial
        cases kind with
        | symbol s => trivial
        | string content => exact hother
        | _ => exact hother.elim

/-- Every token that a scan adds is well spelled. -/
theorem scanFrom_eq_ok {line : Nat} {text : List Char} {found tokens : List Token}
    (h : Token.scanFrom line text found = .ok tokens)
    (hfound : ∀ t ∈ found, WellSpelled t.kind) : ∀ t ∈ tokens, WellSpelled t.kind := by
  induction line, text, found using Token.scanFrom.induct with
  | case1 line found =>
    rw [Token.scanFrom] at h
    cases h
    intro t ht
    rw [List.mem_reverse] at ht
    rcases List.mem_cons.mp ht with rfl | ht
    · trivial
    · exact hfound t ht
  | case2 line found c rest hpiece =>
    rw [Token.scanFrom, hpiece] at h
    cases h
  | case3 line found c rest piece hpiece lexeme next hkind ih =>
    rw [Token.scanFrom, hpiece] at h
    simp only [hkind] at h
    exact ih h hfound
  | case4 line found c rest piece hpiece lexeme next kind hkind ih =>
    rw [Token.scanFrom, hpiece] at h
    simp only [hkind] at h
    apply ih h
    intro t ht
    rcases List.mem_cons.mp ht with rfl | ht
    · exact piece?_kind hpiece hkind
    · exact hfound t ht

/-- Scanned tokens are well spelled. -/
theorem wellSpelled_of_scan {source : String} {tokens : List Token}
    (h : Token.scan source = .ok tokens) : ∀ t ∈ tokens, WellSpelled t.kind := by
  exact scanFrom_eq_ok h (by simp)

/-- A name scans alone as one identifier. -/
def IsName (text : String) : Prop :=
  ∃ tokens, Token.scan text = .ok tokens ∧ tokens.map (·.kind) = [.identifier text, .endOfInput]

theorem isName_iff {text : String} : IsName text ↔ IsWord text.toList := by
  constructor
  · rintro ⟨tokens, hscan, hkinds⟩
    obtain ⟨t, rest, rfl⟩ : ∃ t rest, tokens = t :: rest := by
      cases tokens with
      | nil => cases hkinds
      | cons t rest => exact ⟨t, rest, rfl⟩
    have hkind : t.kind = .identifier text := (List.cons.inj hkinds).1
    have hspelled := wellSpelled_of_scan hscan t (by simp)
    rw [hkind] at hspelled
    exact hspelled
  · rintro ⟨c, cs, htext, hc, hcs, hword⟩
    rw [htext] at hword
    have hread : Reads (some (.identifier (String.ofList (c :: cs)))) (c :: cs) [] :=
      Reads.name hc hcs (by simp [Ends]) hword (by simp)
    obtain ⟨tokens, hscan, hkinds⟩ := hread.spells Spells.nil 1 []
    rw [List.append_nil, ← htext] at hscan
    rw [← htext, String.ofList_toList] at hkinds
    exact ⟨tokens, hscan, hkinds⟩

end KakaLang.Scan
