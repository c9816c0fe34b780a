import KakaLang.Proofs.Pieces

/-!
What a scan keeps of its text. The lexemes of the tokens and the trivia between them make up the
text, and every token carries the line on which it starts. Where the scan fails, what stands before
the character that it stops at scans by itself, and neither trivia nor a token starts with that
character.
-/

namespace KakaLang.Scan

/-- A token with the trivia that stands before it. -/
structure Segment where
  gap : List Char
  token : Token

/-- The text of the segments, one after the other. -/
def joined (segments : List Segment) : List Char :=
  segments.flatMap fun g => g.gap ++ g.token.lexeme.toList

@[simp]
theorem joined_nil : joined [] = [] := rfl

@[simp]
theorem joined_cons (g : Segment) (segments : List Segment) :
    joined (g :: segments) = g.gap ++ g.token.lexeme.toList ++ joined segments := rfl

/-- How a segment stands between the text before it, which starts on the given line, and the text
after it. Its token starts on that line plus the new lines before it. -/
structure Stands (line : Nat) (before : List Char) (g : Segment) (after : List Char) : Prop where
  passed : Passed g.gap (g.token.lexeme.toList ++ after)
  spelled : Spelled g.token.kind g.token.lexeme.toList after
  starts : g.token.line = line + (before ++ g.gap).count '\n'

/-- Every segment stands as it should in the text of all of them. -/
def Laid (line : Nat) (segments : List Segment) : Prop :=
  ∀ before g after, segments = before ++ g :: after → Stands line (joined before) g (joined after)

theorem Laid.nil {line : Nat} : Laid line [] := by
  intro before g after hsplit
  cases before <;> cases hsplit

theorem Laid.cons {line : Nat} {g : Segment} {segments : List Segment}
    (hg : Stands line [] g (joined segments))
    (h : Laid (line + (g.gap ++ g.token.lexeme.toList).count '\n') segments) :
    Laid line (g :: segments) := by
  intro before g' after hsplit
  cases before with
  | nil =>
    cases hsplit
    exact hg
  | cons g'' before =>
    cases hsplit
    obtain ⟨hpassed, hspelled, hstarts⟩ := h before g' after rfl
    refine ⟨hpassed, hspelled, ?_⟩
    rw [hstarts, joined_cons]
    simp only [List.count_append]
    omega

/-- Trivia before the first segment is part of its gap. -/
theorem Laid.widen {line : Nat} {text : List Char} {g : Segment} {segments : List Segment}
    (htext : Trivia text (joined (g :: segments)))
    (h : Laid (line + text.count '\n') (g :: segments)) :
    Laid line (⟨text ++ g.gap, g.token⟩ :: segments) := by
  intro before g' after hsplit
  cases before with
  | nil =>
    cases hsplit
    obtain ⟨hpassed, hspelled, hstarts⟩ := h [] g segments rfl
    rw [joined_cons, List.append_assoc] at htext
    refine ⟨.cons htext hpassed, hspelled, ?_⟩
    rw [hstarts]
    simp only [joined_nil, List.nil_append, List.count_append]
    omega
  | cons g'' before =>
    cases hsplit
    obtain ⟨hpassed, hspelled, hstarts⟩ := h (g :: before) g' after rfl
    refine ⟨hpassed, hspelled, ?_⟩
    rw [hstarts]
    simp only [joined_cons, List.count_append]
    omega

/-- The last token, and no other, is the end of input. -/
def EndsOnce (tokens : List Token) : Prop :=
  ∃ before last, tokens = before ++ [last] ∧ last.kind = .endOfInput ∧
    ∀ t ∈ before, t.kind ≠ .endOfInput

theorem EndsOnce.cons {t : Token} {tokens : List Token} (ht : t.kind ≠ .endOfInput)
    (h : EndsOnce tokens) : EndsOnce (t :: tokens) := by
  obtain ⟨before, last, rfl, hlast, hbefore⟩ := h
  refine ⟨t :: before, last, rfl, hlast, ?_⟩
  intro t' ht'
  rcases List.mem_cons.mp ht' with rfl | ht'
  · exact ht
  · exact hbefore t' ht'

theorem EndsOnce.exists_cons {segments : List Segment} (h : EndsOnce (segments.map (·.token))) :
    ∃ g gs, segments = g :: gs := by
  obtain ⟨before, last, heq, -⟩ := h
  cases segments with
  | nil => simp at heq
  | cons g gs => exact ⟨g, gs, rfl⟩

theorem Spelled.ne_endOfInput {kind : TokenKind} {c : Char} {cs after : List Char}
    (h : Spelled kind (c :: cs) after) : kind ≠ .endOfInput := by
  rintro rfl
  cases h.1

/-- The tokens that a scan adds stand in its text with trivia before each of them. -/
theorem scanFrom_laid {line : Nat} {text : List Char} {found tokens : List Token}
    (h : Token.scanFrom line text found = .ok tokens) :
    ∃ segments : List Segment, tokens = found.reverse ++ segments.map (·.token) ∧
      joined segments = text ∧ Laid line segments ∧ EndsOnce (segments.map (·.token)) := by
  induction line, text, found using Token.scanFrom.induct with
  | case1 line found =>
    rw [Token.scanFrom] at h
    cases h
    refine ⟨[⟨[], ⟨.endOfInput, "", line⟩⟩], List.reverse_cons, rfl, .cons ?_ .nil, ?_⟩
    · exact ⟨.nil, ⟨rfl, rfl⟩, rfl⟩
    · exact ⟨[], _, rfl, rfl, by simp⟩
  | case2 line found c rest hpiece =>
    rw [Token.scanFrom, hpiece] at h
    cases h
  | case3 line found c rest piece hpiece lexeme next hkind ih =>
    rw [Token.scanFrom, hpiece] at h
    simp only [hkind] at h
    obtain ⟨segments, htokens, hjoined, hlaid, hends⟩ := ih h
    obtain ⟨cs, after, rfl, hextra, hwritten⟩ := piece?_taken hpiece
    have hlexeme : lexeme = c :: cs := by simp only [lexeme, hextra, List.take_left]
    rw [hkind] at hwritten
    rw [hextra, List.drop_left] at hjoined
    obtain ⟨g, segments, rfl⟩ := hends.exists_cons
    refine ⟨⟨c :: cs ++ g.gap, g.token⟩ :: segments, htokens, ?_, ?_, hends⟩
    · rw [← hjoined]
      simp
    · apply Laid.widen
      · rw [hjoined]
        exact hwritten
      · rw [← hlexeme]
        exact hlaid
  | case4 line found c rest piece hpiece lexeme next kind hkind ih =>
    rw [Token.scanFrom, hpiece] at h
    simp only [hkind] at h
    obtain ⟨segments, htokens, hjoined, hlaid, hends⟩ := ih h
    obtain ⟨cs, after, rfl, hextra, hwritten⟩ := piece?_taken hpiece
    have hlexeme : lexeme = c :: cs := by simp only [lexeme, hextra, List.take_left]
    rw [hkind] at hwritten
    rw [hextra, List.drop_left] at hjoined
    refine ⟨⟨[], ⟨kind, String.ofList lexeme, line⟩⟩ :: segments, ?_, ?_, ?_, ?_⟩
    · rw [htokens, List.reverse_cons, List.append_assoc]
      rfl
    · simp [hlexeme, hjoined]
    · apply Laid.cons
      · refine ⟨.nil, ?_, rfl⟩
        rw [hjoined, String.toList_ofList, hlexeme]
        exact hwritten
      · rw [String.toList_ofList]
        exact hlaid
    · exact hends.cons hwritten.ne_endOfInput

/-- A text that starts on the given line scans up to a character that starts no piece. -/
def StopsAt (line : Nat) (text : List Char) (e : UnknownCharacter) : Prop :=
  ∃ before after, text = before ++ e.character :: after ∧ e.line = line + before.count '\n' ∧
    piece? e.character after = none ∧ ∃ kinds, Spells before kinds

theorem StopsAt.cons {line : Nat} {c : Char} {rest : List Char} {piece : Piece}
    {e : UnknownCharacter} (hpiece : piece? c rest = some piece)
    (h : StopsAt (line + (c :: rest.take piece.extra).count '\n') (rest.drop piece.extra) e) :
    StopsAt line (c :: rest) e := by
  obtain ⟨cs, left, rfl, hextra, -⟩ := piece?_taken hpiece
  obtain ⟨before, after, hleft, hline, hnone, kinds, hkinds⟩ := h
  rw [hextra, List.drop_left] at hleft
  rw [hextra, List.take_left] at hline
  subst hleft
  refine ⟨c :: cs ++ before, after, by simp, ?_, hnone, ?_⟩
  · rw [hline, List.count_append]
    omega
  · -- Without the character the piece is the same, or it is the last.
    rcases piece?_append hnone c (cs ++ before) after with hsame | ⟨kind, hall⟩
    · have hread : Reads piece.kind (c :: cs) before := by
        refine ⟨c, cs, rfl, ?_⟩
        rw [hsame, List.append_assoc, hpiece, ← hextra]
      exact ⟨_, hread.spells hkinds⟩
    · have hread : Reads kind (c :: (cs ++ before)) [] := by
        refine ⟨c, cs ++ before, rfl, ?_⟩
        rw [List.append_nil, hall]
      have hspells := hread.spells Spells.nil
      rw [List.append_nil] at hspells
      exact ⟨_, hspells⟩

theorem scanFrom_stops {line : Nat} {text : List Char} {found : List Token} {e : UnknownCharacter}
    (h : Token.scanFrom line text found = .error e) : StopsAt line text e := by
  induction line, text, found using Token.scanFrom.induct with
  | case1 line found =>
    rw [Token.scanFrom] at h
    cases h
  | case2 line found c rest hpiece =>
    rw [Token.scanFrom, hpiece] at h
    cases h
    exact ⟨[], rest, rfl, rfl, hpiece, _, Spells.nil⟩
  | case3 line found c rest piece hpiece lexeme next hkind ih =>
    rw [Token.scanFrom, hpiece] at h
    simp only [hkind] at h
    exact (ih h).cons hpiece
  | case4 line found c rest piece hpiece lexeme next kind hkind ih =>
    rw [Token.scanFrom, hpiece] at h
    simp only [hkind] at h
    exact (ih h).cons hpiece

/-- What the tokens of a source say of it: they are its text with trivia between them, each on the
line where it starts. -/
structure Faithful (source : String) (tokens : List Token) : Prop where
  endsOnce : EndsOnce tokens
  unmarked : ∀ t ∈ tokens, ∀ m, t.kind ≠ .mark m
  laid : ∃ segments : List Segment, segments.map (·.token) = tokens ∧
    joined segments = source.toList ∧ Laid 1 segments

theorem faithful_of_scan {source : String} {tokens : List Token}
    (h : Token.scan source = .ok tokens) : Faithful source tokens := by
  obtain ⟨segments, htokens, hjoined, hlaid, hends⟩ := scanFrom_laid h
  rw [List.reverse_nil, List.nil_append] at htokens
  subst htokens
  refine ⟨hends, ?_, segments, rfl, hjoined, hlaid⟩
  intro t ht m hm
  obtain ⟨g, hg, rfl⟩ := List.mem_map.mp ht
  obtain ⟨before, after, hsplit⟩ := List.append_of_mem hg
  have hspelled := (hlaid before g after hsplit).spelled
  rw [hm] at hspelled
  exact hspelled

/-- Scanning loses nothing: the tokens and the trivia between them are the text, every token has the
line it starts on, and a failure names the first character that belongs to neither, with its
line. -/
theorem scan_lossless (source : String) :
    (∀ tokens, Token.scan source = .ok tokens → Faithful source tokens) ∧
    ∀ c line, Token.scan source = .error ⟨c, line⟩ →
      ∃ before after, source.toList = before ++ c :: after ∧
        (∃ tokens, Token.scan (String.ofList before) = .ok tokens) ∧ StartsNothing c ∧
        line = 1 + before.count '\n' := by
  refine ⟨fun tokens h => faithful_of_scan h, fun c line h => ?_⟩
  obtain ⟨before, after, htext, hline, hnone, kinds, hkinds⟩ := scanFrom_stops h
  refine ⟨before, after, htext, ?_, startsNothing_of_piece? hnone, hline⟩
  obtain ⟨tokens, hscan, -⟩ := hkinds 1 []
  refine ⟨tokens, ?_⟩
  rw [Token.scan, String.toList_ofList]
  exact hscan

/-- Two words that are a phrase only without what follows them, after a text over two lines. -/
theorem scan_lossless_phrase :
    let source := "a!\n'x\ny' // c\nকাকা বলো#"
    Token.scan source = .error ⟨'#', 4⟩ ∧
      ∃ before after, source.toList = before ++ '#' :: after ∧
        (∃ tokens, Token.scan (String.ofList before) = .ok tokens) ∧ StartsNothing '#' ∧
        4 = 1 + before.count '\n' := by
  intro source
  have hfailure : (match Token.scan source with
      | .error e => some e
      | .ok _ => none) = some ⟨'#', 4⟩ := by decide +kernel
  have h : Token.scan source = .error ⟨'#', 4⟩ := by
    split at hfailure
    · rename_i e he
      cases hfailure
      exact he
    · cases hfailure
  exact ⟨h, (scan_lossless source).2 _ _ h⟩

end KakaLang.Scan
