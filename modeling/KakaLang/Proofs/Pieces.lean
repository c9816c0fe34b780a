import KakaLang.Proofs.Spacing

/-!
The pieces of a text. Each piece that the scanner takes is trivia or a token, written as its kind
asks and no shorter than it can be. Which characters start a piece does not depend on what follows
them, and a character that starts none changes what is read before it only in that a piece may run
to the end of the text once the character is gone.
-/

namespace KakaLang.Scan

/-- One piece of what scanning passes over, before what follows it. -/
inductive Trivia : List Char → List Char → Prop where
  | gap {c : Char} {after : List Char} (h : Text.isGap c = true) : Trivia [c] after
  | bang {after : List Char} (h : after.head? ≠ some '=') : Trivia ['!'] after
  /-- A comment runs up to the end of its line and leaves the new line to what follows. -/
  | comment {body after : List Char} (hbody : '\n' ∉ body)
      (hafter : after = [] ∨ after.head? = some '\n') : Trivia ('/' :: '/' :: body) after

/-- Pieces of trivia one after the other. -/
inductive Passed : List Char → List Char → Prop where
  | nil {after : List Char} : Passed [] after
  | cons {text rest after : List Char} (h : Trivia text (rest ++ after))
      (hrest : Passed rest after) : Passed (text ++ rest) after

/-- How a token of a kind is written before what follows it. A numeral, a word and a symbol are as
long as can be, and a text without a closing quote runs to the end. -/
def Spelled : TokenKind → List Char → List Char → Prop
  | .number raw, text, after =>
    text = raw.toList ∧ WellSpelled (.number raw) ∧ Ends isNumeralPart after
  | .string content, text, after =>
    ∃ quote ∈ ['"', '\''], quote ∉ content.toList ∧
      (text = quote :: (content.toList ++ [quote]) ∨ text = quote :: content.toList ∧ after = [])
  | .identifier name, text, after => text = name.toList ∧ IsWord text ∧ Ends isWordPart after
  | .keyword k, text, after => text = k.spelling.toList ∧ Ends isWordPart after
  | .symbol s, text, after =>
    text = s.spelling.toList ∧
      ∀ c ∈ after.head?, text ++ [c] ≠ ['/', '/'] ∧ ∀ s' : Symbol, text ++ [c] ≠ s'.spelling.toList
  | .mark _, _, _ => False
  | .endOfInput, text, after => text = [] ∧ after = []

/-- A piece is trivia or a token as its kind is spelled. -/
def Written : Option TokenKind → List Char → List Char → Prop
  | none => Trivia
  | some kind => Spelled kind

/-- A text begins with a run of characters of a class that nothing of the class follows. -/
theorem exists_run (p : Char → Bool) (text : List Char) :
    ∃ run after, text = run ++ after ∧ text.takeWhile p = run ∧ (∀ x ∈ run, p x = true) ∧
      Ends p after := by
  refine ⟨text.takeWhile p, text.dropWhile p, List.takeWhile_append_dropWhile.symm, rfl,
    mem_takeWhile_imp, ?_⟩
  intro c hc
  have hdrop := List.head?_dropWhile_not p text
  rw [Option.mem_def.mp hc] at hdrop
  simpa using hdrop

/-- A text up to a mark has none of it, and ends with the text or at the mark. -/
theorem exists_upTo (mark : Char) (text : List Char) :
    ∃ run after, text = run ++ after ∧ text.takeWhile (· ≠ mark) = run ∧ mark ∉ run ∧
      (after = [] ∨ after.head? = some mark) := by
  obtain ⟨run, after, htext, hrun, hmem, hends⟩ := exists_run (· ≠ mark) text
  refine ⟨run, after, htext, hrun, ?_, ?_⟩
  · intro hmark
    simpa using hmem mark hmark
  · cases after with
    | nil => exact Or.inl rfl
    | cons c after => exact Or.inr (congrArg some (by simpa using hends c rfl))

theorem words_of_ofWords? {words : List String} {k : Keyword}
    (h : Keyword.ofWords? words = some k) : k.words = words := by
  simpa using List.find?_some h

/-- The characters beyond its first that a piece takes, and what is left. -/
def Taken (c : Char) (rest : List Char) (piece : Piece) : Prop :=
  ∃ cs after, rest = cs ++ after ∧ piece.extra = cs.length ∧ Written piece.kind (c :: cs) after

theorem taken_number {c : Char} (hc : Text.isDigit c = true) (rest : List Char) :
    Taken c rest ⟨some (.number (String.ofList (c :: rest.takeWhile isNumeralPart))),
      (rest.takeWhile isNumeralPart).length⟩ := by
  obtain ⟨tail, after, hrest, htail, hpart, hafter⟩ := exists_run isNumeralPart rest
  rw [htail]
  exact ⟨tail, after, hrest, rfl, String.toList_ofList.symm, ⟨c, tail, rfl, hc, hpart⟩, hafter⟩

theorem taken_word {c : Char} (hc : isWordStart c = true) (rest : List Char) :
    Taken c rest (word c rest) := by
  obtain ⟨tail, after, hrest, htail, hpart, hafter⟩ := exists_run isWordPart rest
  have hdrop : rest.drop tail.length = after := by rw [hrest, List.drop_left]
  rw [word, htail, hdrop]
  cases hfirst : Keyword.ofWords? [String.ofList (c :: tail)] with
  | some k =>
    refine ⟨tail, after, hrest, rfl, ?_, hafter⟩
    rw [Keyword.spelling, words_of_ofWords? hfirst]
    simp
  | none =>
    have hname : Taken c rest ⟨some (.identifier (String.ofList (c :: tail))), tail.length⟩ :=
      ⟨tail, after, hrest, rfl, String.toList_ofList.symm, ⟨c, tail, rfl, hc, hpart, hfirst⟩,
        hafter⟩
    dsimp only
    split
    · rename_i beyond
      obtain ⟨second, last, hbeyond, hsecond, -, hlast⟩ := exists_run isWordPart beyond
      rw [hsecond]
      split
      · rename_i k hk
        split
        · refine ⟨tail ++ ' ' :: second, last, ?_, ?_, ?_, hlast⟩
          · rw [hrest, hbeyond, List.append_assoc, List.cons_append]
          · simp only [List.length_append, List.length_cons]
            omega
          · rw [Keyword.spelling, words_of_ofWords? hk]
            simp
        · exact hname
      · exact hname
    · exact hname

theorem taken_quoted {quote : Char} (hquote : quote ∈ ['"', '\'']) (rest : List Char) :
    Taken quote rest (quoted quote rest) := by
  obtain ⟨content, left, hrest, hcontent, hnot, hleft⟩ := exists_upTo quote rest
  have hlength := congrArg List.length hrest
  rw [List.length_append] at hlength
  rw [quoted, hcontent]
  rcases hleft with rfl | hleft
  · refine ⟨content, [], hrest, ?_, quote, hquote, ?_, Or.inr ⟨?_, rfl⟩⟩
    · rw [if_neg (by simp [hlength]), Nat.add_zero]
    · rwa [String.toList_ofList]
    · rw [String.toList_ofList]
  · obtain ⟨after, rfl⟩ := List.head?_eq_some_iff.mp hleft
    refine ⟨content ++ [quote], after, ?_, ?_, quote, hquote, ?_, Or.inl ?_⟩
    · rw [hrest, List.append_assoc]
      rfl
    · rw [List.length_cons] at hlength
      rw [if_pos (by omega), List.length_append]
      rfl
    · rwa [String.toList_ofList]
    · rw [String.toList_ofList]

/-- No symbol is longer than two characters, and one of two ends with an equals sign. -/
theorem spelling_cases (s : Symbol) :
    (∃ c, s.spelling.toList = [c]) ∨ ∃ c ∈ ['=', '!', '>', '<'], s.spelling.toList = [c, '='] := by
  cases s <;> simp [Symbol.spelling]

theorem spelled_single {s : Symbol} {c : Char} {after : List Char} (hs : s.spelling.toList = [c])
    (hslash : c = '/' → after.head? ≠ some '/')
    (hequals : c ∈ ['=', '!', '>', '<'] → after.head? ≠ some '=') :
    Spelled (.symbol s) [c] after := by
  refine ⟨hs.symm, fun d hd => ⟨?_, fun s' hs' => ?_⟩⟩
  · intro hcomment
    obtain ⟨rfl, rfl⟩ : c = '/' ∧ d = '/' := by simpa using hcomment
    exact hslash rfl hd
  · rcases spelling_cases s' with ⟨c', hc'⟩ | ⟨c', hmem, hc'⟩
    · simp [hc'] at hs'
    · obtain ⟨rfl, rfl⟩ : c = c' ∧ d = '=' := by simpa [hc'] using hs'
      exact hequals hmem hd

theorem spelled_double {s : Symbol} {c : Char} (hs : s.spelling.toList = [c, '='])
    (after : List Char) : Spelled (.symbol s) [c, '='] after := by
  refine ⟨hs.symm, fun d _ => ⟨by simp, fun s' hs' => ?_⟩⟩
  rcases spelling_cases s' with ⟨c', hc'⟩ | ⟨c', _, hc'⟩ <;> simp [hc'] at hs'

theorem taken_symbol {s : Symbol} {c : Char} {rest : List Char} (hs : s.spelling.toList = [c])
    (hslash : c = '/' → rest.head? ≠ some '/')
    (hequals : c ∈ ['=', '!', '>', '<'] → rest.head? ≠ some '=') : Taken c rest ⟨symbol s, 0⟩ :=
  ⟨[], rest, rfl, rfl, spelled_single hs hslash hequals⟩

theorem head?_ne {c : Char} {text : List Char} (h : ∀ after, text = c :: after → False) :
    text.head? ≠ some c := by
  intro hhead
  obtain ⟨after, rfl⟩ := List.head?_eq_some_iff.mp hhead
  exact h after rfl

theorem extendable_eq (alone extended : Option TokenKind) (rest : List Char) :
    extendable alone extended rest =
      if rest.head? = some '=' then ⟨extended, 1⟩ else ⟨alone, 0⟩ := by
  unfold extendable
  split
  · rfl
  · rename_i hrest
    rw [if_neg (head?_ne hrest)]

theorem taken_extendable {c : Char} {alone : Option TokenKind} {extended : Symbol}
    (rest : List Char) (hextended : extended.spelling.toList = [c, '='])
    (halone : rest.head? ≠ some '=' → Taken c rest ⟨alone, 0⟩) :
    Taken c rest (extendable alone (symbol extended) rest) := by
  rw [extendable_eq]
  split
  · rename_i hhead
    obtain ⟨after, rfl⟩ := List.head?_eq_some_iff.mp hhead
    exact ⟨['='], after, rfl, rfl, spelled_double hextended after⟩
  · rename_i hhead
    exact halone hhead

theorem piece?_slash (rest : List Char) :
    piece? '/' rest =
      if rest.head? = some '/' then some ⟨none, (rest.takeWhile (· ≠ '\n')).length⟩
      else some ⟨symbol .slash, 0⟩ := by
  unfold piece?
  rw [if_neg (by decide), if_neg (by decide), if_neg (by decide)]
  split
  case h_3 =>
    split
    · rfl
    · rename_i hrest
      rw [if_neg (head?_ne hrest)]
  all_goals contradiction

theorem taken_slash {rest : List Char} {piece : Piece} (h : piece? '/' rest = some piece) :
    Taken '/' rest piece := by
  rw [piece?_slash] at h
  split at h
  · rename_i hhead
    cases h
    obtain ⟨beyond, rfl⟩ := List.head?_eq_some_iff.mp hhead
    obtain ⟨body, after, hbeyond, hbody, hnot, hafter⟩ := exists_upTo '\n' beyond
    refine ⟨'/' :: body, after, by rw [hbeyond]; rfl, ?_, .comment hnot hafter⟩
    rw [List.takeWhile_cons_of_pos (by decide), hbody]
  · rename_i hhead
    cases h
    exact taken_symbol rfl (fun _ => hhead) (by simp)

/-- Every piece is trivia or a token, as it stands in the text. -/
theorem piece?_taken {c : Char} {rest : List Char} {piece : Piece}
    (h : piece? c rest = some piece) : Taken c rest piece := by
  unfold piece? at h
  split at h
  · rename_i hdigit
    cases h
    exact taken_number hdigit rest
  split at h
  · rename_i hword
    cases h
    exact taken_word hword rest
  split at h
  · rename_i hgap
    cases h
    exact ⟨[], rest, rfl, rfl, .gap hgap⟩
  split at h
  · cases h
    exact taken_quoted (by simp) rest
  · cases h
    exact taken_quoted (by simp) rest
  · exact taken_slash h
  all_goals cases h
  all_goals first
    | exact taken_symbol rfl (by simp) (by simp)
    | exact taken_extendable rest rfl fun hrest => taken_symbol rfl (by simp) (fun _ => hrest)
    | exact taken_extendable rest rfl fun hrest => ⟨[], rest, rfl, rfl, .bang hrest⟩

/-- The characters that start a token or a comment and are no digit, letter or blank. -/
def signs : List Char :=
  ['"', '\'', '/', '+', '-', '*', '%', ';', ',', '(', ')', '{', '}', '[', ']', '=', '>', '<', '!']

/-- What starts a piece is decided by its first character. -/
theorem piece?_eq_none_iff {c : Char} {rest : List Char} :
    piece? c rest = none ↔ Text.isDigit c = false ∧ isWordStart c = false ∧ Text.isGap c = false ∧
      c ∉ signs := by
  unfold piece?
  cases Text.isDigit c
  · cases isWordStart c
    · cases Text.isGap c
      · simp only [Bool.false_eq_true, if_false, true_and]
        constructor
        · intro h
          split at h
          case h_3 => split at h <;> cases h
          case h_20 =>
            simp only [signs, List.mem_cons, List.not_mem_nil, or_false, not_or]
            grind
          all_goals cases h
        · intro h
          split <;> first | rfl | (simp [signs] at h)
      · simp
    · simp
  · simp

/-- Neither trivia nor a token starts with the character. -/
def StartsNothing (c : Char) : Prop :=
  (∀ text after, ¬ Trivia (c :: text) after) ∧ ∀ kind text after, ¬ Spelled kind (c :: text) after

theorem spelling_keyword_head (k : Keyword) :
    k.spelling.toList.head?.any isWordStart = true := by
  cases k <;> decide

theorem spelling_symbol_head (s : Symbol) : s.spelling.toList.head?.any (· ∈ signs) = true := by
  cases s <;> decide

theorem startsNothing_of_piece? {c : Char} {rest : List Char} (h : piece? c rest = none) :
    StartsNothing c := by
  obtain ⟨hdigit, hword, hgap, hsign⟩ := piece?_eq_none_iff.mp h
  constructor
  · intro text after htrivia
    cases htrivia with
    | gap hc => simp [hc] at hgap
    | bang => simp [signs] at hsign
    | comment => simp [signs] at hsign
  · intro kind text after hspelled
    cases kind with
    | number raw =>
      obtain ⟨htext, ⟨d, ds, hraw, hd, -⟩, -⟩ := hspelled
      rw [hraw, String.toList_ofList] at htext
      cases htext
      simp [hd] at hdigit
    | string content =>
      obtain ⟨quote, hquote, -, htext | ⟨htext, -⟩⟩ := hspelled
      all_goals
        cases htext
        apply hsign
        simp only [List.mem_cons, List.not_mem_nil, or_false] at hquote
        rcases hquote with rfl | rfl <;> decide
    | identifier name =>
      obtain ⟨-, ⟨d, ds, htext, hd, -⟩, -⟩ := hspelled
      cases htext
      simp [hd] at hword
    | keyword k =>
      have hhead := spelling_keyword_head k
      rw [← hspelled.1] at hhead
      simp [hword] at hhead
    | symbol s =>
      have hhead := spelling_symbol_head s
      rw [← hspelled.1] at hhead
      simp [hsign] at hhead
    | mark m => exact hspelled
    | endOfInput => cases hspelled.1

/-- A run of characters of a class goes on to the end of the text or ends in any longer text where
it ends in this one. -/
theorem takeWhile_append_cases (p : Char → Bool) (text : List Char) :
    text.takeWhile p = text ∨
      (text.takeWhile p).length < text.length ∧
        ∀ more, (text ++ more).takeWhile p = text.takeWhile p := by
  induction text with
  | nil => exact Or.inl rfl
  | cons c text ih =>
    cases hc : p c with
    | false => simp [hc]
    | true =>
      rcases ih with hall | ⟨hlength, hmore⟩
      · exact Or.inl (by simp [hc, hall])
      · refine Or.inr ⟨?_, fun more => ?_⟩
        · simpa [hc] using hlength
        · simp [hc, hmore]

theorem takeWhile_append_stop {p : Char → Bool} {bad : Char} (h : p bad = false)
    (text more : List Char) : (text ++ bad :: more).takeWhile p = text.takeWhile p := by
  induction text with
  | nil => simp [h]
  | cons c text ih => cases hc : p c <;> simp [hc, ih]

/-- A character that starts nothing is part of no word, and no space or second character. -/
theorem stops_of_piece? {bad : Char} {rest : List Char} (h : piece? bad rest = none) :
    isWordPart bad = false ∧ bad ≠ ' ' ∧ bad ≠ '=' ∧ bad ≠ '/' := by
  obtain ⟨hdigit, hword, hgap, hsign⟩ := piece?_eq_none_iff.mp h
  refine ⟨?_, ?_, ?_, ?_⟩
  · rw [Text.isDigit, Bool.or_eq_false_iff, ← Bool.not_eq_true, ← Bool.not_eq_true,
      Text.isAsciiDigit_iff, Text.isBengaliDigit_iff] at hdigit
    rw [← Bool.not_eq_true, isWordStart_iff] at hword
    rw [← Bool.not_eq_true, isWordPart_iff]
    omega
  · rintro rfl
    simp [Text.isGap, Text.isBlank] at hgap
  · rintro rfl
    simp [signs] at hsign
  · rintro rfl
    simp [signs] at hsign

/-- A word that no space follows begins no phrase. -/
theorem word_of_no_space {c : Char} {rest tail : List Char}
    (htail : rest.takeWhile isWordPart = tail)
    (hfirst : Keyword.ofWords? [String.ofList (c :: tail)] = none)
    (hspace : (rest.drop tail.length).head? ≠ some ' ') :
    word c rest = ⟨some (.identifier (String.ofList (c :: tail))), tail.length⟩ := by
  rw [word, htail, hfirst]
  dsimp only
  split
  · rename_i after hafter
    rw [hafter] at hspace
    exact absurd rfl hspace
  · rfl

/-- A word alone is read as it is before a character that is part of no word and no space, or the
text ends with a phrase that may not end before the character. -/
theorem word_append {stop : Char} (hpart : isWordPart stop = false) (hspace : stop ≠ ' ') (c : Char)
    (rest more : List Char) :
    word c rest = word c (rest ++ stop :: more) ∨
      (word c rest).extra = rest.length ∧ endsPhrase (stop :: more) = false := by
  obtain ⟨tail, left, rfl, htail, -, -⟩ := exists_run isWordPart rest
  have hlonger : (tail ++ left ++ stop :: more).takeWhile isWordPart = tail := by
    rw [takeWhile_append_stop hpart, htail]
  have hdrop : (tail ++ left).drop tail.length = left := List.drop_left
  have hdropLonger : (tail ++ left ++ stop :: more).drop tail.length = left ++ stop :: more := by
    rw [List.append_assoc, List.drop_left]
  cases hfirst : Keyword.ofWords? [String.ofList (c :: tail)] with
  | some k =>
    left
    rw [word, word, htail, hlonger, hfirst]
  | none =>
    by_cases hhead : left.head? = some ' '
    · obtain ⟨after, rfl⟩ := List.head?_eq_some_iff.mp hhead
      have hsecond : (after.takeWhile isWordPart).length ≤ after.length :=
        (List.takeWhile_prefix isWordPart).length_le
      rw [word, word, htail, hlonger, hfirst, hdrop, hdropLonger]
      simp only [List.cons_append, takeWhile_append_stop hpart,
        List.drop_append_of_le_length hsecond]
      split
      · cases hbeyond : after.drop (after.takeWhile isWordPart).length with
        | nil =>
          cases hends : endsPhrase (stop :: more) with
          | true =>
            left
            rw [List.nil_append, hends]
            rfl
          | false =>
            right
            have hall := List.drop_eq_nil_iff.mp hbeyond
            simp only [endsPhrase, if_true, List.length_append, List.length_cons, and_true]
            omega
        | cons x beyond => exact Or.inl rfl
      · exact Or.inl rfl
    · left
      rw [word_of_no_space htail hfirst (by rwa [hdrop]), word_of_no_space hlonger hfirst]
      rw [hdropLonger]
      cases left with
      | nil => simpa using hspace
      | cons d left => exact hhead

/-- A quoted text that is closed does not depend on what follows it. -/
theorem quoted_append {quote : Char} {rest : List Char} (h : quote ∈ rest) (more : List Char) :
    quoted quote rest = quoted quote (rest ++ more) := by
  rcases takeWhile_append_cases (· ≠ quote) rest with hall | ⟨hlength, hmore⟩
  · rw [← hall] at h
    simpa using mem_takeWhile_imp quote h
  · have hlonger : (rest.takeWhile (· ≠ quote)).length < (rest ++ more).length := by
      rw [List.length_append]
      omega
    rw [quoted, quoted, hmore, if_pos hlength, if_pos hlonger]

/-- A quoted text that is not closed runs to the end. -/
theorem quoted_of_notMem {quote : Char} {rest : List Char} (h : quote ∉ rest) :
    quoted quote rest = ⟨some (.string (String.ofList rest)), rest.length⟩ := by
  have hall : (rest ++ []).takeWhile (· ≠ quote) = rest := by
    apply takeWhile_append_of_ends
    · intro x hx
      simp only [ne_eq, decide_eq_true_eq]
      rintro rfl
      exact h hx
    · simp [Ends]
  rw [List.append_nil] at hall
  rw [quoted, hall, if_neg (Nat.lt_irrefl _), Nat.add_zero]

theorem extendable_append {bad : Char} (h : bad ≠ '=') (alone extended : Option TokenKind)
    (rest more : List Char) :
    extendable alone extended rest = extendable alone extended (rest ++ bad :: more) := by
  rw [extendable_eq, extendable_eq]
  cases rest with
  | nil => simp [h]
  | cons d rest => rfl

theorem piece?_slash_append {bad : Char} (h : bad ≠ '/') (rest more : List Char) :
    piece? '/' rest = piece? '/' (rest ++ bad :: more) ∨
      ∃ kind, piece? '/' rest = some ⟨kind, rest.length⟩ := by
  rw [piece?_slash, piece?_slash]
  cases rest with
  | nil =>
    left
    simp [h]
  | cons d rest =>
    rw [List.cons_append, List.head?_cons, List.head?_cons]
    split
    · rcases takeWhile_append_cases (· ≠ '\n') (d :: rest) with hall | ⟨-, hmore⟩
      · exact Or.inr ⟨none, by rw [hall]⟩
      · exact Or.inl (by rw [← List.cons_append, hmore])
    · exact Or.inl rfl

/-- A text alone is read as it is before a character that starts nothing, or the piece takes all of
it: a numeral, a quoted text or a comment may go on in what follows, and a phrase may end with the
text that does not end before the character. -/
theorem piece?_append {bad : Char} {beyond : List Char} (h : piece? bad beyond = none) (c : Char)
    (rest more : List Char) :
    piece? c rest = piece? c (rest ++ bad :: more) ∨
      ∃ kind, piece? c rest = some ⟨kind, rest.length⟩ := by
  obtain ⟨hpart, hspace, hequals, hslash⟩ := stops_of_piece? h
  have of_quoted : ∀ quote, some (quoted quote rest) = some (quoted quote (rest ++ bad :: more)) ∨
      ∃ kind, some (quoted quote rest) = some ⟨kind, rest.length⟩ := by
    intro quote
    by_cases hclosed : quote ∈ rest
    · exact Or.inl (congrArg some (quoted_append hclosed _))
    · exact Or.inr ⟨_, congrArg some (quoted_of_notMem hclosed)⟩
  unfold piece?
  split
  · rcases takeWhile_append_cases isNumeralPart rest with hall | ⟨-, hmore⟩
    · exact Or.inr ⟨_, by rw [hall]⟩
    · exact Or.inl (by rw [hmore])
  split
  · rcases word_append hpart hspace c rest more with hsame | ⟨hall, -⟩
    · exact Or.inl (congrArg some hsame)
    · exact Or.inr ⟨(word c rest).kind, by rw [← hall]⟩
  split
  · exact Or.inl rfl
  split
  · exact of_quoted '"'
  · exact of_quoted '\''
  · exact piece?_slash_append hslash rest more
  all_goals first
    | exact Or.inl rfl
    | exact Or.inl (congrArg some (extendable_append hequals _ _ rest more))

end KakaLang.Scan
