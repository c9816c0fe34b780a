import KakaLang.Proofs.LineComposition
import KakaLang.Proofs.NumeralRoundTrip
import KakaLang.Proofs.Respelling

/-!
The script of digits. A numeral may be written with ASCII digits, Bengali digits or both, and which
of them stand where makes no difference: every class of characters that the scanner asks for holds
both digits of a value or neither, no keyword has a digit in it, and the value of a numeral is read
in one script. So a source is scanned and parsed alike after digits of its numerals have been
replaced, although names keep theirs.
-/

namespace KakaLang

namespace Text

/-- A class of characters that holds both digits of a value or neither of them. -/
def IgnoresScript (p : Char → Bool) : Prop := ∀ c, p (asciiDigit c) = p c

theorem isDigit_asciiDigit {c : Char} (h : isDigit c = true) : isDigit (asciiDigit c) = true := by
  rw [isDigit, Number.isAsciiDigit_asciiDigit h, Bool.true_or]

theorem asciiDigit_of_not_isDigit {c : Char} (h : isDigit c = false) : asciiDigit c = c := by
  rw [isDigit, Bool.or_eq_false_iff] at h
  rw [asciiDigit, h.2, if_neg Bool.false_ne_true]

/-- A class that treats all digits alike does not ask for their script. -/
theorem IgnoresScript.of_digits {p : Char → Bool} (b : Bool)
    (h : ∀ c, isDigit c = true → p c = b) : IgnoresScript p := by
  intro c
  cases hc : isDigit c with
  | true => rw [h _ (isDigit_asciiDigit hc), h c hc]
  | false => rw [asciiDigit_of_not_isDigit hc]

theorem ignoresScript_isDigit : IgnoresScript isDigit :=
  .of_digits true fun _ h => h

theorem ignoresScript_eq {d : Char} (hd : isDigit d = false) : IgnoresScript (· == d) := by
  refine .of_digits false fun c hc => beq_eq_false_iff_ne.mpr ?_
  rintro rfl
  rw [hc] at hd
  cases hd

theorem ignoresScript_ne {d : Char} (hd : isDigit d = false) : IgnoresScript (· ≠ d) := by
  intro c
  have hsame := ignoresScript_eq hd c
  simp only [ne_eq, decide_not, ← Bool.beq_eq_decide_eq, hsame]

variable {s s' : List Char}

/-- Apart from digits, characters are the same in both scripts. -/
theorem eq_of_asciiDigit_eq {c d : Char} (hd : isDigit d = false)
    (h : asciiDigit c = asciiDigit d) : c = d := by
  have hsame := ignoresScript_eq hd c
  rw [h, asciiDigit_of_not_isDigit hd] at hsame
  simpa using hsame.symm

theorem eq_of_asciiDigits_eq (hs : ∀ c ∈ s, isDigit c = false)
    (h : asciiDigits s' = asciiDigits s) : s' = s := by
  induction s generalizing s' with
  | nil => exact List.map_eq_nil_iff.mp h
  | cons d s ih =>
    obtain ⟨c, cs, rfl, hc, hcs⟩ := List.map_eq_cons_iff.mp h
    rw [eq_of_asciiDigit_eq (hs d (by simp)) hc, ih (fun x hx => hs x (by simp [hx])) hcs]

theorem IgnoresScript.apply_eq {p : Char → Bool} (hp : IgnoresScript p) {c c' : Char}
    (h : asciiDigit c' = asciiDigit c) : p c' = p c := by
  rw [← hp c', h, hp c]

theorem length_eq_of_asciiDigits (h : asciiDigits s' = asciiDigits s) :
    s'.length = s.length := by
  simpa [asciiDigits] using congrArg List.length h

theorem asciiDigits_takeWhile {p : Char → Bool} (hp : IgnoresScript p) (s : List Char) :
    asciiDigits (s.takeWhile p) = (asciiDigits s).takeWhile p := by
  have hcomp : p ∘ asciiDigit = p := funext hp
  rw [asciiDigits, asciiDigits, List.takeWhile_map, hcomp]

/-- Runs of such a class are alike in texts that are. -/
theorem asciiDigits_takeWhile_eq {p : Char → Bool} (hp : IgnoresScript p)
    (h : asciiDigits s' = asciiDigits s) :
    asciiDigits (s'.takeWhile p) = asciiDigits (s.takeWhile p) := by
  rw [asciiDigits_takeWhile hp, asciiDigits_takeWhile hp, h]

theorem asciiDigits_append_eq {after after' : List Char} (h : asciiDigits s' = asciiDigits s)
    (hafter : asciiDigits after' = asciiDigits after) :
    asciiDigits (s' ++ after') = asciiDigits (s ++ after) := by
  rw [asciiDigits, asciiDigits, List.map_append, List.map_append]
  exact congrArg₂ (· ++ ·) h hafter

theorem asciiDigits_drop_eq (h : asciiDigits s' = asciiDigits s) (n : Nat) :
    asciiDigits (s'.drop n) = asciiDigits (s.drop n) := by
  rw [asciiDigits, asciiDigits, List.map_drop, List.map_drop]
  exact congrArg (List.drop n) h

theorem head?_eq_some_iff {d : Char} (hd : isDigit d = false)
    (h : asciiDigits s' = asciiDigits s) : s'.head? = some d ↔ s.head? = some d := by
  cases s with
  | nil => rw [List.map_eq_nil_iff.mp h]
  | cons c s =>
    obtain ⟨c', cs, rfl, hc, -⟩ := List.map_eq_cons_iff.mp h
    have hsame := (ignoresScript_eq hd).apply_eq hc
    simpa using Bool.eq_iff_iff.mp hsame

theorem count_asciiDigits {d : Char} (hd : isDigit d = false) (s : List Char) :
    (asciiDigits s).count d = s.count d := by
  have hcomp : (· == d) ∘ asciiDigit = (· == d) := funext (ignoresScript_eq hd)
  rw [asciiDigits, List.count_eq_countP, List.countP_map, hcomp, List.count_eq_countP]

theorem takeWhile_eq_take (p : Char → Bool) (s : List Char) :
    s.takeWhile p = s.take (s.takeWhile p).length :=
  List.prefix_iff_eq_take.mp (List.takeWhile_prefix p)

/-- A run that lies within the part that two texts share is the same in both. -/
theorem takeWhile_eq_of_take {p : Char → Bool} (hp : IgnoresScript p)
    (h : asciiDigits s' = asciiDigits s) {n : Nat} (hn : (s.takeWhile p).length ≤ n)
    (htake : s'.take n = s.take n) : s'.takeWhile p = s.takeWhile p := by
  have hlength := length_eq_of_asciiDigits (asciiDigits_takeWhile_eq hp h)
  have hshared := congrArg (List.take (s.takeWhile p).length) htake
  rw [List.take_take, List.take_take, Nat.min_eq_left hn] at hshared
  rw [takeWhile_eq_take p s', hlength, hshared, ← takeWhile_eq_take p s]

end Text

namespace Scan

open Text

theorem ignoresScript_isNumeralPart : IgnoresScript isNumeralPart := by
  refine .of_digits true fun c hc => ?_
  rw [isNumeralPart, hc, Bool.true_or]

theorem ignoresScript_isWordPart : IgnoresScript isWordPart := by
  refine .of_digits true fun c hc => ?_
  rw [isDigit, Bool.or_eq_true, isAsciiDigit_iff, isBengaliDigit_iff] at hc
  rw [isWordPart_iff]
  omega

variable {s s' : List Char}

/-- No digit ends a phrase. -/
theorem ignoresScript_phraseEnd :
    IgnoresScript fun c => isBlank c || ['(', ')', '{', '}', ';', ','].contains c := by
  refine .of_digits false fun c hc => ?_
  have hsymbols : ∀ x ∈ ['(', ')', '{', '}', ';', ','], isDigit x = false := by
    simp [isDigit, isAsciiDigit, isBengaliDigit]
  have hblank : isBlank c = false := by
    rw [isDigit, Bool.or_eq_true, isAsciiDigit_iff, isBengaliDigit_iff] at hc
    simp only [isBlank, Bool.or_eq_false_iff, Bool.and_eq_false_iff, decide_eq_false_iff_not,
      beq_eq_false_iff_ne]
    omega
  rw [hblank, Bool.false_or, ← Bool.not_eq_true, List.contains_iff_mem]
  intro hmem
  rw [hsymbols c hmem] at hc
  cases hc

theorem endsPhrase_eq (h : asciiDigits s' = asciiDigits s) : endsPhrase s' = endsPhrase s := by
  cases s with
  | nil => rw [List.map_eq_nil_iff.mp h]
  | cons c s =>
    obtain ⟨c', cs, rfl, hc, -⟩ := List.map_eq_cons_iff.mp h
    exact ignoresScript_phraseEnd.apply_eq hc

theorem isDigit_of_mem_words {k : Keyword} {word : String} (hword : word ∈ k.words) :
    ∀ c ∈ word.toList, isDigit c = false := by
  have hall : k.words.all fun word => word.toList.all fun c => !isDigit c := by
    cases k <;> decide
  intro c hc
  have hword := List.all_eq_true.mp hall word hword
  simpa using List.all_eq_true.mp hword c hc

/-- No second word of a phrase has a digit, so the script of digits after a space makes no
difference. -/
theorem ofWords?_second_eq (first : String) (h : asciiDigits s' = asciiDigits s) :
    Keyword.ofWords? [first, String.ofList s'] = Keyword.ofWords? [first, String.ofList s] := by
  have hiff {s s' : List Char} (h : asciiDigits s' = asciiDigits s) (k : Keyword)
      (hk : k.words = [first, String.ofList s]) : k.words = [first, String.ofList s'] := by
    have hplain : ∀ c ∈ s, isDigit c = false := by
      have hmem : String.ofList s ∈ k.words := by simp [hk]
      simpa using isDigit_of_mem_words hmem
    rw [hk, eq_of_asciiDigits_eq hplain h]
  have hsame (k : Keyword) : k.words = [first, String.ofList s'] ↔
      k.words = [first, String.ofList s] := ⟨hiff h.symm k, hiff h k⟩
  simp only [Keyword.ofWords?, hsame]

/-- A word takes at least the run that it starts with. -/
theorem length_takeWhile_le_word (c : Char) (s : List Char) :
    (s.takeWhile isWordPart).length ≤ (word c s).extra := by
  rw [word]
  dsimp only
  split
  · exact Nat.le_refl _
  · split
    · split
      · split
        · dsimp only
          omega
        · exact Nat.le_refl _
      · exact Nat.le_refl _
    · exact Nat.le_refl _

/-- What a word is depends on its own characters and, in whichever script, on the word after it. -/
theorem word_eq {c : Char} (h : asciiDigits s' = asciiDigits s)
    (htake : s'.take (word c s).extra = s.take (word c s).extra) : word c s' = word c s := by
  obtain ⟨tail, htail⟩ : ∃ tail, s.takeWhile isWordPart = tail := ⟨_, rfl⟩
  have htail' : s'.takeWhile isWordPart = tail := by
    rw [← htail]
    exact takeWhile_eq_of_take ignoresScript_isWordPart h (length_takeWhile_le_word c s) htake
  cases hfirst : Keyword.ofWords? [String.ofList (c :: tail)] with
  | some k => rw [word, word, htail, htail', hfirst]
  | none =>
    have hleft := asciiDigits_drop_eq h tail.length
    have hspace := head?_eq_some_iff (d := ' ') rfl hleft
    by_cases hhead : (s.drop tail.length).head? = some ' '
    · obtain ⟨after, hafter⟩ := List.head?_eq_some_iff.mp hhead
      obtain ⟨after', hafter'⟩ := List.head?_eq_some_iff.mp (hspace.mpr hhead)
      rw [hafter, hafter'] at hleft
      have hbeyond : asciiDigits after' = asciiDigits after := (List.cons.inj hleft).2
      have hsecond := asciiDigits_takeWhile_eq ignoresScript_isWordPart hbeyond
      have hlength := length_eq_of_asciiDigits hsecond
      rw [word, word, htail, htail', hfirst, hafter, hafter']
      simp only [ofWords?_second_eq _ hsecond, hlength,
        endsPhrase_eq (asciiDigits_drop_eq hbeyond _)]
    · rw [word_of_no_space htail hfirst hhead,
        word_of_no_space htail' hfirst (fun hhead' => hhead (hspace.mp hhead'))]

theorem quoted_eq {quote : Char} (hquote : isDigit quote = false)
    (h : asciiDigits s' = asciiDigits s)
    (htake : s'.take (quoted quote s).extra = s.take (quoted quote s).extra) :
    quoted quote s' = quoted quote s := by
  have hcontent : s'.takeWhile (· ≠ quote) = s.takeWhile (· ≠ quote) :=
    takeWhile_eq_of_take (ignoresScript_ne hquote) h (Nat.le_add_right _ _) htake
  rw [quoted, quoted, hcontent, length_eq_of_asciiDigits h]

theorem extendable_eq_of_asciiDigits (alone extended : Option TokenKind)
    (h : asciiDigits s' = asciiDigits s) :
    extendable alone extended s' = extendable alone extended s := by
  rw [extendable_eq, extendable_eq]
  simp only [head?_eq_some_iff (d := '=') rfl h]

theorem piece?_slash_eq (h : asciiDigits s' = asciiDigits s) : piece? '/' s' = piece? '/' s := by
  have hcomment := asciiDigits_takeWhile_eq (ignoresScript_ne (d := '\n') rfl) h
  rw [piece?_slash, piece?_slash, length_eq_of_asciiDigits hcomment]
  simp only [head?_eq_some_iff (d := '/') rfl h]

/-- A piece that starts with no digit is the same before a text in another script, if it has the
same characters. -/
theorem piece?_eq_of_take {c : Char} (hc : isDigit c = false) {piece : Piece}
    (hpiece : piece? c s = some piece) (h : asciiDigits s' = asciiDigits s)
    (htake : s'.take piece.extra = s.take piece.extra) : piece? c s' = some piece := by
  by_cases hslash : c = '/'
  · rw [hslash] at hpiece ⊢
    rwa [piece?_slash_eq h]
  unfold piece? at hpiece ⊢
  rw [if_neg (by rw [hc]; exact Bool.false_ne_true)] at hpiece ⊢
  split at hpiece
  · rename_i hword
    cases hpiece
    rw [if_pos hword, word_eq h htake]
  rename_i hword
  rw [if_neg hword]
  split at hpiece
  · rename_i hgap
    rwa [if_pos hgap]
  rename_i hgap
  rw [if_neg hgap]
  split at hpiece
  · cases hpiece
    exact congrArg some (quoted_eq rfl h htake)
  · cases hpiece
    exact congrArg some (quoted_eq rfl h htake)
  · exact absurd rfl hslash
  all_goals first
    | exact hpiece
    | rwa [extendable_eq_of_asciiDigits _ _ h]

theorem kind_ne_number {c : Char} {piece : Piece} (hpiece : piece? c s = some piece)
    (hc : isDigit c = false) (raw : String) : piece.kind ≠ some (.number raw) := by
  intro hkind
  obtain ⟨cs, after, -, -, hwritten⟩ := piece?_taken hpiece
  rw [hkind] at hwritten
  obtain ⟨htext, ⟨d, ds, hraw, hd, -⟩, -⟩ := hwritten
  rw [hraw, String.toList_ofList] at htext
  rw [(List.cons.inj htext).1, hd] at hc
  cases hc

/-- What may be written in the place of a piece: a numeral with digits of the same value, and in any
other place only the same text. -/
def Transcribes : Option TokenKind → List Char → List Char → Prop
  | some (.number _), text, text' => asciiDigits text' = asciiDigits text
  | _, text, text' => text' = text

theorem Transcribes.asciiDigits_eq {kind : Option TokenKind} {text text' : List Char}
    (h : Transcribes kind text text') : asciiDigits text' = asciiDigits text := by
  unfold Transcribes at h
  split at h
  · exact h
  · rw [h]

theorem Transcribes.eq {kind : Option TokenKind} {text text' : List Char}
    (h : Transcribes kind text text') (hkind : ∀ raw, kind ≠ some (.number raw)) :
    text' = text := by
  unfold Transcribes at h
  split at h
  · exact absurd rfl (hkind _)
  · exact h

/-- The second text is the first with digits inside its numerals replaced by digits of the same
value. -/
inductive Transcribed : List Char → List Char → Prop
  | nil : Transcribed [] []
  | cons {kind : Option TokenKind} {text text' after after' : List Char}
      (hread : Reads kind text after) (htext : Transcribes kind text text')
      (hafter : Transcribed after after') : Transcribed (text ++ after) (text' ++ after')

theorem Transcribed.asciiDigits_eq {text text' : List Char} (h : Transcribed text text') :
    asciiDigits text' = asciiDigits text := by
  induction h with
  | nil => rfl
  | cons _ htext _ ih => exact asciiDigits_append_eq htext.asciiDigits_eq ih

end Scan

open Text in
/-- The same token, or a numeral in its place with digits of the same value. -/
inductive Token.Respelled : Token → Token → Prop
  | same (t : Token) : Respelled t t
  | numeral {raw raw' : String} (line : Nat)
      (h : asciiDigits raw'.toList = asciiDigits raw.toList) :
      Respelled ⟨.number raw, raw, line⟩ ⟨.number raw', raw', line⟩

theorem Token.Respelled.sameReading {t t' : Token} (h : t.Respelled t') : t.SameReading t' := by
  cases h with
  | same => exact ⟨rfl, .inl rfl⟩
  | @numeral raw raw' line h =>
    refine ⟨rfl, .inr ⟨raw, raw', rfl, rfl, ?_⟩⟩
    rw [Parser.numeralValue, Parser.numeralValue, h]

namespace Scan

open Text

/-- The tokens that a text gives when it is read as a piece: one or none. -/
def tokensOf (kind : Option TokenKind) (text : List Char) (line : Nat) : List Token :=
  (kind.map fun kind => ⟨kind, String.ofList text, line⟩).toList

/-- What stands for a numeral is read as a numeral again, and anything else as it was. -/
theorem Reads.transcribed {kind : Option TokenKind} {text text' after after' : List Char}
    (h : Reads kind text after) (htext : Transcribes kind text text')
    (hafter : asciiDigits after' = asciiDigits after) (line : Nat) :
    ∃ kind', Reads kind' text' after' ∧
      List.Forall₂ Token.Respelled (tokensOf kind text line) (tokensOf kind' text' line) := by
  obtain ⟨c, cs, rfl, hpiece⟩ := h
  obtain ⟨c', cs', rfl, hc, hcs⟩ := List.map_eq_cons_iff.mp htext.asciiDigits_eq
  have hrest := asciiDigits_append_eq hcs hafter
  cases hdigit : isDigit c with
  | true =>
    have hdigit' : isDigit c' = true := by rw [ignoresScript_isDigit.apply_eq hc, hdigit]
    unfold piece? at hpiece
    rw [if_pos hdigit] at hpiece
    obtain ⟨rfl, hlength⟩ := Piece.mk.inj (Option.some.inj hpiece)
    have hrun : (cs ++ after).takeWhile isNumeralPart = cs := by
      rw [takeWhile_eq_take, hlength, List.take_left]
    have hrun' : (cs' ++ after').takeWhile isNumeralPart = cs' := by
      have hlength' := length_eq_of_asciiDigits
        (asciiDigits_takeWhile_eq ignoresScript_isNumeralPart hrest)
      rw [takeWhile_eq_take, hlength', hlength, ← length_eq_of_asciiDigits hcs, List.take_left]
    refine ⟨some (.number (String.ofList (c' :: cs'))), ⟨c', cs', rfl, ?_⟩, ?_⟩
    · unfold piece?
      rw [if_pos hdigit', hrun']
    · rw [hrun]
      refine .cons (.numeral line ?_) .nil
      rw [String.toList_ofList, String.toList_ofList]
      exact htext.asciiDigits_eq
  | false =>
    obtain ⟨rfl, rfl⟩ := List.cons.inj (htext.eq (kind_ne_number hpiece hdigit))
    refine ⟨kind, ⟨c', cs', rfl, ?_⟩, ?_⟩
    · exact piece?_eq_of_take hdigit hpiece hrest (by rw [List.take_left, List.take_left])
    · cases kind with
      | none => exact .nil
      | some kind => exact .cons (.same _) .nil

/-- A scan of a transcription gives the same tokens up to the script of numerals. -/
theorem Transcribed.scanFrom {text text' : List Char} (h : Transcribed text text') {line : Nat}
    {found found' tokens : List Token} (hfound : List.Forall₂ Token.Respelled found found')
    (hscan : Token.scanFrom line text found = .ok tokens) :
    ∃ tokens', Token.scanFrom line text' found' = .ok tokens' ∧
      List.Forall₂ Token.Respelled tokens tokens' := by
  induction h generalizing line found found' with
  | nil =>
    rw [Token.scanFrom] at hscan
    cases hscan
    refine ⟨(⟨.endOfInput, "", line⟩ :: found').reverse, by rw [Token.scanFrom], ?_⟩
    exact List.rel_reverse (.cons (.same _) hfound)
  | @cons kind text text' after after' hread htext hafter ih =>
    obtain ⟨kind', hread', htokens⟩ := hread.transcribed htext hafter.asciiDigits_eq line
    have hlines : text'.count '\n' = text.count '\n' := by
      rw [← count_asciiDigits rfl, htext.asciiDigits_eq, count_asciiDigits rfl]
    rw [hread.scanFrom] at hscan
    rw [hread'.scanFrom, hlines]
    exact ih (List.rel_append htokens hfound) hscan

end Scan

namespace Number

open Text

/-- A decimal is always read as a number. -/
theorem isNaN_ofDecimal (negative : Bool) (digits : List Char) (k : ℤ) :
    (ofDecimal negative digits k).isNaN = false := by
  have hword {word : ℕ} (h : word ≤ infinityWord) : (ofWord negative word).isNaN = false := by
    rw [← Bool.not_eq_true, isNaN_iff, magnitude_ofWord h]
    omega
  rw [ofDecimal]
  split
  · exact hword (Nat.zero_le _)
  · split
    · exact hword le_rfl
    · split
      · exact hword (Nat.zero_le _)
      · exact hword (nearestWord_le _ _)

/-- Plain text starts with digits, and goes on with a point if it goes on. -/
theorem exists_digits {text : List Char} (h : ∀ c ∈ text, isPlain c = true) :
    ∃ digits rest, text = digits ++ rest ∧ (∀ c ∈ digits, isAsciiDigit c = true) ∧
      (rest = [] ∨ ∃ more, rest = '.' :: more ∧ ∀ c ∈ more, isPlain c = true) := by
  obtain ⟨digits, rest, rfl, -, hdigits, hends⟩ := Scan.exists_run isAsciiDigit text
  refine ⟨digits, rest, rfl, hdigits, ?_⟩
  cases rest with
  | nil => exact .inl rfl
  | cons c more =>
    have hc : isAsciiDigit c = false := hends c rfl
    have hplain := h c (by simp)
    rw [isPlain, hc, Bool.false_or, decide_eq_true_eq] at hplain
    exact .inr ⟨more, by rw [hplain], fun x hx => h x (by simp [hx])⟩

theorem count_point_digits {digits : List Char} (h : ∀ c ∈ digits, isAsciiDigit c = true) :
    digits.count '.' = 0 := by
  refine List.count_eq_zero.mpr fun hmem => ?_
  have hdigit := h '.' hmem
  simp [isAsciiDigit] at hdigit

/-- A second point is one too many. -/
theorem Numeral.unsigned?_points {whole fraction : List Char} (rest : List Char)
    (hwhole : ∀ c ∈ whole, isAsciiDigit c = true)
    (hfraction : ∀ c ∈ fraction, isAsciiDigit c = true) :
    unsigned? false (whole ++ '.' :: (fraction ++ '.' :: rest)) = none := by
  have hsplit := splitDigits_append ('.' :: (fraction ++ '.' :: rest)) hwhole
    (by simp [isAsciiDigit])
  have hsplit' := splitDigits_append ('.' :: rest) hfraction (by simp [isAsciiDigit])
  simp [unsigned?, hsplit, hsplit', exponent?]

/-- Plain text denotes a number unless it has two points. -/
theorem IsPlainText.isNaN_value_iff {text : List Char} (h : IsPlainText text) :
    (((Numeral.ofChars? text).map Numeral.value).getD notANumber).isNaN = true ↔
      2 ≤ text.count '.' := by
  have hread := h.ofChars?_eq
  obtain ⟨c, cs, rfl, hc, hcs⟩ := h
  have hplain : ∀ x ∈ c :: cs, isPlain x = true := by
    intro x hx
    rcases List.mem_cons.mp hx with rfl | hx
    · rw [isPlain, hc, Bool.true_or]
    · exact hcs x hx
  obtain ⟨whole, rest, htext, hwhole, hrest⟩ := exists_digits hplain
  have hne : whole ≠ [] := by
    rintro rfl
    rcases hrest with rfl | ⟨more, rfl, -⟩
    · cases htext
    · rw [(List.cons.inj htext).1] at hc
      simp [isAsciiDigit] at hc
  have hzero := count_point_digits hwhole
  rw [hread, htext]
  rcases hrest with rfl | ⟨more, rfl, hmore⟩
  · rw [List.append_nil, Numeral.unsigned?_whole hwhole hne, hzero, Option.map_some,
      Option.getD_some, Numeral.value, isNaN_ofDecimal]
    decide
  obtain ⟨fraction, last, rfl, hfraction, hlast⟩ := exists_digits hmore
  have hzero' := count_point_digits hfraction
  rcases hlast with rfl | ⟨beyond, rfl, -⟩
  · rw [List.append_nil, Numeral.unsigned?_point hwhole hfraction hne, List.count_append,
      List.count_cons_self, hzero, hzero', Option.map_some, Option.getD_some, Numeral.value,
      isNaN_ofDecimal]
    decide
  · have hnan : notANumber.isNaN = true := isNaN_iff.mpr (by decide)
    have hpoints : 2 ≤ (whole ++ '.' :: (fraction ++ '.' :: beyond)).count '.' := by
      rw [List.count_append, List.count_cons_self, List.count_append, List.count_cons_self]
      omega
    rw [Numeral.unsigned?_points beyond hwhole hfraction, Option.map_none, Option.getD_none]
    exact iff_of_true hnan hpoints

/-- The numerals of a source that denote no number are those with two points. -/
theorem isNaN_numeralValue_iff {raw : String} (h : Scan.WellSpelled (.number raw)) :
    (Parser.numeralValue raw).isNaN = true ↔ 2 ≤ raw.toList.count '.' := by
  obtain ⟨c, cs, rfl, hc, hcs⟩ := h
  rw [Parser.numeralValue, read?, String.toList_ofList, String.toList_ofList,
    (isPlainText_asciiDigits hc hcs).isNaN_value_iff, count_asciiDigits rfl]

end Number

namespace Scan

/-- Digits inside the numerals of a source may be replaced by digits of the same value in the other
script. The tokens stay the same but for those numerals, and the same program is read from them if
any is. Neither does the script decide which literals are not numbers: those with two points or
more. -/
theorem digit_script_makes_no_difference {source source' : String} {tokens : List Token}
    (h : Transcribed source.toList source'.toList) (hscan : Token.scan source = .ok tokens) :
    (∃ tokens', Token.scan source' = .ok tokens' ∧
      List.Forall₂ Token.Respelled tokens tokens' ∧
      ∀ p, Program.ofTokens tokens = .ok p ↔ Program.ofTokens tokens' = .ok p) ∧
    ∀ t ∈ tokens, ∀ raw, t.kind = .number raw →
      ∃ x, Parser.atom? t.kind t.line = some (.literal (.number x) t.line) ∧
        (x.isNaN = true ↔ 2 ≤ raw.toList.count '.') := by
  constructor
  · obtain ⟨tokens', hscan', htokens⟩ := h.scanFrom .nil hscan
    refine ⟨tokens', hscan', htokens, ?_⟩
    exact Grammar.ofTokens_eq_ok_iff_of_sameReading (htokens.imp fun _ _ => (·.sameReading))
  · intro t ht raw hraw
    have hspelled := wellSpelled_of_scan hscan t ht
    rw [hraw] at hspelled ⊢
    exact ⟨_, rfl, Number.isNaN_numeralValue_iff hspelled⟩

/-- A name keeps its digit, and a numeral of both scripts stands right before another name. -/
theorem digit_script_makes_no_difference_mixed :
    let tokens : List Token := [⟨.identifier "ক১", "ক১", 1⟩, ⟨.number "১2.৩", "১2.৩", 1⟩,
      ⟨.identifier "খ", "খ", 1⟩, ⟨.endOfInput, "", 1⟩]
    Token.scan "ক১ ১2.৩খ" = .ok tokens ∧ ∃ tokens', Token.scan "ক১ 1২.3খ" = .ok tokens' ∧
      List.Forall₂ Token.Respelled tokens tokens' := by
  intro tokens
  have hscan : Token.scan "ক১ ১2.৩খ" = .ok tokens := scan_of_toOption (by decide +kernel)
  have hname : Reads (some (.identifier "ক১")) ['ক', '১'] [' ', '১', '2', '.', '৩', 'খ'] :=
    ⟨_, _, rfl, by decide +kernel⟩
  have hgap : Reads none [' '] ['১', '2', '.', '৩', 'খ'] := ⟨_, _, rfl, by decide +kernel⟩
  have hnumeral : Reads (some (.number "১2.৩")) ['১', '2', '.', '৩'] ['খ'] :=
    ⟨_, _, rfl, by decide +kernel⟩
  have hlast : Reads (some (.identifier "খ")) ['খ'] [] := ⟨_, _, rfl, by decide +kernel⟩
  have hdigits : Transcribes (some (.number "১2.৩")) ['১', '2', '.', '৩'] ['1', '২', '.', '3'] := by
    change Text.asciiDigits _ = Text.asciiDigits _
    decide +kernel
  have htranscribed : Transcribed "ক১ ১2.৩খ".toList "ক১ 1২.3খ".toList := by
    have htexts : "ক১ ১2.৩খ".toList = ['ক', '১', ' ', '১', '2', '.', '৩', 'খ'] ∧
        "ক১ 1২.3খ".toList = ['ক', '১', ' ', '1', '২', '.', '3', 'খ'] := by decide +kernel
    rw [htexts.1, htexts.2]
    exact .cons hname rfl (.cons hgap rfl (.cons hnumeral hdigits (.cons hlast rfl .nil)))
  obtain ⟨⟨tokens', hscan', htokens, -⟩, -⟩ := digit_script_makes_no_difference htranscribed hscan
  exact ⟨hscan, tokens', hscan', htokens⟩

end Scan

end KakaLang
