import KakaLang.Proofs.Lexemes
import KakaLang.Proofs.Scanning

/-!
Well spaced lexemes scan to themselves. A list of lexemes is well spaced when each of them is well
spelled and followed by something that does not change how it is read. The one exception is kept: a
request for input right before a bracket does not end its phrase, and is read as two names.
-/

namespace KakaLang

open Scan

namespace Keyword

theorem ofWords?_words (k : Keyword) : ofWords? k.words = some k := by
  cases k <;> rfl

def isWordText : List Char → Bool
  | [] => false
  | c :: cs => isWordStart c && cs.all isWordPart

/-- The words of a keyword are words, and the first of two is no keyword by itself. -/
theorem words_spec (k : Keyword) :
    (∃ w, k.words = [w] ∧ isWordText w.toList = true) ∨
      ∃ w v, k.words = [w, v] ∧ isWordText w.toList = true ∧ v.toList.all isWordPart = true ∧
        ofWords? [w] = none := by
  cases k
  all_goals first
    | exact Or.inl ⟨_, rfl, by decide⟩
    | exact Or.inr ⟨_, _, rfl, by decide, by decide, by decide⟩

theorem exists_of_isWordText {text : List Char} (h : isWordText text = true) :
    ∃ c cs, text = c :: cs ∧ isWordStart c = true ∧ ∀ x ∈ cs, isWordPart x = true := by
  cases text with
  | nil => cases h
  | cons c cs =>
    rw [isWordText, Bool.and_eq_true, List.all_eq_true] at h
    exact ⟨c, cs, rfl, h⟩

/-- A keyword is read where its last word ends and, if it is a phrase, the phrase ends too. -/
theorem reads (k : Keyword) {after : List Char} (hafter : Ends isWordPart after)
    (hends : k.words.length = 2 → endsPhrase after = true) :
    Reads (some (.keyword k)) k.spelling.toList after := by
  have hk := k.ofWords?_words
  rcases k.words_spec with ⟨w, hwords, hw⟩ | ⟨w, v, hwords, hw, hv, hfirst⟩
  · obtain ⟨c, cs, htext, hc, hcs⟩ := exists_of_isWordText hw
    have hspelling : k.spelling.toList = c :: cs := by
      rw [spelling, hwords, ← htext]
      simp
    rw [hspelling]
    apply Reads.keyword hc hcs hafter
    rw [← htext, String.ofList_toList, ← hwords]
    exact hk
  · obtain ⟨c, cs, htext, hc, hcs⟩ := exists_of_isWordText hw
    have hspelling : k.spelling.toList = c :: cs ++ ' ' :: v.toList := by
      rw [spelling, hwords, ← htext]
      simp
    rw [hspelling]
    apply Reads.phrase hc hcs (List.all_eq_true.mp hv) hafter (hends (by rw [hwords]; rfl))
    · rw [← htext, String.ofList_toList]
      exact hfirst
    · rw [← htext, String.ofList_toList, String.ofList_toList, ← hwords]
      exact hk

/-- No phrase has an operator or nothing at all for its second word. -/
theorem ofWords?_eq_none {first second : String}
    (h : second ∈ ["", and.spelling, or.spelling]) : ofWords? [first, second] = none := by
  have hsecond : ∀ k ∈ all, ∀ s ∈ ["", and.spelling, or.spelling], k.words[1]? ≠ some s := by
    decide
  rw [ofWords?, List.find?_eq_none]
  intro k hk hwords
  apply hsecond k hk second h
  rw [of_decide_eq_true hwords]
  rfl

end Keyword

namespace Lexeme

/-- The lexemes that end a word, a numeral and every phrase except before a bracket. -/
def separates : Lexeme → Bool
  | space | newLine => true
  | symbol .openParen | symbol .closeParen | symbol .openBrace | symbol .closeBrace
  | symbol .openBracket | symbol .closeBracket | symbol .semicolon | symbol .comma => true
  | _ => false

/-- A separator is next. -/
def Parted : List Lexeme → Prop
  | [] => False
  | l :: _ => l.separates = true

/-- What may follow an expression: a separator, or a space and an operator. -/
inductive Continues : List Lexeme → Prop
  | separator {l : Lexeme} {after : List Lexeme} (h : l.separates = true) (hspace : l ≠ space) :
      Continues (l :: after)
  | symbol (s : Symbol) (after : List Lexeme) : Continues (space :: symbol s :: after)
  | operator (op : LogicalOp) (after : List Lexeme) :
      Continues (space :: keyword op.keyword :: space :: after)

/-- The text starts with a bracket. -/
def bracketed : List Char → Bool
  | '[' :: _ | ']' :: _ => true
  | _ => false

/-- The lexeme is well spelled and is read as itself before what follows; a request for input may
also stand before a bracket. -/
def Clear : Lexeme → List Lexeme → Prop
  | space, _ | newLine, _ => True
  | symbol s, after => (symbol s).separates = true ∨ ∃ rest, after = space :: rest
  | keyword k, after =>
    Parted after ∧ (k.words.length = 2 → k = .input ∨ bracketed (join after) = false)
  | name text, after => IsWord text.toList ∧ Continues after
  | number raw, after => WellSpelled (.number raw) ∧ Parted after
  | string content, _ => WellSpelled (.string content)

def WellSpaced : List Lexeme → Prop
  | [] => True
  | l :: after => l.Clear after ∧ WellSpaced after

/-- The kinds of the tokens that a lexeme is read as before a text. -/
def kindsBefore (l : Lexeme) (after : List Char) : List TokenKind :=
  if l = keyword .input ∧ bracketed after = true then [.identifier "কাকা", .identifier "শোনো"]
  else l.kind?.toList

/-- The kinds of the tokens that lexemes are read as, the end of input last. -/
def kinds : List Lexeme → List TokenKind
  | [] => [.endOfInput]
  | l :: after => l.kindsBefore (join after) ++ kinds after

theorem Continues.parted {after : List Lexeme} (h : Continues after) : Parted after := by
  cases h with
  | separator h _ => exact h
  | symbol s after => rfl
  | operator op after => rfl

/-- A separator starts with a character that ends words, numerals and, unless it is a bracket,
phrases. -/
theorem Parted.head {after : List Lexeme} (h : Parted after) :
    ∃ c cs, join after = c :: cs ∧ isWordPart c = false ∧ isNumeralPart c = false ∧
      (bracketed (join after) = false → endsPhrase (join after) = true) := by
  cases after with
  | nil => cases h
  | cons l after =>
    cases l with
    | space => exact ⟨_, _, rfl, rfl, rfl, fun _ => rfl⟩
    | newLine => exact ⟨_, _, rfl, rfl, rfl, fun _ => rfl⟩
    | symbol s =>
      cases s
      all_goals first
        | exact ⟨_, _, rfl, rfl, rfl, fun _ => rfl⟩
        | exact ⟨_, _, rfl, rfl, rfl, fun hbracket => Bool.noConfusion hbracket⟩
        | cases h
    | _ => cases h

theorem Parted.ends_word {after : List Lexeme} (h : Parted after) :
    Ends isWordPart (join after) := by
  obtain ⟨c, cs, hjoin, hc, -, -⟩ := h.head
  rw [hjoin]
  intro x hx
  cases hx
  exact hc

theorem Parted.ends_numeral {after : List Lexeme} (h : Parted after) :
    Ends isNumeralPart (join after) := by
  obtain ⟨c, cs, hjoin, -, hc, -⟩ := h.head
  rw [hjoin]
  intro x hx
  cases hx
  exact hc

theorem Parted.endsPhrase {after : List Lexeme} (h : Parted after)
    (hbracket : bracketed (join after) = false) : Scan.endsPhrase (join after) = true := by
  obtain ⟨c, cs, -, -, -, hends⟩ := h.head
  exact hends hbracket

theorem reads_symbol {s : Symbol} {after : List Lexeme} (h : (symbol s).Clear after) :
    Reads (some (.symbol s)) s.spelling.toList (join after) := by
  rcases h with h | ⟨rest, rfl⟩
  · cases s
    all_goals first
      | exact ⟨_, _, rfl, rfl⟩
      | cases h
  · cases s
    all_goals exact ⟨_, _, rfl, rfl⟩

/-- The word after a space is an operator, if it is a word at all. -/
theorem Continues.second {after : List Lexeme} {rest : List Char} (h : Continues after)
    (hspace : join after = ' ' :: rest) :
    String.ofList (rest.takeWhile isWordPart) ∈
      ["", Keyword.and.spelling, Keyword.or.spelling] := by
  cases h with
  | @separator l after h hne =>
    cases l with
    | space => exact absurd rfl hne
    | newLine => cases hspace
    | symbol s => cases s <;> cases hspace
    | _ => cases h
  | symbol s after =>
    have hrest : rest = s.spelling.toList ++ join after := (List.cons.inj hspace).2.symm
    have hnothing : (s.spelling.toList ++ join after).takeWhile isWordPart = [] := by
      cases s <;> rfl
    rw [hrest, hnothing]
    exact List.mem_cons_self
  | operator op after =>
    have hrest : rest = op.keyword.spelling.toList ++ join (space :: after) :=
      (List.cons.inj hspace).2.symm
    have hword : (op.keyword.spelling.toList ++ join (space :: after)).takeWhile isWordPart =
        op.keyword.spelling.toList := by
      apply takeWhile_append_of_ends
      · apply List.all_eq_true.mp
        cases op <;> decide
      · exact Parted.ends_word rfl
    rw [hrest, hword, String.ofList_toList]
    cases op <;> decide

/-- After a name that an expression goes on from, no word makes a phrase with it. -/
theorem Continues.reads_name {text : String} {after : List Lexeme} (htext : IsWord text.toList)
    (h : Continues after) : Reads (some (.identifier text)) text.toList (join after) := by
  obtain ⟨c, cs, hcons, hc, hcs, hword⟩ := htext
  have hname : Reads (some (.identifier (String.ofList (c :: cs)))) (c :: cs) (join after) := by
    apply Reads.name hc hcs h.parted.ends_word
    · rw [← hcons]
      exact hword
    · intro rest k hspace hk
      have hnone : Keyword.ofWords? [String.ofList (c :: cs),
          String.ofList (rest.takeWhile isWordPart)] = none :=
        Keyword.ofWords?_eq_none (h.second hspace)
      rw [hnone] at hk
      cases hk
  rw [← hcons, String.ofList_toList] at hname
  exact hname

theorem reads_string {content : String} {after : List Char}
    (h : WellSpelled (.string content)) :
    Reads (some (.string content)) (Literal.string content).source.toList after := by
  rw [Literal.source]
  by_cases hquote : content.toList.contains '"' = true
  · rw [if_pos hquote]
    have hsingle : '\'' ∉ content.toList := by
      rcases h with h | h
      · exact absurd (List.contains_iff_mem.mp hquote) h
      · exact h
    simpa using Reads.string (Or.inr rfl) hsingle
  · rw [if_neg hquote]
    have hdouble : '"' ∉ content.toList := fun hmem => hquote (List.contains_iff_mem.mpr hmem)
    simpa using Reads.string (Or.inl rfl) hdouble

/-- Before a bracket, the words of a request for input are two names. -/
theorem input_spells {after : List Char} {kinds : List TokenKind}
    (hbracket : bracketed after = true) (hafter : Spells after kinds) :
    Spells (Keyword.input.spelling.toList ++ after)
      (.identifier "কাকা" :: .identifier "শোনো" :: kinds) := by
  have hends : Ends isWordPart after ∧ endsPhrase after = false ∧ ∀ rest, after ≠ ' ' :: rest := by
    unfold bracketed at hbracket
    split at hbracket
    · exact ⟨fun x hx => by cases hx; rfl, rfl, by simp⟩
    · exact ⟨fun x hx => by cases hx; rfl, rfl, by simp⟩
    · cases hbracket
  obtain ⟨hword, hphrase, hspace⟩ := hends
  let first : List Char := ['া', 'ক', 'া']
  let second : List Char := ['ো', 'ন', 'ো']
  have hparts : ∀ cs ∈ [first, second, 'শ' :: second], ∀ x ∈ cs, isWordPart x = true := by
    intro cs hcs
    apply List.all_eq_true.mp
    revert cs
    decide
  have hsecond : Reads (some (.identifier "শোনো")) ('শ' :: second) after :=
    Reads.name (by decide) (hparts second (by simp)) hword (by decide)
      fun rest k hrest _ => absurd hrest (hspace rest)
  have hblank : Reads none [' '] ('শ' :: second ++ after) := ⟨' ', [], rfl, rfl⟩
  have hfirst : Reads (some (.identifier "কাকা")) ('ক' :: first)
      (' ' :: ('শ' :: second ++ after)) := by
    apply Reads.name (by decide) (hparts first (by simp)) (by intro x hx; cases hx; rfl)
      (by decide)
    intro rest k hrest _
    have htake : ('শ' :: second ++ after).takeWhile isWordPart = 'শ' :: second :=
      takeWhile_append_of_ends (hparts _ (by simp)) hword
    cases hrest
    rw [htake]
    exact hphrase
  exact hfirst.spells (hblank.spells (hsecond.spells hafter))

/-- Well spaced lexemes scan to their kinds. -/
theorem spells_join {ls : List Lexeme} (h : WellSpaced ls) : Spells (join ls) (kinds ls) := by
  induction ls with
  | nil => exact Spells.nil
  | cons l after ih =>
    obtain ⟨hclear, hafter⟩ := h
    have hspells := ih hafter
    rw [join_cons, kinds, kindsBefore]
    by_cases hinput : l = keyword .input ∧ bracketed (join after) = true
    · rw [if_pos hinput, hinput.1]
      exact input_spells hinput.2 hspells
    · rw [if_neg hinput]
      apply Reads.spells _ hspells
      cases l with
      | space => exact ⟨' ', [], rfl, rfl⟩
      | newLine => exact ⟨'\n', [], rfl, rfl⟩
      | symbol s => exact reads_symbol hclear
      | keyword k =>
        obtain ⟨hparted, hphrase⟩ := hclear
        apply k.reads hparted.ends_word
        intro htwo
        apply hparted.endsPhrase
        rcases hphrase htwo with rfl | hbracket
        · simpa using hinput
        · exact hbracket
      | name text => exact hclear.2.reads_name hclear.1
      | number raw =>
        obtain ⟨⟨c, cs, rfl, hc, hcs⟩, hparted⟩ := hclear
        have hread := Reads.number hc hcs hparted.ends_numeral
        simpa [kind?, text] using hread
      | string content => exact reads_string hclear

end Lexeme

end KakaLang
