import KakaLang.Proofs.NumeralText
import KakaLang.Proofs.Pieces
import Mathlib.Computability.Language

/-!
The texts that denote a number, as a regular language. Reading splits a text at its first sign, at
the end of a run of digits, at a point and at an exponent mark; the language is put together from
the same parts by sums, products and stars, and says nothing about how a text is to be split. Each
part of the language starts with characters that no run before it can contain, so the splits that
reading makes are the only ones that can succeed.
-/

open scoped Computability

namespace KakaLang.Text

/-- One character of a class. -/
def oneOf (p : Char → Bool) : Language Char := {w | ∃ c, p c = true ∧ w = [c]}

/-- One or more characters of a class. -/
def someOf (p : Char → Bool) : Language Char := oneOf p * (oneOf p)∗

theorem mem_oneOf {p : Char → Bool} {w : List Char} : w ∈ oneOf p ↔ ∃ c, p c = true ∧ w = [c] :=
  Iff.rfl

theorem mem_oneOf_mul {p : Char → Bool} {l : Language Char} {w : List Char} :
    w ∈ oneOf p * l ↔ ∃ c rest, p c = true ∧ rest ∈ l ∧ w = c :: rest := by
  rw [Language.mem_mul]
  constructor
  · rintro ⟨first, ⟨c, hc, rfl⟩, rest, hrest, rfl⟩
    exact ⟨c, rest, hc, hrest, rfl⟩
  · rintro ⟨c, rest, hc, hrest, rfl⟩
    exact ⟨[c], ⟨c, hc, rfl⟩, rest, hrest, rfl⟩

theorem mem_oneOf_kstar {p : Char → Bool} {w : List Char} :
    w ∈ (oneOf p)∗ ↔ ∀ c ∈ w, p c = true := by
  constructor
  · intro h
    obtain ⟨parts, rfl, hparts⟩ := Language.mem_kstar.mp h
    intro c hc
    obtain ⟨part, hpart, hmem⟩ := List.mem_flatten.mp hc
    obtain ⟨d, hd, rfl⟩ := hparts part hpart
    rwa [List.mem_singleton.mp hmem]
  · intro h
    refine Language.mem_kstar.mpr ⟨w.map fun c => [c], ?_, ?_⟩
    · rw [← List.flatMap_def, List.flatMap_singleton']
    · intro part hpart
      obtain ⟨c, hc, rfl⟩ := List.mem_map.mp hpart
      exact ⟨c, h c hc, rfl⟩

theorem mem_someOf {p : Char → Bool} {w : List Char} :
    w ∈ someOf p ↔ w ≠ [] ∧ ∀ c ∈ w, p c = true := by
  rw [someOf, mem_oneOf_mul]
  constructor
  · rintro ⟨c, rest, hc, hrest, rfl⟩
    refine ⟨List.cons_ne_nil c rest, ?_⟩
    rw [mem_oneOf_kstar] at hrest
    exact List.forall_mem_cons.mpr ⟨hc, hrest⟩
  · rintro ⟨hne, hall⟩
    obtain ⟨c, rest, rfl⟩ := List.exists_cons_of_ne_nil hne
    rw [List.forall_mem_cons] at hall
    exact ⟨c, rest, hall.1, mem_oneOf_kstar.mpr hall.2, rfl⟩

open Scan (Ends exists_run)

/-- What is left of a text when the characters of a class are removed from both ends. -/
structure IsTrimmed (p : Char → Bool) (text core : List Char) : Prop where
  split : ∃ front back, text = front ++ core ++ back ∧ (∀ c ∈ front, p c = true) ∧
    ∀ c ∈ back, p c = true
  head : ∀ c ∈ core.head?, p c = false
  last : ∀ c ∈ core.getLast?, p c = false

theorem dropWhile_append_ends {p : Char → Bool} {front rest : List Char}
    (hfront : ∀ c ∈ front, p c = true) (hrest : Ends p rest) :
    (front ++ rest).dropWhile p = rest := by
  rw [List.dropWhile_append_of_pos hfront]
  cases rest with
  | nil => rfl
  | cons c rest =>
    have hc : p c = false := hrest c rfl
    rw [List.dropWhile_cons_of_neg (by rw [hc]; exact Bool.false_ne_true)]

theorem exists_isTrimmed (p : Char → Bool) (text : List Char) :
    ∃ core, IsTrimmed p text core := by
  obtain ⟨front, rest, rfl, -, hfront, hrest⟩ := exists_run p text
  -- The end of what is left is the beginning of its reverse.
  obtain ⟨back, core, hreverse, -, hback, hcore⟩ := exists_run p rest.reverse
  have hsplit : rest = core.reverse ++ back.reverse := by
    rw [← List.reverse_append, ← hreverse, List.reverse_reverse]
  refine ⟨core.reverse, ⟨front, back.reverse, ?_, hfront, ?_⟩, ?_, ?_⟩
  · rw [List.append_assoc, ← hsplit]
  · simpa using hback
  · intro c hc
    apply hrest c
    rw [hsplit, List.head?_append, Option.mem_def.mp hc]
    rfl
  · rw [List.getLast?_reverse]
    exact hcore

theorem IsTrimmed.eq_trim {p : Char → Bool} {text core : List Char} (h : IsTrimmed p text core) :
    core = trim p text := by
  obtain ⟨⟨front, back, rfl, hfront, hback⟩, hhead, hlast⟩ := h
  cases core with
  | nil =>
    have hall : ∀ c ∈ front ++ [] ++ back, p c = true := by
      intro c hc
      rw [List.append_nil, List.mem_append] at hc
      exact hc.elim (hfront c) (hback c)
    rw [trim, List.dropWhile_eq_nil_iff.mpr hall]
    rfl
  | cons c core =>
    have hback' : ∀ x ∈ back.reverse, p x = true := by simpa using hback
    have hfirst : (front ++ (c :: core) ++ back).dropWhile p = c :: core ++ back := by
      rw [List.append_assoc]
      exact dropWhile_append_ends hfront hhead
    have hsecond : (c :: core ++ back).reverse.dropWhile p = (c :: core).reverse := by
      rw [List.reverse_append]
      refine dropWhile_append_ends hback' ?_
      rw [Ends, List.head?_reverse]
      exact hlast
    rw [trim, hfirst, hsecond, List.reverse_reverse]

/-- Trimming leaves what it should and nothing else is left. -/
theorem isTrimmed_iff {p : Char → Bool} {text core : List Char} :
    IsTrimmed p text core ↔ core = trim p text := by
  constructor
  · exact IsTrimmed.eq_trim
  · rintro rfl
    obtain ⟨core, hcore⟩ := exists_isTrimmed p text
    rwa [← hcore.eq_trim]

end KakaLang.Text

namespace KakaLang.Number

open Text Scan

/-- A digit of a radix, letters in either case. -/
def Radix.isDigit : Radix → Char → Bool
  | .binary, c => '0' ≤ c && c ≤ '1'
  | .octal, c => '0' ≤ c && c ≤ '7'
  | .hexadecimal, c => '0' ≤ c && c ≤ '9' || 'a' ≤ c && c ≤ 'f' || 'A' ≤ c && c ≤ 'F'

def Radix.isMark : Radix → Char → Bool
  | .binary, c => c = 'b' || c = 'B'
  | .octal, c => c = 'o' || c = 'O'
  | .hexadecimal, c => c = 'x' || c = 'X'

def isSign (c : Char) : Bool := c = '+' || c = '-'

def isExponentMark (c : Char) : Bool := c = 'e' || c = 'E'

namespace Form

def sign : Language Char := 1 + oneOf isSign

def digits : Language Char := someOf isAsciiDigit

def point : Language Char := oneOf (· = '.')

/-- Digits before or after a point or both, where the point may only be missing after a digit. -/
def mantissa : Language Char := digits * (1 + point * (oneOf isAsciiDigit)∗) + point * digits

def exponent : Language Char := 1 + oneOf isExponentMark * sign * digits

def decimal : Language Char := sign * mantissa * exponent

def infinite : Language Char := sign * {"Infinity".toList}

def marked (radix : Radix) : Language Char :=
  oneOf (· = '0') * oneOf radix.isMark * someOf radix.isDigit

/-- The texts without gaps at their ends that denote a number. -/
def numeral : Language Char :=
  1 + infinite + (marked .hexadecimal + marked .octal + marked .binary) + decimal

theorem mem_sign {w : List Char} : w ∈ sign ↔ w = [] ∨ ∃ c, isSign c = true ∧ w = [c] := by
  rw [sign, Language.mem_add, Language.mem_one, mem_oneOf]

end Form

/-- Either there is a sign to split off or the text stays as it is. -/
theorem splitSign_cases (text : List Char) :
    (∃ c, isSign c = true ∧ text = c :: (splitSign text).2) ∨
      (Ends isSign text ∧ (splitSign text).2 = text) := by
  rw [splitSign.eq_def]
  split
  · exact .inl ⟨'-', rfl, rfl⟩
  · exact .inl ⟨'+', rfl, rfl⟩
  · rename_i hminus hplus
    refine .inr ⟨?_, rfl⟩
    intro c hc
    obtain ⟨rest, rfl⟩ := List.head?_eq_some_iff.mp hc
    rw [isSign, Bool.or_eq_false_iff, decide_eq_false_iff_not, decide_eq_false_iff_not]
    exact ⟨fun h => hplus rest (by rw [h]), fun h => hminus rest (by rw [h])⟩

namespace Form

/-- A sign is optional before texts that do not start with one. -/
theorem mem_sign_mul {l : Language Char} (hl : ∀ w ∈ l, Ends isSign w) {text : List Char} :
    text ∈ sign * l ↔ (splitSign text).2 ∈ l := by
  rw [Language.mem_mul]
  constructor
  · rintro ⟨before, hbefore, w, hw, rfl⟩
    rcases mem_sign.mp hbefore with rfl | ⟨c, hc, rfl⟩
    · rcases splitSign_cases w with ⟨c, hc, htext⟩ | ⟨-, hrest⟩
      · have hnot := hl w hw c (by rw [htext]; rfl)
        rw [hc] at hnot
        cases hnot
      · rw [List.nil_append, hrest]
        exact hw
    · rcases splitSign_cases ([c] ++ w) with ⟨d, -, htext⟩ | ⟨hends, -⟩
      · rw [← (List.cons.inj htext).2]
        exact hw
      · have hnot := hends c rfl
        rw [hc] at hnot
        cases hnot
  · intro h
    rcases splitSign_cases text with ⟨c, hc, htext⟩ | ⟨-, hrest⟩
    · exact ⟨[c], mem_sign.mpr (.inr ⟨c, hc, rfl⟩), _, h, htext.symm⟩
    · rw [hrest] at h
      exact ⟨[], mem_sign.mpr (.inl rfl), text, h, rfl⟩

end Form

theorem isSign_of_isAsciiDigit {c : Char} (h : isAsciiDigit c = true) : isSign c = false := by
  rw [isAsciiDigit_iff] at h
  rw [isSign, Bool.or_eq_false_iff, decide_eq_false_iff_not, decide_eq_false_iff_not]
  constructor <;> rintro rfl <;> revert h <;> decide

theorem ends_of_mem_digits {w : List Char} {p : Char → Bool}
    (hp : ∀ c, isAsciiDigit c = true → p c = false) (h : w ∈ Form.digits) : Ends p w := by
  intro c hc
  exact hp c ((mem_someOf.mp h).2 c (List.mem_of_mem_head? hc))

theorem Form.mem_exponent {w : List Char} :
    w ∈ exponent ↔ w = [] ∨ ∃ mark rest, isExponentMark mark = true ∧ rest ∈ sign * digits ∧
      w = mark :: rest := by
  rw [exponent, Language.mem_add, Language.mem_one, mul_assoc, mem_oneOf_mul]

namespace Numeral

theorem exponent?_of_not_mark {mark : Char} (h : isExponentMark mark = false)
    (rest : List Char) : exponent? (mark :: rest) = none := by
  have h' : (mark = 'e' || mark = 'E') = false := h
  simp [exponent?, h']

theorem exponent?_of_mark {mark : Char} (h : isExponentMark mark = true) (rest : List Char) :
    (exponent? (mark :: rest)).isSome = true ↔ rest ∈ Form.sign * Form.digits := by
  have h' : (mark = 'e' || mark = 'E') = true := h
  rw [Form.mem_sign_mul fun w => ends_of_mem_digits fun c => isSign_of_isAsciiDigit, Form.digits,
    mem_someOf, exponent?, if_pos h']
  obtain ⟨negative, digits⟩ := splitSign rest
  have hdigits : (digits.isEmpty || !digits.all isAsciiDigit) = false ↔
      digits ≠ [] ∧ ∀ c ∈ digits, isAsciiDigit c = true := by
    simp
  dsimp only
  rw [← hdigits]
  split
  · rename_i hbad
    rw [hbad]
    exact iff_of_false Bool.false_ne_true Bool.false_ne_true.symm
  · rename_i hgood
    exact iff_of_true rfl (Bool.not_eq_true _ ▸ hgood)

/-- An exponent is read just when it is one. -/
theorem isSome_exponent?_iff {text : List Char} :
    (exponent? text).isSome = true ↔ text ∈ Form.exponent := by
  rw [Form.mem_exponent]
  cases text with
  | nil => simp [exponent?]
  | cons mark rest =>
    cases hmark : isExponentMark mark with
    | true => simp [exponent?_of_mark hmark, hmark]
    | false => simp [exponent?_of_not_mark hmark, hmark]

theorem ends_of_mem_exponent {w : List Char} {p : Char → Bool}
    (hp : ∀ c, isExponentMark c = true → p c = false) (h : w ∈ Form.exponent) : Ends p w := by
  rcases Form.mem_exponent.mp h with rfl | ⟨mark, rest, hmark, -, rfl⟩
  · exact fun c hc => nomatch hc
  · rintro c ⟨⟩
    exact hp mark hmark

end Numeral

/-- Digits with or without a point, where one side of the point may be empty. -/
theorem Form.mem_mantissa {w : List Char} :
    w ∈ mantissa ↔ ∃ whole fraction : List Char,
      (∀ c ∈ whole, isAsciiDigit c = true) ∧ (∀ c ∈ fraction, isAsciiDigit c = true) ∧
      (w = whole ∧ whole ≠ [] ∨ w = whole ++ '.' :: fraction ∧ ¬ (whole = [] ∧ fraction = [])) := by
  have hpoint {l : Language Char} {w : List Char} :
      w ∈ point * l ↔ ∃ rest ∈ l, w = '.' :: rest := by
    rw [point, mem_oneOf_mul]
    simp
  have hfraction {w : List Char} :
      w ∈ 1 + point * (oneOf isAsciiDigit)∗ ↔
        w = [] ∨ ∃ fraction : List Char, (∀ c ∈ fraction, isAsciiDigit c = true) ∧
          w = '.' :: fraction := by
    rw [Language.mem_add, Language.mem_one, hpoint]
    simp only [mem_oneOf_kstar]
  rw [mantissa, Language.mem_add, Language.mem_mul, hpoint]
  simp only [hfraction, digits, mem_someOf]
  constructor
  · rintro (⟨whole, ⟨hne, hwhole⟩, rest, rfl | ⟨fraction, hfraction, rfl⟩, rfl⟩ |
      ⟨fraction, ⟨hne, hfraction⟩, rfl⟩)
    · exact ⟨whole, [], hwhole, by simp, .inl ⟨List.append_nil whole, hne⟩⟩
    · exact ⟨whole, fraction, hwhole, hfraction, .inr ⟨rfl, fun h => hne h.1⟩⟩
    · exact ⟨[], fraction, by simp, hfraction, .inr ⟨rfl, fun h => hne h.2⟩⟩
  · rintro ⟨whole, fraction, hwhole, hfraction, ⟨hw, hne⟩ | ⟨rfl, hne⟩⟩
    · exact .inl ⟨whole, ⟨hne, hwhole⟩, [], .inl rfl, by rw [hw, List.append_nil]⟩
    · by_cases hempty : whole = []
      · subst hempty
        exact .inr ⟨fraction, ⟨fun h => hne ⟨rfl, h⟩, hfraction⟩, rfl⟩
      · exact .inl ⟨whole, ⟨hempty, hwhole⟩, _, .inr ⟨fraction, hfraction, rfl⟩, rfl⟩

namespace Numeral

theorem isPlain_of_isExponentMark {c : Char} (h : isExponentMark c = true) :
    isPlain c = false := by
  rw [isExponentMark, Bool.or_eq_true, decide_eq_true_eq, decide_eq_true_eq] at h
  rcases h with rfl | rfl <;> rfl

/-- An unsigned decimal is read just when it is a mantissa with an exponent or without one. -/
theorem isSome_unsigned?_iff (negative : Bool) {text : List Char} :
    (unsigned? negative text).isSome = true ↔ text ∈ Form.mantissa * Form.exponent := by
  rw [Language.mem_mul]
  constructor
  · intro h
    obtain ⟨whole, after, rfl, -, hwhole, hafter⟩ := exists_run isAsciiDigit text
    by_cases hpoint : after.head? = some '.'
    · obtain ⟨beyond, rfl⟩ := List.head?_eq_some_iff.mp hpoint
      obtain ⟨fraction, rest, rfl, -, hfraction, hrest⟩ := exists_run isAsciiDigit beyond
      rw [unsigned?_append_point negative _ hwhole hfraction hrest] at h
      split at h
      · cases h
      · rename_i hne
        rw [Option.isSome_map, isSome_exponent?_iff] at h
        refine ⟨whole ++ '.' :: fraction, ?_, rest, h, by simp⟩
        exact Form.mem_mantissa.mpr ⟨whole, fraction, hwhole, hfraction, .inr ⟨rfl, hne⟩⟩
    · have hplain : ∀ c ∈ after.head?, isPlain c = false := by
        intro c hc
        have hne : c ≠ '.' := by
          rintro rfl
          exact hpoint hc
        simp [isPlain, hafter c hc, hne]
      rw [unsigned?_append negative _ hwhole hplain] at h
      split at h
      · cases h
      · rename_i hne
        rw [Option.isSome_map, isSome_exponent?_iff] at h
        refine ⟨whole, ?_, after, h, rfl⟩
        exact Form.mem_mantissa.mpr ⟨whole, [], hwhole, by simp, .inl ⟨rfl, hne⟩⟩
  · rintro ⟨mantissa, hmantissa, rest, hrest, rfl⟩
    have hplain := ends_of_mem_exponent (fun _ => isPlain_of_isExponentMark) hrest
    have hdigit : Ends isAsciiDigit rest := fun c hc =>
      (Bool.or_eq_false_iff.mp (hplain c hc)).1
    rw [← isSome_exponent?_iff] at hrest
    obtain ⟨whole, fraction, hwhole, hfraction, ⟨rfl, hne⟩ | ⟨rfl, hne⟩⟩ :=
      Form.mem_mantissa.mp hmantissa
    · rw [unsigned?_append negative _ hwhole hplain, if_neg hne, Option.isSome_map]
      exact hrest
    · rw [List.append_assoc, List.cons_append,
        unsigned?_append_point negative _ hwhole hfraction hdigit, if_neg hne, Option.isSome_map]
      exact hrest

theorem ends_sign_of_mem_mantissa {w : List Char} (h : w ∈ Form.mantissa * Form.exponent) :
    Ends isSign w := by
  obtain ⟨mantissa, hmantissa, rest, -, rfl⟩ := Language.mem_mul.mp h
  have hplain : ∃ c cs, mantissa = c :: cs ∧ isPlain c = true := by
    obtain ⟨whole, fraction, hwhole, hfraction, ⟨rfl, hne⟩ | ⟨rfl, -⟩⟩ :=
      Form.mem_mantissa.mp hmantissa
    · obtain ⟨c, cs, rfl⟩ := List.exists_cons_of_ne_nil hne
      exact ⟨c, cs, rfl, by simp [isPlain, hwhole c]⟩
    · cases whole with
      | nil => exact ⟨'.', fraction, rfl, rfl⟩
      | cons c cs => exact ⟨c, cs ++ '.' :: fraction, rfl, by simp [isPlain, hwhole c]⟩
  obtain ⟨c, cs, rfl, hc⟩ := hplain
  rintro d ⟨⟩
  rw [isPlain_iff] at hc
  rw [isSign, Bool.or_eq_false_iff, decide_eq_false_iff_not, decide_eq_false_iff_not]
  constructor <;> rintro rfl <;> revert hc <;> decide

/-- With an optional sign a text is read just when it is an infinity or a decimal. -/
theorem isSome_signed?_iff {text : List Char} :
    (signed? text).isSome = true ↔ text ∈ Form.infinite ∨ text ∈ Form.decimal := by
  have hname : ∀ w ∈ ({infinityName} : Language Char), Ends isSign w := by
    rintro w rfl c ⟨⟩
    rfl
  have hinfinite : text ∈ Form.infinite ↔ (splitSign text).2 = infinityName :=
    Form.mem_sign_mul hname
  rw [hinfinite, Form.decimal, mul_assoc,
    Form.mem_sign_mul fun w => ends_sign_of_mem_mantissa, ← isSome_unsigned?_iff (splitSign text).1,
    signed?]
  obtain ⟨negative, rest⟩ := splitSign text
  dsimp only
  split
  · rename_i hrest
    exact iff_of_true rfl (.inl hrest)
  · rename_i hrest
    exact (or_iff_right hrest).symm

end Numeral

theorem Radix.ofMark?_eq_some_iff {radix : Radix} {c : Char} :
    ofMark? c = some radix ↔ radix.isMark c = true := by
  unfold ofMark?
  by_cases hb : (c = 'b' || c = 'B') = true
  · rw [if_pos hb]
    rw [Bool.or_eq_true, decide_eq_true_eq, decide_eq_true_eq] at hb
    rcases hb with rfl | rfl <;> cases radix <;> decide
  by_cases ho : (c = 'o' || c = 'O') = true
  · rw [if_neg hb, if_pos ho]
    rw [Bool.or_eq_true, decide_eq_true_eq, decide_eq_true_eq] at ho
    rcases ho with rfl | rfl <;> cases radix <;> decide
  by_cases hx : (c = 'x' || c = 'X') = true
  · rw [if_neg hb, if_neg ho, if_pos hx]
    rw [Bool.or_eq_true, decide_eq_true_eq, decide_eq_true_eq] at hx
    rcases hx with rfl | rfl <;> cases radix <;> decide
  · rw [if_neg hb, if_neg ho, if_neg hx]
    cases radix <;> simp_all [isMark]

theorem Radix.isMark_cases {radix : Radix} {c : Char} (h : radix.isMark c = true) :
    c = 'b' ∨ c = 'B' ∨ c = 'o' ∨ c = 'O' ∨ c = 'x' ∨ c = 'X' := by
  cases radix <;>
    (rw [isMark, Bool.or_eq_true, decide_eq_true_eq, decide_eq_true_eq] at h
     tauto)

/-- The value of a digit from its code point. -/
theorem digitValue?_eq_some_iff {radix value : Nat} {c : Char} :
    digitValue? radix c = some value ↔ value < radix ∧
      (48 ≤ c.toNat ∧ c.toNat ≤ 57 ∧ value = c.toNat - 48 ∨
        97 ≤ c.toNat ∧ c.toNat ≤ 102 ∧ value = c.toNat - 87 ∨
        65 ≤ c.toNat ∧ c.toNat ≤ 70 ∧ value = c.toNat - 55) := by
  have hle (a b : Char) : a ≤ b ↔ a.toNat ≤ b.toNat := UInt32.le_iff_toNat_le
  have hzero : '0'.toNat = 48 ∧ '9'.toNat = 57 := ⟨rfl, rfl⟩
  have hlower : 'a'.toNat = 97 ∧ 'f'.toNat = 102 := ⟨rfl, rfl⟩
  have hupper : 'A'.toNat = 65 ∧ 'F'.toNat = 70 := ⟨rfl, rfl⟩
  simp only [digitValue?, Option.filter_eq_some_iff, Bool.and_eq_true, decide_eq_true_eq, hle,
    hzero, hlower, hupper]
  split
  · rw [Option.some.injEq]
    omega
  · split
    · rw [Option.some.injEq]
      omega
    · split
      · rw [Option.some.injEq]
        omega
      · simp only [reduceCtorEq, false_and, false_iff]
        omega

theorem Radix.isSome_digitValue?_iff (radix : Radix) {c : Char} :
    (digitValue? radix.base c).isSome = true ↔ radix.isDigit c = true := by
  have hle (a b : Char) : a ≤ b ↔ a.toNat ≤ b.toNat := UInt32.le_iff_toNat_le
  have hdecimal : '0'.toNat = 48 ∧ '1'.toNat = 49 ∧ '7'.toNat = 55 ∧ '9'.toNat = 57 :=
    ⟨rfl, rfl, rfl, rfl⟩
  have hletters : 'a'.toNat = 97 ∧ 'f'.toNat = 102 ∧ 'A'.toNat = 65 ∧ 'F'.toNat = 70 :=
    ⟨rfl, rfl, rfl, rfl⟩
  rw [Option.isSome_iff_exists]
  simp only [digitValue?_eq_some_iff]
  cases radix <;>
    simp only [isDigit, base, Bool.or_eq_true, Bool.and_eq_true, decide_eq_true_eq, hle, hdecimal,
      hletters]
  · constructor
    · rintro ⟨value, hvalue, h⟩
      omega
    · intro h
      exact ⟨c.toNat - 48, by omega⟩
  · constructor
    · rintro ⟨value, hvalue, h⟩
      omega
    · intro h
      exact ⟨c.toNat - 48, by omega⟩
  · constructor
    · rintro ⟨value, hvalue, h⟩
      omega
    · rintro ((h | h) | h)
      · exact ⟨c.toNat - 48, by omega⟩
      · exact ⟨c.toNat - 87, by omega⟩
      · exact ⟨c.toNat - 55, by omega⟩

theorem isSome_mapM_iff {α β : Type} {f : α → Option β} {l : List α} :
    (l.mapM f).isSome = true ↔ ∀ x ∈ l, (f x).isSome = true := by
  induction l with
  | nil => simp
  | cons x l ih =>
    rw [List.mapM_cons, List.forall_mem_cons, ← ih]
    cases f x with
    | none => simp
    | some y => cases l.mapM f <;> simp

theorem Form.mem_marked {radix : Radix} {w : List Char} :
    w ∈ marked radix ↔ ∃ mark rest, radix.isMark mark = true ∧ rest ∈ someOf radix.isDigit ∧
      w = '0' :: mark :: rest := by
  rw [marked, mul_assoc, mem_oneOf_mul]
  simp only [mem_oneOf_mul, decide_eq_true_eq]
  constructor
  · rintro ⟨_, _, rfl, ⟨mark, rest, hmark, hrest, rfl⟩, rfl⟩
    exact ⟨mark, rest, hmark, hrest, rfl⟩
  · rintro ⟨mark, rest, hmark, hrest, rfl⟩
    exact ⟨'0', _, rfl, ⟨mark, rest, hmark, hrest, rfl⟩, rfl⟩

theorem Form.mem_numeral {w : List Char} :
    w ∈ numeral ↔ w = [] ∨ (∃ radix, w ∈ marked radix) ∨ w ∈ infinite ∨ w ∈ decimal := by
  have hradix : (∃ radix, w ∈ marked radix) ↔
      w ∈ marked .hexadecimal ∨ w ∈ marked .octal ∨ w ∈ marked .binary := by
    constructor
    · rintro ⟨radix, h⟩
      cases radix <;> simp [h]
    · rintro (h | h | h) <;> exact ⟨_, h⟩
  simp only [numeral, Language.mem_add, Language.mem_one, hradix]
  tauto

namespace Numeral

theorem isSome_marked?_iff {radix : Radix} {text : List Char} :
    (marked? radix text).isSome = true ↔ text ∈ someOf radix.isDigit := by
  rw [mem_someOf, marked?]
  cases text with
  | nil => simp
  | cons c cs =>
    rw [List.isEmpty_cons, if_neg Bool.false_ne_true, Option.isSome_map, isSome_mapM_iff]
    simp only [radix.isSome_digitValue?_iff, ne_eq, reduceCtorEq, not_false_eq_true, true_and]

/-- Nothing but digits can follow a radix mark. -/
theorem signed?_of_isMark {radix : Radix} {mark : Char} (h : radix.isMark mark = true)
    (rest : List Char) : signed? ('0' :: mark :: rest) = none := by
  have hmark : isPlain mark = false ∧ isExponentMark mark = false := by
    rcases Radix.isMark_cases h with rfl | rfl | rfl | rfl | rfl | rfl <;> decide
  have hzero : ∀ c ∈ ['0'], isAsciiDigit c = true := by simp [isAsciiDigit]
  have hread := unsigned?_append false (mark :: rest) hzero (by rintro c ⟨⟩; exact hmark.1)
  rw [exponent?_of_not_mark hmark.2] at hread
  rw [signed?_of_isAsciiDigit rfl]
  exact hread

/-- A text without gaps at its ends is read just when it is a numeral. -/
theorem isSome_trimmed?_iff {text : List Char} :
    (trimmed? text).isSome = true ↔ text ∈ Form.numeral := by
  rw [Form.mem_numeral, ← isSome_signed?_iff, trimmed?.eq_def]
  simp only [Form.mem_marked]
  split
  · simp
  · rename_i mark rest
    cases hradix : Radix.ofMark? mark with
    | some radix =>
      have hmark := Radix.ofMark?_eq_some_iff.mp hradix
      rw [signed?_of_isMark hmark, isSome_marked?_iff]
      simp only [reduceCtorEq, Option.isSome_none, Bool.false_eq_true, false_or, or_false]
      constructor
      · intro hrest
        exact ⟨radix, mark, rest, hmark, hrest, rfl⟩
      · rintro ⟨radix', _, _, hmark', hrest, ⟨⟩⟩
        rw [← Radix.ofMark?_eq_some_iff, hradix, Option.some.injEq] at hmark'
        rwa [hmark']
    | none =>
      have hmarked : ¬ ∃ radix : Radix, ∃ mark' rest', radix.isMark mark' = true ∧
          rest' ∈ someOf radix.isDigit ∧ '0' :: mark :: rest = '0' :: mark' :: rest' := by
        rintro ⟨radix, _, _, hmark, -, ⟨⟩⟩
        rw [← Radix.ofMark?_eq_some_iff, hradix] at hmark
        cases hmark
      simp only [reduceCtorEq, hmarked, false_or]
  · rename_i hnil hmark
    have hmarked : ¬ ∃ radix : Radix, ∃ mark rest, radix.isMark mark = true ∧
        rest ∈ someOf radix.isDigit ∧ text = '0' :: mark :: rest := by
      rintro ⟨radix, mark, rest, -, -, htext⟩
      exact hmark mark rest htext
    have hne : text ≠ [] := hnil
    simp only [hne, hmarked, false_or]

end Numeral

/-- A text denotes a number just when a numeral is left of it after white space and byte-order
marks have been removed from both of its ends. -/
theorem reads_exactly_numerals (text : String) :
    ∃ core, (∀ other, IsTrimmed isGap text.toList other ↔ other = core) ∧
      ((read? text).isSome = true ↔ core ∈ Form.numeral) := by
  refine ⟨trim isGap text.toList, fun other => isTrimmed_iff, ?_⟩
  rw [read?, Option.isSome_map, Numeral.ofChars?]
  exact Numeral.isSome_trimmed?_iff

end KakaLang.Number
