import KakaLang.Proofs.NumeralRoundTrip
import KakaLang.Proofs.Rendering

/-!
Numbers as program output and back. Whether the digits of a number are written positionally or with
an exponent, they denote the shortest decimal of the number, and that lies in the interval of the
reals that round to it; so what is read back is the number itself, except that both zeros are
written alike. The exponent of a finite number is far too small to be cut short.
-/

namespace KakaLang.Number

open Text

namespace Numeral

/-- Digits that stay below the limit are all read. -/
theorem foldl_exponentSize {digits : List Char} {size : ℕ}
    (h : Nat.ofDigitChars 10 digits size < 0x10000) :
    digits.foldl (fun size c => if size < 0x10000 then appendDecimal size c else size) size =
      Nat.ofDigitChars 10 digits size := by
  induction digits generalizing size with
  | nil => rfl
  | cons c digits ih =>
    rw [Nat.ofDigitChars_cons] at h ⊢
    have hsize : size < 0x10000 := by
      have hle : 10 * size ≤ Nat.ofDigitChars 10 digits (10 * size + (c.toNat - '0'.toNat)) := by
        rw [Nat.ofDigitChars_eq_ofDigitChars_zero]
        have hpower : 0 < 10 ^ digits.length := Nat.pow_pos (by decide)
        nlinarith
      omega
    rw [List.foldl_cons, if_pos hsize]
    exact ih h

theorem exponentSize_toDigits {n : ℕ} (h : n < 0x10000) :
    exponentSize (Nat.toDigits 10 n) = n := by
  have hvalue : Nat.ofDigitChars 10 (Nat.toDigits 10 n) 0 = n := Nat.ofDigitChars_ten_toDigits
  rw [exponentSize, foldl_exponentSize (by rw [hvalue]; exact h), hvalue]

/-- A written exponent is read back. -/
theorem exponent?_written {k : ℤ} (h : k.natAbs < 0x10000) :
    exponent? ('e' :: (if k < 0 then '-' else '+') :: Nat.toDigits 10 k.natAbs) = some k := by
  have hempty : (Nat.toDigits 10 k.natAbs).isEmpty = false := by simp
  have hall : (Nat.toDigits 10 k.natAbs).all isAsciiDigit = true :=
    List.all_eq_true.mpr (toDigits_isAsciiDigit _)
  have hsize := exponentSize_toDigits h
  by_cases hk : k < 0
  · simp only [exponent?, splitSign, hk, if_true, hempty, hall, hsize, decide_true, Bool.true_or,
      Bool.not_true, Bool.or_self, Bool.false_eq_true, if_false, Option.some.injEq]
    omega
  · simp only [exponent?, splitSign, hk, if_true, hempty, hall, hsize, decide_true, Bool.true_or,
      Bool.not_true, Bool.or_self, Bool.false_eq_true, if_false, Option.some.injEq]
    omega

end Numeral

/-- A text that is read as a decimal of a value, whatever sign stands before it. -/
structure Denotes (body : List Char) (q : ℚ) : Prop where
  first : ∃ c cs, body = c :: cs ∧ isAsciiDigit c = true ∧ ∀ mark ∈ cs.head?,
    Radix.ofMark? mark = none
  noGap : ∀ c ∈ body, isGap c = false
  reads : ∃ digits k, (∀ c ∈ digits, isAsciiDigit c = true) ∧
    (Nat.ofDigitChars 10 digits 0 : ℚ) * 10 ^ k = q ∧
    ∀ negative, Numeral.unsigned? negative body = some (.decimal negative digits k)

namespace Denotes

variable {body : List Char} {q : ℚ}

/-- A minus sign before the text makes the same decimal negative. -/
theorem ofChars?_eq (h : Denotes body q) (negative : Bool) :
    Numeral.ofChars? (if negative then '-' :: body else body) =
      Numeral.unsigned? negative body := by
  have htrim (text : List Char) (htext : ∀ c ∈ text, isGap c = false) :
      Numeral.ofChars? text = Numeral.trimmed? text := by
    rw [Numeral.ofChars?, trim_eq_self htext]
  obtain ⟨c, cs, rfl, hc, hmark⟩ := h.first
  cases negative with
  | true =>
    have hname : c :: cs ≠ Numeral.infinityName := by
      intro h
      exact Numeral.ne_of_isAsciiDigit hc (d := 'I') rfl (List.cons.inj h).1
    have hgap : ∀ x ∈ '-' :: c :: cs, isGap x = false :=
      List.forall_mem_cons.mpr ⟨by decide, h.noGap⟩
    rw [if_pos rfl, htrim _ hgap]
    exact if_neg hname
  | false =>
    rw [if_neg Bool.false_ne_true, htrim _ h.noGap, ← Numeral.signed?_of_isAsciiDigit hc,
      Numeral.trimmed?.eq_def]
    split
    · rename_i h
      cases h
    · rename_i mark rest h
      obtain ⟨rfl, rfl⟩ := List.cons.inj h
      rw [hmark mark rfl]
    · rfl

/-- A text that denotes a value in the interval of a word is read as that word. -/
theorem read?_eq (h : Denotes body q) {word : ℕ} (hpos : 0 < word) (hfinite : word < infinityWord)
    (hq : (Interval.ofWord word).Contains q) (negative : Bool) :
    read? (String.ofList (if negative then '-' :: body else body)) =
      some (ofWord negative word) := by
  obtain ⟨digits, k, hdigits, rfl, hread⟩ := h.reads
  rw [read?, String.toList_ofList, h.ofChars?_eq, hread]
  exact congrArg some (ofDecimal_eq hpos hfinite hdigits hq)

end Denotes

theorem isGap_of_isAsciiDigit {c : Char} (h : isAsciiDigit c = true) : isGap c = false :=
  isGap_of_isPlain (by rw [isPlain, h, Bool.true_or])

namespace Decimal

theorem denotes_positional (d : Decimal) : Denotes d.positional d.value := by
  obtain ⟨whole, fraction, hne, hdigits, hvalue, htext⟩ := d.positional_eq
  have hwhole : ∀ c ∈ whole, isAsciiDigit c = true := fun c hc => hdigits c (by simp [hc])
  have hfraction : ∀ c ∈ fraction, isAsciiDigit c = true := fun c hc => hdigits c (by simp [hc])
  obtain ⟨c, cs, hbody, hc, hcs⟩ := IsPlainText.of_digits hne hdigits htext
  refine ⟨⟨c, cs, hbody, hc, ?_⟩, ?_, whole ++ fraction, -fraction.length, hdigits, hvalue, ?_⟩
  · intro mark hmark
    exact ofMark?_of_isPlain (hcs mark (List.mem_of_mem_head? hmark))
  · rw [hbody]
    refine List.forall_mem_cons.mpr ⟨isGap_of_isAsciiDigit hc, ?_⟩
    exact fun x hx => isGap_of_isPlain (hcs x hx)
  · intro negative
    rcases htext with htext | ⟨htext, rfl⟩
    · rw [htext]
      exact Numeral.unsigned?_point hwhole hfraction hne
    · rw [htext, List.append_nil, Numeral.unsigned?_whole hwhole hne]
      rfl

/-- The exponent as it is written after the digits. -/
def exponentChars (k : ℤ) : List Char :=
  'e' :: (if k < 0 then '-' else '+') :: Nat.toDigits 10 k.natAbs

theorem isGap_exponentChars (k : ℤ) : ∀ c ∈ exponentChars k, isGap c = false := by
  have hdigits : ∀ c ∈ Nat.toDigits 10 k.natAbs, isGap c = false := fun c hc =>
    isGap_of_isAsciiDigit (toDigits_isAsciiDigit _ c hc)
  refine List.forall_mem_cons.mpr ⟨by decide, List.forall_mem_cons.mpr ⟨?_, hdigits⟩⟩
  split <;> decide

/-- With an exponent the digits are the same, and the exponent makes up for the point after the
first of them. -/
theorem denotes_scientific {d : Decimal} (h : d.leadingExponent.natAbs < 0x10000) :
    Denotes d.scientific d.value := by
  have hall := d.digitChars_isAsciiDigit
  have hvalue := d.ofDigitChars_digitChars
  have hexponent := Numeral.exponent?_written h
  have htail := isGap_exponentChars d.leadingExponent
  have hne : d.digitChars ≠ [] := Nat.toDigits_ne_nil
  obtain ⟨digit, fraction, hdigits⟩ := List.exists_cons_of_ne_nil hne
  have hplace : d.leadingExponent - fraction.length = d.exponent := by
    rw [leadingExponent, hdigits, List.length_cons]
    omega
  rw [hdigits, List.forall_mem_cons] at hall
  have hfirst : ∀ c ∈ [digit], isAsciiDigit c = true := by simpa using hall.1
  cases fraction with
  | nil =>
    have htext : d.scientific = [digit] ++ exponentChars d.leadingExponent := by
      rw [scientific, hdigits]
      rfl
    rw [htext]
    refine ⟨⟨digit, _, rfl, hall.1, ?_⟩, ?_, [digit], d.exponent, hfirst, ?_, fun negative => ?_⟩
    · rintro mark ⟨⟩
      rfl
    · exact List.forall_mem_cons.mpr ⟨isGap_of_isAsciiDigit hall.1, htail⟩
    · rw [← hdigits, hvalue]
      rfl
    · rw [Numeral.unsigned?_append negative _ hfirst (by rintro c ⟨⟩; rfl),
        if_neg (List.cons_ne_nil _ _), exponentChars, hexponent, ← hplace]
      simp
  | cons next fraction =>
    have htext : d.scientific =
        [digit] ++ '.' :: (next :: fraction ++ exponentChars d.leadingExponent) := by
      rw [scientific, hdigits]
      rfl
    rw [htext]
    refine ⟨⟨digit, _, rfl, hall.1, ?_⟩, ?_, digit :: next :: fraction, d.exponent,
      List.forall_mem_cons.mpr hall, ?_, fun negative => ?_⟩
    · rintro mark ⟨⟩
      rfl
    · refine List.forall_mem_cons.mpr ⟨isGap_of_isAsciiDigit hall.1,
        List.forall_mem_cons.mpr ⟨by decide, List.forall_mem_append.mpr ⟨?_, htail⟩⟩⟩
      exact fun c hc => isGap_of_isAsciiDigit (hall.2 c hc)
    · rw [← hdigits, hvalue]
      rfl
    · rw [Numeral.unsigned?_append_point negative _ hfirst hall.2 (by rintro c ⟨⟩; rfl),
        if_neg fun h => List.cons_ne_nil _ _ h.1, exponentChars, hexponent, ← hplace]
      rfl

/-- The digits of a positive number start at its leading place. -/
theorem digitChars_length_bounds {d : Decimal} (h : 0 < d.digits) :
    10 ^ (d.digitChars.length - 1) ≤ d.digits ∧
      d.digits < 10 ^ (d.digitChars.length - 1 + 1) := by
  have hpos : 0 < d.digitChars.length := Nat.length_toDigits_pos
  rw [Nat.sub_add_cancel hpos]
  constructor
  · by_cases hone : d.digitChars.length - 1 = 0
    · rw [hone]
      exact h
    · by_contra hless
      have hshort : d.digitChars.length ≤ d.digitChars.length - 1 :=
        (Nat.length_toDigits_le_iff (by decide) (Nat.pos_of_ne_zero hone)).mpr
          (Nat.not_le.mp hless)
      omega
  · exact (Nat.length_toDigits_le_iff (by decide) hpos).mp le_rfl

/-- The exponent of a finite number has at most three digits. -/
theorem leadingExponent_bound {d : Decimal} {word : ℕ} (hpos : 0 < word)
    (hfinite : word < infinityWord) (h : (Interval.ofWord word).Contains d.value) :
    d.leadingExponent.natAbs < 1000 := by
  have hd := Dyadic.isWord_ofWord hpos hfinite
  obtain ⟨gap, hspan⟩ := Interval.spans_ofWord hpos hfinite
  have hdigits : 0 < d.digits := by
    have hvalue := hspan.pos hd h
    by_contra hzero
    rw [Decimal.value, Nat.eq_zero_of_not_pos hzero] at hvalue
    simp at hvalue
  obtain ⟨hlow, hhigh⟩ := hspan.ten_bounds hd h
  obtain ⟨hleast, hgreatest⟩ := digitChars_length_bounds hdigits
  have hplace := length_bounds hleast hgreatest hlow hhigh
  have hlength : 0 < d.digitChars.length := Nat.length_toDigits_pos
  rw [leadingExponent]
  omega

theorem denotes_render {d : Decimal} (h : d.leadingExponent.natAbs < 1000) (layout : Layout) :
    Denotes (layout.render d) d.value := by
  rw [Layout.render]
  split
  · exact d.denotes_positional
  · exact denotes_scientific (by omega)

end Decimal

theorem text_of_zero {x : Float} (h : magnitude x = 0) : text x = "0" := by
  rw [text, h]
  rfl

theorem text_of_infinite {x : Float} (h : magnitude x = infinityWord) :
    text x = if isNegative x then "-Infinity" else "Infinity" := by
  rw [text, h]
  cases isNegative x <;> rfl

theorem text_of_finite {x : Float} (hpos : 0 < magnitude x) (hfinite : magnitude x < infinityWord) :
    text x = String.ofList (if isNegative x then '-' :: outputLayout.render (shortest (magnitude x))
      else outputLayout.render (shortest (magnitude x))) := by
  simp only [text, hfinite.not_gt, hfinite.ne, hpos.ne', if_false]

theorem text_of_isNaN {x : Float} (h : x.isNaN = true) : text x = "NaN" := by
  rw [isNaN_iff] at h
  rw [text]
  exact if_pos h

/-- A number is read back from its text, and both zeros as the positive one. -/
theorem read?_text {x : Float} (h : x.isNaN = false) : read? (text x) = some (unsignedZero x) := by
  have hnumber : magnitude x ≤ infinityWord := by
    by_contra hnan
    rw [isNaN_iff.mpr (Nat.not_le.mp hnan)] at h
    cases h
  rw [unsignedZero]
  by_cases hzero : magnitude x = 0
  · rw [text_of_zero hzero, if_pos hzero]
    decide +kernel
  rw [if_neg hzero]
  by_cases hinfinite : magnitude x = infinityWord
  · have hx : x = infinity (isNegative x) := by
      rw [infinity, ← hinfinite, ofWord_magnitude]
    rw [text_of_infinite hinfinite]
    conv_rhs => rw [hx]
    cases isNegative x <;> decide +kernel
  · have hpos : 0 < magnitude x := Nat.pos_of_ne_zero hzero
    have hfinite : magnitude x < infinityWord := lt_of_le_of_ne hnumber hinfinite
    have hcontains := shortest_contains hpos hfinite
    have hbound := Decimal.leadingExponent_bound hpos hfinite hcontains
    rw [text_of_finite hpos hfinite,
      (Decimal.denotes_render hbound outputLayout).read?_eq hpos hfinite hcontains,
      ofWord_magnitude]

/-- What is not a number is not read as one. -/
theorem read?_text_of_isNaN {x : Float} (h : x.isNaN = true) : read? (text x) = none := by
  rw [text_of_isNaN h]
  decide +kernel

theorem getD_read?_text (x : Float) : (read? (text x)).getD notANumber = unsignedZero x := by
  cases h : x.isNaN with
  | false => rw [read?_text h, Option.getD_some]
  | true =>
    have hword := isNaN_iff.mp h
    have hzero : magnitude x ≠ 0 := by omega
    rw [read?_text_of_isNaN h, unsignedZero, if_neg hzero, Option.getD_none, eq_notANumber hword]

end KakaLang.Number

namespace KakaLang.Value

/-- An array with a number as its only element is written as that number. -/
theorem text_of_single {heap : Heap} {id : ArrayId} {x : Float}
    (h : heap.elements id = #[.number x]) : (Value.array id).text heap = Number.text x := by
  have hmem : Value.number x ∈ (heap.elements id).toList := by simp [h]
  obtain ⟨depth, hdepth⟩ := Nat.exists_eq_succ_of_ne_zero
    (Nat.ne_zero_of_lt (Heap.lt_size_of_mem hmem))
  have hwrite : ((Value.array id).write heap (heap.size + 1)).run [] =
      some (commaJoin ownText (heap.elements id), []) := by
    refine run_write_elements List.not_mem_nil fun element helement => ?_
    have hnumber : element = .number x := by simpa [h] using helement
    rw [hdepth, hnumber]
    exact run_write_own (by simp)
  rw [text, StateT.run'_eq, hwrite, h]
  rfl

/-- Every number is read back from its text, both zeros as the positive one, and not-a-number is not
read at all. So a number that was turned into text counts as the same number again, also when it is
the only element of an array. -/
theorem numbers_survive_text :
    (∀ x : Float, x.isNaN = false → Number.read? (Number.text x) = some (Number.unsignedZero x)) ∧
    (∀ x : Float, x.isNaN = true → Number.read? (Number.text x) = none) ∧
    ∀ (heap : Heap) (x : Float),
      (Value.string ((Value.number x).text heap)).toNumber heap = Number.unsignedZero x ∧
      ∀ id, heap.elements id = #[.number x] →
        (Value.array id).toNumber heap = Number.unsignedZero x := by
  refine ⟨fun x => Number.read?_text, fun x => Number.read?_text_of_isNaN, fun heap x => ⟨?_, ?_⟩⟩
  · exact Number.getD_read?_text x
  · intro id h
    rw [toNumber, text_of_single h]
    exact Number.getD_read?_text x

/-- The negative number next to zero. -/
theorem numbers_survive_text_least :
    let x := Number.ofWord true 1
    let heap : Heap := ⟨#[#[.number x]]⟩
    Number.text x = "-5e-324" ∧ Number.read? "-5e-324" = some x ∧
      (Value.array 0).toNumber heap = x := by
  intro x heap
  have htext : Number.text x = "-5e-324" := by decide +kernel
  have hsame : Number.unsignedZero x = x := by decide +kernel
  obtain ⟨hread, -, hvalues⟩ := numbers_survive_text
  have hback := hread x (by decide +kernel)
  have harray := (hvalues heap x).2 0 rfl
  rw [htext, hsame] at hback
  rw [hsame] at harray
  exact ⟨htext, hback, harray⟩

end KakaLang.Value
