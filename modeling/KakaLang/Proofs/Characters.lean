import KakaLang.Token.Scan

/-!
The classes of characters as ranges of code points, and how they exclude each other: a word starts
with no digit, and nothing that separates words is part of one.
-/

namespace KakaLang.Text

theorem isAsciiDigit_iff {c : Char} : isAsciiDigit c = true ↔ 48 ≤ c.toNat ∧ c.toNat ≤ 57 := by
  simp only [isAsciiDigit, Bool.and_eq_true, decide_eq_true_eq, Char.le_def, UInt32.le_iff_toNat_le]
  rfl

theorem isBengaliDigit_iff {c : Char} :
    isBengaliDigit c = true ↔ 0x9E6 ≤ c.toNat ∧ c.toNat ≤ 0x9EF := by
  simp only [isBengaliDigit, Bool.and_eq_true, decide_eq_true_eq]

end KakaLang.Text

namespace KakaLang.Scan

open Text

theorem isAsciiLetter_iff {c : Char} :
    isAsciiLetter c = true ↔
      97 ≤ c.toNat ∧ c.toNat ≤ 122 ∨ 65 ≤ c.toNat ∧ c.toNat ≤ 90 := by
  simp only [isAsciiLetter, Bool.or_eq_true, Bool.and_eq_true, decide_eq_true_eq, Char.le_def,
    UInt32.le_iff_toNat_le]
  rfl

theorem isBengali_iff {c : Char} : isBengali c = true ↔ 0x980 ≤ c.toNat ∧ c.toNat ≤ 0x9FF := by
  simp only [isBengali, Bool.and_eq_true, decide_eq_true_eq]

theorem isWordStart_iff {c : Char} :
    isWordStart c = true ↔
      (97 ≤ c.toNat ∧ c.toNat ≤ 122 ∨ 65 ≤ c.toNat ∧ c.toNat ≤ 90) ∨ c.toNat = 95 ∨
        0x980 ≤ c.toNat ∧ c.toNat ≤ 0x9FF ∧ ¬ (0x9E6 ≤ c.toNat ∧ c.toNat ≤ 0x9EF) := by
  have hunderscore : c = '_' ↔ c.toNat = 95 := by
    rw [← Char.toNat_inj]
    rfl
  simp only [isWordStart, Bool.or_eq_true, Bool.and_eq_true, decide_eq_true_eq, isAsciiLetter_iff,
    isBengali_iff, hunderscore, Bool.not_eq_true', ← Bool.not_eq_true, isBengaliDigit_iff, or_assoc,
    and_assoc]

theorem isWordPart_iff {c : Char} :
    isWordPart c = true ↔
      (97 ≤ c.toNat ∧ c.toNat ≤ 122 ∨ 65 ≤ c.toNat ∧ c.toNat ≤ 90) ∨
        (48 ≤ c.toNat ∧ c.toNat ≤ 57) ∨ c.toNat = 95 ∨ 0x980 ≤ c.toNat ∧ c.toNat ≤ 0x9FF := by
  have hunderscore : c = '_' ↔ c.toNat = 95 := by
    rw [← Char.toNat_inj]
    rfl
  simp only [isWordPart, Bool.or_eq_true, decide_eq_true_eq, isAsciiLetter_iff, isAsciiDigit_iff,
    isBengali_iff, hunderscore, or_assoc]

theorem not_isDigit_of_isWordStart {c : Char} (h : isWordStart c = true) : isDigit c = false := by
  rw [isWordStart_iff] at h
  rw [isDigit, Bool.or_eq_false_iff, ← Bool.not_eq_true, ← Bool.not_eq_true, isAsciiDigit_iff,
    isBengaliDigit_iff]
  omega

end KakaLang.Scan
