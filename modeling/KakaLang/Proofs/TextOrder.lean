import KakaLang.Value.Operation
import Mathlib.Order.Compare

/-!
The order of texts by sixteen-bit units, described by characters. A character beyond the basic plane
starts with a unit that lies above every character below the gap of the surrogates and below every
character after it, so two texts part at the first character in which they differ and the order is
lexicographic: characters rank by the side of the gap on which they stand, the long ones between the
sides, and by their code point within. It is a total order, and comparisons of textual values agree
with one another because they all ask for it.
-/

namespace KakaLang.Text

/-- The place of a character among the blocks of the order: those below the surrogates come first,
then those that take two units, then the rest of the basic plane. -/
def block (c : Char) : Nat :=
  if c.toNat < 0xD800 then 0 else if 0x10000 ≤ c.toNat then 1 else 2

/-- Characters by their block, and by their code point inside one. -/
def compareChars : Char → Char → Ordering :=
  compareLex (compareOn block) (compareOn Char.toNat)

theorem compareUnits_cons (a b : Nat) (as bs : List Nat) :
    compareUnits (a :: as) (b :: bs) = (compare a b).then (compareUnits as bs) := by
  rw [compareUnits]
  rcases Nat.lt_trichotomy a b with h | rfl | h
  · simp [h, Nat.compare_eq_lt.mpr h]
  · simp
  · simp [h, Nat.lt_asymm h, Nat.compare_eq_gt.mpr h]

/-- The first unit of a character shows its block. -/
theorem units_lead (c : Char) :
    ∃ lead rest, units c = lead :: rest ∧
      (block c = 0 ∧ lead < 0xD800 ∨ block c = 1 ∧ 0xD800 ≤ lead ∧ lead < 0xE000 ∨
        block c = 2 ∧ 0xE000 ≤ lead) := by
  have hvalid : c.toNat < 0xD800 ∨ 0xDFFF < c.toNat ∧ c.toNat < 0x110000 := c.valid
  by_cases hlong : 0x10000 ≤ c.toNat
  · rw [units, if_neg (Nat.not_lt.mpr hlong), block, if_pos hlong]
    refine ⟨_, _, rfl, ?_⟩
    split <;> omega
  · rw [units, if_pos (Nat.not_le.mp hlong), block, if_neg hlong]
    refine ⟨_, _, rfl, ?_⟩
    split <;> omega

/-- The two units of a long character keep its place among the long ones. -/
theorem compare_long_units {m n : Nat} (hm : 0x10000 ≤ m) (hn : 0x10000 ≤ n) :
    (compare (0xD800 + (m - 0x10000) / 0x400) (0xD800 + (n - 0x10000) / 0x400)).then
      (compare (0xDC00 + (m - 0x10000) % 0x400) (0xDC00 + (n - 0x10000) % 0x400)) =
      compare m n := by
  have hlt {m n : Nat} (hm : 0x10000 ≤ m) (h : m < n) :
      (0xD800 + (m - 0x10000) / 0x400 < 0xD800 + (n - 0x10000) / 0x400) ∨
      (0xD800 + (m - 0x10000) / 0x400 = 0xD800 + (n - 0x10000) / 0x400 ∧
        0xDC00 + (m - 0x10000) % 0x400 < 0xDC00 + (n - 0x10000) % 0x400) := by
    omega
  rcases Nat.lt_trichotomy m n with h | rfl | h
  · rw [Nat.compare_eq_lt.mpr h, Ordering.then_eq_lt, Nat.compare_eq_lt, Nat.compare_eq_eq,
      Nat.compare_eq_lt]
    exact hlt hm h
  · rw [Nat.compare_eq_eq.mpr rfl, Nat.compare_eq_eq.mpr rfl, Nat.compare_eq_eq.mpr rfl]
    rfl
  · rw [Nat.compare_eq_gt.mpr h, Ordering.then_eq_gt, Nat.compare_eq_gt, Nat.compare_eq_eq,
      Nat.compare_eq_gt]
    exact (hlt hn h).imp id (And.imp_left Eq.symm)

/-- Characters of one block take equally many units, which are in the order of the code points. -/
theorem compareUnits_of_block_eq {a b : Char} (h : block a = block b) (as bs : List Nat) :
    compareUnits (units a ++ as) (units b ++ bs) =
      (compare a.toNat b.toNat).then (compareUnits as bs) := by
  have hsame : 0x10000 ≤ a.toNat ↔ 0x10000 ≤ b.toNat := by
    unfold block at h
    split_ifs at h <;> omega
  by_cases hlong : 0x10000 ≤ a.toNat
  · have hlong' := hsame.mp hlong
    rw [units, units, if_neg (Nat.not_lt.mpr hlong), if_neg (Nat.not_lt.mpr hlong')]
    simp only [List.cons_append, List.nil_append, compareUnits_cons]
    rw [← compare_long_units hlong hlong', Ordering.then_assoc]
  · have hlong' : ¬ 0x10000 ≤ b.toNat := fun h => hlong (hsame.mpr h)
    rw [units, units, if_pos (Nat.not_le.mp hlong), if_pos (Nat.not_le.mp hlong')]
    exact compareUnits_cons _ _ as bs

/-- The units of the first characters decide unless the characters are the same. -/
theorem compareUnits_units_append (a b : Char) (as bs : List Nat) :
    compareUnits (units a ++ as) (units b ++ bs) =
      (compareChars a b).then (compareUnits as bs) := by
  rw [compareChars, compareLex, compareOn, compareOn]
  obtain ⟨lead, rest, hunits, hlead⟩ := units_lead a
  obtain ⟨lead', rest', hunits', hlead'⟩ := units_lead b
  rcases Nat.lt_trichotomy (block a) (block b) with h | h | h
  · have hunit : lead < lead' := by omega
    rw [hunits, hunits', List.cons_append, List.cons_append, compareUnits_cons,
      Nat.compare_eq_lt.mpr hunit, Nat.compare_eq_lt.mpr h]
    rfl
  · rw [compareUnits_of_block_eq h, Nat.compare_eq_eq.mpr h]
    rfl
  · have hunit : lead' < lead := by omega
    rw [hunits, hunits', List.cons_append, List.cons_append, compareUnits_cons,
      Nat.compare_eq_gt.mpr hunit, Nat.compare_eq_gt.mpr h]
    rfl

theorem compareUnits_encoded (s t : List Char) :
    compareUnits (s.flatMap units) (t.flatMap units) = List.compareLex compareChars s t := by
  induction s generalizing t with
  | nil =>
    cases t with
    | nil => rfl
    | cons b t =>
      obtain ⟨lead, rest, hunits, -⟩ := units_lead b
      rw [List.flatMap_cons, hunits]
      rfl
  | cons a s ih =>
    cases t with
    | nil =>
      obtain ⟨lead, rest, hunits, -⟩ := units_lead a
      rw [List.flatMap_cons, hunits]
      rfl
    | cons b t =>
      rw [List.flatMap_cons, List.flatMap_cons, compareUnits_units_append, ih,
        List.compareLex_cons_cons]

/-- Texts are in lexicographic order. -/
theorem compareText_eq (l r : String) :
    compareText l r = List.compareLex compareChars l.toList r.toList :=
  compareUnits_encoded l.toList r.toList

instance : Std.TransCmp compareChars := inferInstanceAs (Std.TransCmp (compareLex _ _))

instance : Std.LawfulEqCmp compareChars where
  compare_self := Std.ReflCmp.compare_self
  eq_of_compare {a b} h := by
    have hpoint : compare a.toNat b.toNat = .eq := (compareLex_eq_eq.mp h).2
    exact Char.toNat_inj.mp (Nat.compare_eq_eq.mp hpoint)

instance : Std.TransCmp compareText where
  eq_swap {l r} := by
    rw [compareText_eq, compareText_eq]
    exact Std.OrientedCmp.eq_swap
  isLE_trans {l m r} hlm hmr := by
    rw [compareText_eq] at hlm hmr ⊢
    exact Std.TransCmp.isLE_trans hlm hmr

instance : Std.LawfulEqCmp compareText where
  compare_self := Std.ReflCmp.compare_self
  eq_of_compare {l r} h := by
    rw [compareText_eq] at h
    exact String.toList_inj.mp (Std.LawfulEqCmp.eq_of_compare h)

end KakaLang.Text

namespace KakaLang

namespace Value

theorem order?_of_isTextual {left right : Value} (hleft : left.isTextual = true)
    (hright : right.isTextual = true) (heap : Heap) :
    left.order? heap right = some (Text.compareText (left.text heap) (right.text heap)) := by
  simp [order?, hleft, hright]

theorem order?_swap {left right : Value} (hleft : left.isTextual = true)
    (hright : right.isTextual = true) (heap : Heap) :
    right.order? heap left = (left.order? heap right).map Ordering.swap := by
  rw [order?_of_isTextual hleft hright, order?_of_isTextual hright hleft, Option.map_some]
  exact congrArg some Std.OrientedCmp.eq_swap

end Value

namespace BinaryOp

/-- A test of the order is the mirrored test the other way round. -/
theorem onOrder_swap {left right : Value} (hleft : left.isTextual = true)
    (hright : right.isTextual = true) (heap : Heap) {test mirrored : Ordering → Bool}
    (h : ∀ o, mirrored o.swap = test o) :
    onOrder test heap left right = onOrder mirrored heap right left := by
  rw [onOrder, onOrder, Value.order?_swap hleft hright, Option.any_map]
  exact congrArg (fun t => Value.bool ((left.order? heap right).any t)) (funext h).symm

/-- Textual values always have an order, so they satisfy a test or its opposite. -/
theorem onOrder_not {left right : Value} (hleft : left.isTextual = true)
    (hright : right.isTextual = true) (heap : Heap) {test opposite : Ordering → Bool}
    (h : ∀ o, test o = !opposite o) :
    onOrder test heap left right = .bool (!(onOrder opposite heap left right).isTruthy) := by
  rw [onOrder, onOrder, Value.order?_of_isTextual hleft hright]
  exact congrArg Value.bool (h _)

end BinaryOp

namespace Text

/-- Texts are ordered lexicographically with the long characters between the two sides of the gap.
The order is total, texts are equal in it only if they are the same, and the four comparisons of
textual values all follow it. -/
theorem texts_ordered_by_blocks :
    (∀ l r, compareText l r = List.compareLex compareChars l.toList r.toList) ∧
    (∀ l r, compareText r l = (compareText l r).swap) ∧
    (∀ l m r, (compareText l m).isLE = true → (compareText m r).isLE = true →
      (compareText l r).isLE = true) ∧
    (∀ l r, compareText l r = .eq ↔ l = r) ∧
    ∀ (heap : Heap) (a b : Value), a.isTextual = true → b.isTextual = true →
      BinaryOp.less.apply heap a b = BinaryOp.greater.apply heap b a ∧
      BinaryOp.lessEqual.apply heap a b = BinaryOp.greaterEqual.apply heap b a ∧
      BinaryOp.lessEqual.apply heap a b =
        .bool (!(BinaryOp.greater.apply heap a b).isTruthy) ∧
      BinaryOp.greaterEqual.apply heap a b =
        .bool (!(BinaryOp.less.apply heap a b).isTruthy) := by
  refine ⟨compareText_eq, fun l r => Std.OrientedCmp.eq_swap,
    fun l m r => Std.TransCmp.isLE_trans, fun l r => Std.LawfulEqCmp.compare_eq_iff_eq, ?_⟩
  intro heap a b ha hb
  have hgreater (o : Ordering) : o.isLE = !o.isGT := by cases o <;> rfl
  have hless (o : Ordering) : o.isGE = !o.isLT := by cases o <;> rfl
  exact ⟨BinaryOp.onOrder_swap ha hb heap fun _ => Ordering.isGT_swap,
    BinaryOp.onOrder_swap ha hb heap fun _ => Ordering.isGE_swap,
    BinaryOp.onOrder_not ha hb heap hgreater, BinaryOp.onOrder_not ha hb heap hless⟩

/-- A long character comes before one at the end of the basic plane, although its code point is
larger, also when it is an element of an array. -/
theorem texts_ordered_by_blocks_long :
    let heap : Heap := ⟨#[#[.string "😀"]]⟩
    compareText "😀" "｡" = .lt ∧
      BinaryOp.greater.apply heap (.string "｡") (.array 0) = .bool true := by
  intro heap
  obtain ⟨hlexicographic, -, -, -, hvalues⟩ := texts_ordered_by_blocks
  obtain ⟨hless, -⟩ := hvalues heap (.array 0) (.string "｡") rfl rfl
  constructor
  · rw [hlexicographic]
    decide
  · have horder : ((Value.array 0).order? heap (.string "｡")).any Ordering.isLT = true := by
      decide +kernel
    rw [← hless]
    exact congrArg Value.bool horder

end Text

end KakaLang
