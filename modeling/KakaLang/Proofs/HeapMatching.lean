import KakaLang.Proofs.Rendering
import KakaLang.Value.Operation
import Mathlib.Data.List.Forall2

/-!
Values over heaps in which arrays have other places. A relation says which arrays of two heaps stand
for each other. Values match if they are the same but for the arrays they name, and heaps match if
arrays that stand for each other have matching elements. Nothing that operators look at tells such
values apart: their texts, the numbers they count as and which arrays are the same.
-/

namespace KakaLang

/-- Values that are the same, where arrays stand for each other. -/
inductive Value.Matches (rel : ArrayId → ArrayId → Prop) : Value → Value → Prop
  | number (x : Float) : Matches rel (.number x) (.number x)
  | string (s : String) : Matches rel (.string s) (.string s)
  | bool (b : Bool) : Matches rel (.bool b) (.bool b)
  | null : Matches rel .null .null
  | undefined : Matches rel .undefined .undefined
  | array {id id' : ArrayId} (h : rel id id') : Matches rel (.array id) (.array id')
  | function (f : Function) : Matches rel (.function f) (.function f)
  | method (m : ArrayMethod) {id id' : ArrayId} (h : rel id id') :
      Matches rel (.method m id) (.method m id')

/-- No array stands for two, those that stand for each other have matching elements, and those that
are still to be created do so in the order of their creation. -/
structure Heap.Matches (rel : ArrayId → ArrayId → Prop) (heap heap' : Heap) : Prop where
  unique : Relator.BiUnique rel
  elements : ∀ {id id' : ArrayId}, rel id id' →
    List.Forall₂ (Value.Matches rel) (heap.elements id).toList (heap'.elements id').toList
  fresh : ∀ k, rel (heap.size + k) (heap'.size + k)

variable {rel : ArrayId → ArrayId → Prop} {heap heap' : Heap}

/-- Where every array stands for itself, values match only themselves. -/
theorem Value.matches_eq_iff {v v' : Value} : Matches Eq v v' ↔ v = v' := by
  constructor
  · intro h
    cases h with
    | array h => rw [h]
    | method m h => rw [h]
    | _ => rfl
  · rintro rfl
    cases v with
    | array id => exact .array rfl
    | method m id => exact .method m rfl
    | _ => constructor

namespace Heap

theorem matches_self (heap : Heap) : Matches Eq heap heap := by
  have hunique : Relator.BiUnique (Eq : ArrayId → ArrayId → Prop) :=
    ⟨fun _ _ _ h h' => h.trans h'.symm, fun _ _ _ h h' => h.symm.trans h'⟩
  refine ⟨hunique, ?_, fun _ => rfl⟩
  rintro id _ rfl
  exact List.forall₂_same.mpr fun v _ => Value.matches_eq_iff.mpr rfl

theorem eq_of_matches (h : Matches Eq heap heap') : heap' = heap := by
  have hsize : heap.arrays.size = heap'.arrays.size := h.fresh 0
  have helements (id : ArrayId) : heap'.elements id = heap.elements id := by
    have hmatches := h.elements (Eq.refl id)
    have hequal := hmatches.imp fun _ _ hv => Value.matches_eq_iff.mp hv
    rw [List.forall₂_eq_eq_eq] at hequal
    exact (Array.toList_inj.mp hequal).symm
  obtain ⟨arrays⟩ := heap
  obtain ⟨arrays'⟩ := heap'
  congr 1
  refine Array.ext hsize.symm fun i hi hi' => ?_
  have hi_eq := helements i
  simpa [elements, hi, hi'] using hi_eq

theorem elements_alloc (heap : Heap) (elements : Array Value) (id : ArrayId) :
    (heap.alloc elements).2.elements id =
      if id = heap.size then elements else heap.elements id := by
  change (heap.arrays.push elements)[id]?.getD #[] = _
  by_cases hid : id = heap.size
  · rw [if_pos hid, hid, size, Array.getElem?_push_size, Option.getD_some]
  · have hold : (heap.arrays.push elements)[id]? = heap.arrays[id]? := by
      rw [Array.getElem?_push]
      exact if_neg hid
    rw [if_neg hid, hold, Heap.elements]

theorem size_alloc (heap : Heap) (elements : Array Value) :
    (heap.alloc elements).2.size = heap.size + 1 := Array.size_push _

theorem Matches.alloc (h : Matches rel heap heap') {elements elements' : Array Value}
    (helements : List.Forall₂ (Value.Matches rel) elements.toList elements'.toList) :
    Matches rel (heap.alloc elements).2 (heap'.alloc elements').2 := by
  have hnew : rel heap.size heap'.size := h.fresh 0
  refine ⟨h.unique, fun {id id'} hid => ?_, fun k => ?_⟩
  · -- The new arrays stand for each other and so for no older ones.
    have hsame : id = heap.size ↔ id' = heap'.size := Relator.rel_eq h.unique hid hnew
    rw [elements_alloc, elements_alloc]
    by_cases hlast : id = heap.size
    · rwa [if_pos hlast, if_pos (hsame.mp hlast)]
    · rw [if_neg hlast, if_neg (mt hsame.mpr hlast)]
      exact h.elements hid
  · rw [size_alloc, size_alloc, Nat.add_right_comm, Nat.add_right_comm heap'.size]
    exact h.fresh (k + 1)

theorem Matches.size_elements (h : Matches rel heap heap') {id id' : ArrayId} (hid : rel id id') :
    (heap'.elements id').size = (heap.elements id).size := (h.elements hid).length_eq.symm

/-- Elements with the same number match, and so do those that there are not. -/
theorem Matches.element (h : Matches rel heap heap') {id id' : ArrayId} (hid : rel id id')
    (i : Nat) : Value.Matches rel ((heap.elements id)[i]?.getD .undefined)
      ((heap'.elements id')[i]?.getD .undefined) := by
  have helements := h.elements hid
  rw [← Array.getElem?_toList, ← Array.getElem?_toList]
  generalize (heap.elements id).toList = vs at helements
  generalize (heap'.elements id').toList = vs' at helements
  induction helements generalizing i with
  | nil => exact .undefined
  | cons hv _ ih =>
    cases i with
    | zero => exact hv
    | succ i => exact ih i

end Heap

namespace Value

namespace Matches

variable {v v' left left' right right' : Value}

theorem isTruthy (h : Matches rel v v') : v'.isTruthy = v.isTruthy := by
  cases h <;> rfl

theorem isTextual (h : Matches rel v v') : v'.isTextual = v.isTextual := by
  cases h <;> rfl

theorem isVoid (h : Matches rel v v') : v'.isVoid = v.isVoid := by
  cases h <;> rfl

theorem strictEquals (hunique : Relator.BiUnique rel) (hleft : Matches rel left left')
    (hright : Matches rel right right') :
    left'.strictEquals right' = left.strictEquals right := by
  cases hleft with
  | array h =>
    cases hright with
    | array h' =>
      rw [Value.strictEquals, Value.strictEquals, Bool.eq_iff_iff, beq_iff_eq, beq_iff_eq]
      exact (Relator.rel_eq hunique h h').symm
    | _ => rfl
  | _ => cases hright <;> rfl

end Matches

theorem commaJoin_of_forall₂ {texts texts' : Value → String} {elements elements' : Array Value}
    (h : List.Forall₂ (fun v v' => v'.isVoid = v.isVoid ∧ texts' v' = texts v) elements.toList
      elements'.toList) : commaJoin texts' elements' = commaJoin texts elements := by
  unfold commaJoin
  generalize elements.toList = vs at h
  generalize elements'.toList = vs' at h
  congr 1
  induction h with
  | nil => rfl
  | cons hv _ ih => rw [List.map_cons, List.map_cons, ih, hv.1, hv.2]

/-- Paths of arrays that stand for each other lead to the same texts. The path of the first heap
grows by an array at each nesting. -/
theorem IsRendering.matches {render render' : List ArrayId → Value → String}
    (h : IsRendering heap render) (h' : IsRendering heap' render') (hheap : heap.Matches rel heap')
    {path path' : List ArrayId} (hpath : List.Forall₂ rel path path') {v v' : Value}
    (hv : v.Matches rel v') : render' path' v' = render path v := by
  cases hv with
  | @array id id' hid =>
    have hmem : id ∈ path ↔ id' ∈ path' := List.rel_mem hheap.unique hid hpath
    by_cases hagain : id ∈ path
    · rw [h.again path id hagain, h'.again path' id' (hmem.mp hagain)]
    rw [h.elements path id hagain, h'.elements path' id' (mt hmem.mpr hagain)]
    apply commaJoin_of_forall₂
    have helements := (List.forall₂_and_left _ _).mpr ⟨fun v hv => hv, hheap.elements hid⟩
    refine helements.imp fun v v' hv => ⟨hv.2.isVoid, ?_⟩
    have hless := Heap.unopened_cons_lt hv.1 hagain
    exact h.matches h' hheap (.cons hid hpath) hv.2
  | method m _ =>
    rw [h.own path _ (by simp), h'.own path' _ (by simp)]
    rfl
  | _ => rw [h.own path _ (by simp), h'.own path' _ (by simp)]
termination_by heap.unopened path

theorem exists_rendering_text (heap : Heap) :
    ∃ render, IsRendering heap render ∧ ∀ v : Value, v.text heap = render [] v := by
  obtain ⟨render, hrender, hwrite⟩ := exists_rendering heap
  refine ⟨render, hrender, fun v => ?_⟩
  have hdepth := Nat.lt_succ_of_le (heap.unopened_le [])
  rw [text, StateT.run'_eq, hwrite v [] _ hdepth]
  rfl

namespace Matches

variable {v v' left left' right right' : Value}

theorem text (h : Matches rel v v') (hheap : heap.Matches rel heap') :
    v'.text heap' = v.text heap := by
  obtain ⟨render, hrender, htext⟩ := exists_rendering_text heap
  obtain ⟨render', hrender', htext'⟩ := exists_rendering_text heap'
  rw [htext, htext']
  exact hrender.matches hrender' hheap .nil h

theorem toNumber (h : Matches rel v v') (hheap : heap.Matches rel heap') :
    v'.toNumber heap' = v.toNumber heap := by
  cases h with
  | array hid => rw [Value.toNumber, Value.toNumber, (Matches.array hid).text hheap]
  | _ => rfl

theorem order? (hleft : Matches rel left left') (hright : Matches rel right right')
    (hheap : heap.Matches rel heap') : left'.order? heap' right' = left.order? heap right := by
  unfold Value.order?
  rw [hleft.isTextual, hright.isTextual, hleft.text hheap, hright.text hheap,
    hleft.toNumber hheap, hright.toNumber hheap]

theorem onNumbers (f : Float → Float → Float) (hleft : Matches rel left left')
    (hright : Matches rel right right') (hheap : heap.Matches rel heap') :
    Matches rel (BinaryOp.onNumbers f heap left right)
      (BinaryOp.onNumbers f heap' left' right') := by
  unfold BinaryOp.onNumbers
  rw [hleft.toNumber hheap, hright.toNumber hheap]
  exact .number _

theorem onOrder (test : Ordering → Bool) (hleft : Matches rel left left')
    (hright : Matches rel right right') (hheap : heap.Matches rel heap') :
    Matches rel (BinaryOp.onOrder test heap left right)
      (BinaryOp.onOrder test heap' left' right') := by
  unfold BinaryOp.onOrder
  rw [hleft.order? hright hheap]
  exact .bool _

/-- Operators give matching values. -/
theorem apply (op : BinaryOp) (hleft : Matches rel left left') (hright : Matches rel right right')
    (hheap : heap.Matches rel heap') :
    Matches rel (op.apply heap left right) (op.apply heap' left' right') := by
  cases op with
  | add =>
    rw [BinaryOp.apply, BinaryOp.apply, hleft.isTextual, hright.isTextual, hleft.text hheap,
      hright.text hheap]
    split
    · exact .string _
    · exact hleft.onNumbers _ hright hheap
  | equal | notEqual =>
    rw [BinaryOp.apply, BinaryOp.apply, hleft.strictEquals hheap.unique hright]
    exact .bool _
  | less | greater | lessEqual | greaterEqual => exact hleft.onOrder _ hright hheap
  | subtract | multiply | divide | modulo => exact hleft.onNumbers _ hright hheap

end Matches

end Value

end KakaLang
