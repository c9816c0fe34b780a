import KakaLang.Value.Text
import Mathlib.Data.Finset.Card
import Mathlib.Logic.Relation

/-!
Writing values whose arrays share elements and contain one another. The arrays that are open while
a value is written are the ones around it, so writing always comes to an end, gives the list of open
arrays back as it was, and leaves out exactly the arrays that lie inside themselves. Where no array
does, the list makes no difference, however many arrays share an element.
-/

namespace KakaLang

namespace Heap

/-- How many arrays can still be opened. -/
def unopened (heap : Heap) (opened : List ArrayId) : Nat :=
  ((Finset.range heap.size).filter (· ∉ opened)).card

/-- The first array has the second one as an element. -/
def Holds (heap : Heap) (outer inner : ArrayId) : Prop :=
  .array inner ∈ (heap.elements outer).toList

theorem unopened_le (heap : Heap) (opened : List ArrayId) : heap.unopened opened ≤ heap.size := by
  have hcard := Finset.card_filter_le (Finset.range heap.size) (· ∉ opened)
  rwa [Finset.card_range] at hcard

theorem lt_size_of_mem {heap : Heap} {id : ArrayId} {element : Value}
    (h : element ∈ (heap.elements id).toList) : id < heap.size := by
  by_contra hsize
  have hnone : heap.arrays[id]? = none := Array.getElem?_eq_none (Nat.not_lt.mp hsize)
  simp [elements, hnone] at h

/-- Only an array that is in use has elements, so each one that is opened for them counts. -/
theorem unopened_cons_lt {heap : Heap} {opened : List ArrayId} {id : ArrayId} {element : Value}
    (hmem : element ∈ (heap.elements id).toList) (hid : id ∉ opened) :
    heap.unopened (id :: opened) < heap.unopened opened := by
  apply Finset.card_lt_card
  refine Finset.ssubset_iff_of_subset ?_ |>.mpr ⟨id, ?_, ?_⟩
  · intro other hother
    simp only [Finset.mem_filter, List.mem_cons, not_or] at hother ⊢
    exact ⟨hother.1, hother.2.2⟩
  · exact Finset.mem_filter.mpr ⟨Finset.mem_range.mpr (lt_size_of_mem hmem), hid⟩
  · simp

end Heap

namespace Value

/-- The array is the value itself or lies somewhere inside it. -/
def Reaches (heap : Heap) (v : Value) (id : ArrayId) : Prop :=
  ∃ start, v = .array start ∧ Relation.ReflTransGen heap.Holds start id

/-- Elements with commas between them, null and undefined ones empty. -/
def commaJoin (elementText : Value → String) (elements : Array Value) : String :=
  ",".intercalate (elements.toList.map fun element =>
    if element.isVoid then "" else elementText element)

/-- Texts of values inside the arrays of a path, where an array on its own path is empty. -/
structure IsRendering (heap : Heap) (render : List ArrayId → Value → String) : Prop where
  own : ∀ path v, (∀ id, v ≠ .array id) → render path v = v.ownText
  again : ∀ path id, id ∈ path → render path (.array id) = ""
  elements : ∀ path id, id ∉ path →
    render path (.array id) = commaJoin (render (id :: path)) (heap.elements id)

/-- Commas between elements with no list of open arrays; none if it takes more than so many calls
inside one another. -/
def joinWithin (heap : Heap) : Nat → Value → Option String
  | 0, _ => none
  | depth + 1, .array id => do
    let texts ← (heap.elements id).toList.mapM fun element =>
      if element.isVoid then pure "" else joinWithin heap depth element
    return ",".intercalate texts
  | _ + 1, v => some v.ownText

theorem mapM_run {σ α β : Type} {f : α → StateT σ Option β} {g : α → β} {s : σ} {l : List α}
    (h : ∀ x ∈ l, (f x).run s = some (g x, s)) : (l.mapM f).run s = some (l.map g, s) := by
  induction l with
  | nil => rfl
  | cons x l ih =>
    rw [List.mapM_cons, StateT.run_bind, h x List.mem_cons_self]
    simp only [Option.bind_eq_bind, Option.bind_some]
    rw [StateT.run_bind, ih fun y hy => h y (List.mem_cons_of_mem x hy)]
    rfl

section Writing

variable {heap : Heap} {depth : Nat} {opened : List ArrayId} {id : ArrayId}

theorem run_write_own {v : Value} (h : ∀ id, v ≠ .array id) :
    (v.write heap (depth + 1)).run opened = some (v.ownText, opened) := by
  cases v with
  | array id => exact absurd rfl (h id)
  | _ => rfl

theorem run_write_again (h : id ∈ opened) :
    ((Value.array id).write heap (depth + 1)).run opened = some ("", opened) := by
  simp [write, h]

/-- The array is opened for its elements and closed after the last of them. -/
theorem run_write_elements {elementText : Value → String} (h : id ∉ opened)
    (helements : ∀ element ∈ (heap.elements id).toList,
      (element.write heap depth).run (id :: opened) = some (elementText element, id :: opened)) :
    ((Value.array id).write heap (depth + 1)).run opened =
      some (commaJoin elementText (heap.elements id), opened) := by
  have htexts : ((heap.elements id).toList.mapM fun element : Value =>
      if element.isVoid then pure "" else element.write heap depth).run (id :: opened) =
      some ((heap.elements id).toList.map fun element =>
        if element.isVoid then "" else elementText element, id :: opened) := by
    apply mapM_run
    intro element hmem
    split
    · rfl
    · exact helements element hmem
  simp [write, h, htexts, commaJoin]

end Writing

/-- How many calls are allowed makes no difference beyond the arrays that are left to open. The
induction is on their number. -/
theorem exists_run_write (heap : Heap) (opened : List ArrayId) (v : Value) :
    ∃ text, ∀ depth, heap.unopened opened < depth →
      (v.write heap depth).run opened = some (text, opened) := by
  by_cases hv : ∀ id, v ≠ .array id
  · refine ⟨v.ownText, fun depth hdepth => ?_⟩
    obtain ⟨depth, rfl⟩ := Nat.exists_eq_add_of_lt hdepth
    exact run_write_own hv
  push Not at hv
  obtain ⟨id, rfl⟩ := hv
  by_cases hid : id ∈ opened
  · refine ⟨"", fun depth hdepth => ?_⟩
    obtain ⟨depth, rfl⟩ := Nat.exists_eq_add_of_lt hdepth
    exact run_write_again hid
  have helements (element : Value) : ∃ text, element ∈ (heap.elements id).toList →
      ∀ depth, heap.unopened (id :: opened) < depth →
        (element.write heap depth).run (id :: opened) = some (text, id :: opened) := by
    by_cases hmem : element ∈ (heap.elements id).toList
    · have hless := Heap.unopened_cons_lt hmem hid
      obtain ⟨text, htext⟩ := exists_run_write heap (id :: opened) element
      exact ⟨text, fun _ => htext⟩
    · exact ⟨"", fun h => absurd h hmem⟩
  choose elementText helementText using helements
  refine ⟨commaJoin elementText (heap.elements id), fun depth hdepth => ?_⟩
  obtain ⟨depth, rfl⟩ := Nat.exists_eq_succ_of_ne_zero (Nat.ne_zero_of_lt hdepth)
  refine run_write_elements hid fun element hmem => helementText element hmem depth ?_
  have hless := Heap.unopened_cons_lt hmem hid
  omega
termination_by heap.unopened opened

theorem exists_rendering (heap : Heap) :
    ∃ render, IsRendering heap render ∧ ∀ v opened depth, heap.unopened opened < depth →
      (write heap depth v).run opened = some (render opened v, opened) := by
  choose render hrender using exists_run_write heap
  have hwrite (path : List ArrayId) (v : Value) {depth : Nat} (hdepth : heap.size < depth) :
      (v.write heap depth).run path = some (render path v, path) :=
    hrender path v depth (Nat.lt_of_le_of_lt (heap.unopened_le path) hdepth)
  have hunique {path : List ArrayId} {v : Value} {text : String}
      (h : (v.write heap (heap.size + 1 + 1)).run path = some (text, path)) :
      render path v = text := by
    rw [hwrite path v (by omega)] at h
    exact congrArg Prod.fst (Option.some.inj h)
  refine ⟨render, ⟨?_, ?_, ?_⟩, fun v opened depth => hrender opened v depth⟩
  · intro path v hv
    exact hunique (run_write_own hv)
  · intro path id hid
    exact hunique (run_write_again hid)
  · intro path id hid
    exact hunique (run_write_elements hid fun element _ =>
      hwrite (id :: path) element (Nat.lt_succ_self _))

theorem commaJoin_congr {texts texts' : Value → String} {elements : Array Value}
    (h : ∀ element ∈ elements.toList, texts element = texts' element) :
    commaJoin texts elements = commaJoin texts' elements := by
  unfold commaJoin
  congr 1
  refine List.map_congr_left fun element hmem => ?_
  rw [h element hmem]

/-- The path grows by an array at each nesting, so what is said about it leaves no choice. -/
theorem IsRendering.eq_at {heap : Heap} {render other : List ArrayId → Value → String}
    (h : IsRendering heap render) (h' : IsRendering heap other) (path : List ArrayId) (v : Value) :
    other path v = render path v := by
  by_cases hv : ∀ id, v ≠ .array id
  · rw [h.own path v hv, h'.own path v hv]
  push Not at hv
  obtain ⟨id, rfl⟩ := hv
  by_cases hid : id ∈ path
  · rw [h.again path id hid, h'.again path id hid]
  rw [h.elements path id hid, h'.elements path id hid]
  refine commaJoin_congr fun element hmem => ?_
  have hless := Heap.unopened_cons_lt hmem hid
  exact h.eq_at h' (id :: path) element
termination_by heap.unopened path

theorem Reaches.of_element {heap : Heap} {outer id : ArrayId} {element : Value}
    (hmem : element ∈ (heap.elements outer).toList) (h : element.Reaches heap id) :
    Relation.TransGen heap.Holds outer id := by
  obtain ⟨start, rfl, hstart⟩ := h
  exact Relation.TransGen.head' hmem hstart

theorem mapM_eq_some {α β : Type} {f : α → Option β} {g : α → β} {l : List α}
    (h : ∀ x ∈ l, f x = some (g x)) : l.mapM f = some (l.map g) := by
  induction l with
  | nil => rfl
  | cons x l ih =>
    rw [List.mapM_cons, h x List.mem_cons_self, ih fun y hy => h y (List.mem_cons_of_mem x hy)]
    rfl

theorem joinWithin_elements {heap : Heap} {depth : Nat} {id : ArrayId}
    {elementText : Value → String}
    (h : ∀ element ∈ (heap.elements id).toList,
      element.joinWithin heap depth = some (elementText element)) :
    (Value.array id).joinWithin heap (depth + 1) =
      some (commaJoin elementText (heap.elements id)) := by
  have htexts : ((heap.elements id).toList.mapM fun element : Value =>
      if element.isVoid then pure "" else element.joinWithin heap depth) =
      some ((heap.elements id).toList.map fun element =>
        if element.isVoid then "" else elementText element) := by
    apply mapM_eq_some
    intro element hmem
    split
    · rfl
    · exact h element hmem
  rw [joinWithin, htexts]
  rfl

/-- Where no array lies inside itself, none that is reached can be on the path, so nothing is left
out. An array shared by two others is reached from both of them, but from neither inside itself. -/
theorem IsRendering.joinWithin_eq {heap : Heap} {render : List ArrayId → Value → String}
    (h : IsRendering heap render) {depth : Nat} {path : List ArrayId} {v : Value}
    (hdepth : heap.unopened path < depth)
    (hpath : ∀ id, v.Reaches heap id → id ∉ path ∧ ¬ Relation.TransGen heap.Holds id id) :
    v.joinWithin heap depth = some (render path v) := by
  induction depth generalizing path v with
  | zero => exact absurd hdepth (Nat.not_lt_zero _)
  | succ depth ih =>
    cases v with
    | array id =>
      obtain ⟨hid, hcycle⟩ := hpath id ⟨id, rfl, .refl⟩
      rw [h.elements path id hid]
      refine joinWithin_elements fun element hmem => ih ?_ ?_
      · have hless := Heap.unopened_cons_lt hmem hid
        omega
      · intro inner hinner
        have hreach := hinner.of_element hmem
        obtain ⟨hnew, hacyclic⟩ := hpath inner ⟨id, rfl, hreach.to_reflTransGen⟩
        refine ⟨?_, hacyclic⟩
        rw [List.mem_cons, not_or]
        refine ⟨?_, hnew⟩
        rintro rfl
        exact hcycle hreach
    | _ => rw [h.own path _ (by simp)]; rfl

/-- Writing ends whatever the arrays contain, with the list of open arrays as it was. What is
written is the one rendering in which arrays inside themselves are empty, and that is all the list
does: without such arrays the join that keeps no list gives the same text. -/
theorem writing_omits_only_cycles (heap : Heap) :
    ∃ render, IsRendering heap render ∧ (∀ other, IsRendering heap other → other = render) ∧
      ∀ v : Value,
        (∀ opened depth, heap.size < depth →
          (v.write heap depth).run opened = some (render opened v, opened)) ∧
        v.text heap = render [] v ∧
        ((∀ id, v.Reaches heap id → ¬ Relation.TransGen heap.Holds id id) →
          ∀ depth, heap.size < depth → v.joinWithin heap depth = some (v.text heap)) := by
  obtain ⟨render, hrender, hunopened⟩ := exists_rendering heap
  have hwrite (v : Value) (opened : List ArrayId) (depth : Nat) (hdepth : heap.size < depth) :
      (v.write heap depth).run opened = some (render opened v, opened) :=
    hunopened v opened depth (Nat.lt_of_le_of_lt (heap.unopened_le opened) hdepth)
  have htext (v : Value) : v.text heap = render [] v := by
    unfold text
    rw [StateT.run'_eq, hwrite v [] _ (Nat.lt_succ_self _)]
    rfl
  refine ⟨render, hrender, ?_, fun v => ⟨hwrite v, htext v, fun hacyclic depth hdepth => ?_⟩⟩
  · intro other hother
    funext path v
    exact hrender.eq_at hother path v
  · rw [htext v]
    refine hrender.joinWithin_eq (Nat.lt_of_le_of_lt (heap.unopened_le []) hdepth) ?_
    exact fun id hid => ⟨List.not_mem_nil, hacyclic id hid⟩

/-- Both elements of array 1 are array 0, and array 2 contains itself. -/
theorem writing_omits_only_cycles_shared :
    let heap : Heap := ⟨#[#[.string "x", .null], #[.array 0, .array 0],
      #[.array 1, .array 2, .bool true]]⟩
    (Value.array 1).joinWithin heap 4 = some "x,,x," ∧
      ((Value.array 2).write heap 4).run [] = some ("x,,x,,,true", []) := by
  intro heap
  have hleaf (id : ArrayId) : ¬ Relation.TransGen heap.Holds 0 id := by
    intro h
    obtain ⟨inner, hinner, -⟩ := Relation.TransGen.head'_iff.mp h
    simp [Heap.Holds, Heap.elements, heap] at hinner
  have hshared (id : ArrayId) (h : Relation.TransGen heap.Holds 1 id) : id = 0 := by
    obtain ⟨inner, hinner, hrest⟩ := Relation.TransGen.head'_iff.mp h
    have hinner' : inner = 0 := by simpa [Heap.Holds, Heap.elements, heap] using hinner
    rw [hinner', Relation.reflTransGen_iff_eq_or_transGen] at hrest
    exact hrest.resolve_right (hleaf id)
  obtain ⟨render, -, -, hrender⟩ := writing_omits_only_cycles heap
  obtain ⟨hwrite, htext, -⟩ := hrender (.array 2)
  constructor
  · rw [(hrender (.array 1)).2.2 ?_ 4 (by decide)]
    · decide
    · rintro id ⟨start, hstart, hreach⟩ hcycle
      cases hstart
      rcases Relation.reflTransGen_iff_eq_or_transGen.mp hreach with rfl | hreach
      · exact absurd (hshared 1 hcycle) (by decide)
      · rw [hshared id hreach] at hcycle
        exact hleaf 0 hcycle
  · rw [hwrite [] 4 (by decide), ← htext]
    decide

end Value

end KakaLang
