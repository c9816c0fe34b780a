import KakaLang.Proofs.Changes
import KakaLang.Proofs.NumeralGrammar

/-!
Blank answers to a request for input. An answer with nothing between the gaps at its ends is no
number that anybody has given, although the numeral reader takes it for zero. Such an answer stays
a text if it is white space alone. A byte-order mark is a gap to the numeral reader but no white
space, so a blank answer that holds one is taken for the number zero; these are the only answers
that are not read as they should be.
-/

namespace KakaLang

namespace Text

theorem trim_eq_nil_iff {p : Char → Bool} {text : List Char} :
    trim p text = [] ↔ ∀ c ∈ text, p c = true := by
  rw [eq_comm, ← isTrimmed_iff]
  constructor
  · rintro ⟨⟨front, back, rfl, hfront, hback⟩, -, -⟩ c hc
    rw [List.append_nil, List.mem_append] at hc
    exact hc.elim (hfront c) (hback c)
  · intro hall
    exact ⟨⟨text, [], by simp, hall, by simp⟩, by simp, by simp⟩

theorem not_isBlank_of_isByteOrderMark {c : Char} (h : isByteOrderMark c = true) :
    isBlank c = false := by
  have hcode : c.toNat = 0xFEFF := by simpa [isByteOrderMark] using h
  simp [isBlank, hcode]

/-- White space alone is a blank text without a byte-order mark. -/
theorem all_isBlank_iff {text : List Char} :
    text.all isBlank = true ↔
      trim isGap text = [] ∧ ∀ c ∈ text, isByteOrderMark c = false := by
  rw [trim_eq_nil_iff, List.all_eq_true]
  constructor
  · intro hblank
    refine ⟨fun c hc => by rw [isGap, hblank c hc, Bool.true_or], fun c hc => ?_⟩
    by_contra hmark
    have hnot := not_isBlank_of_isByteOrderMark (by simpa using hmark)
    rw [hblank c hc] at hnot
    cases hnot
  · rintro ⟨hgap, hmark⟩ c hc
    have hc' := hgap c hc
    rwa [isGap, hmark c hc, Bool.or_false] at hc'

end Text

open Text

theorem Number.read?_of_trim_eq_nil {text : String} (h : trim isGap text.toList = []) :
    Number.read? text = some (Number.zero false) := by
  rw [Number.read?, Number.Numeral.ofChars?, h]
  rfl

/-- An answer is taken from the console after the prompt has been shown. -/
theorem Action.ask_of_answer {m : Machine} {answer : Option String} {rest : List (Option String)}
    (h : m.console.answers = answer :: rest) (prompt : String) :
    Action.ask prompt m = .ok answer
      { m with console := { m.console.put (.prompt prompt) with answers := rest } } := by
  have hshown : (modify fun m => { m with console := m.console.put (.prompt prompt) } :
      Action Unit) m = .ok () { m with console := m.console.put (.prompt prompt) } := rfl
  have hanswers : (m.console.put (.prompt prompt)).answers = answer :: rest := h
  unfold Action.ask
  rw [Action.bind_ok hshown, Action.get_bind]
  simp only [hanswers]
  rfl

namespace Evaluation

/-- How an answer should be read: as the number that it denotes if anything is left of it between
the gaps at its ends, and as the text that it is in every other case. -/
structure ReadsAnswer (answer : String) (v : Value) : Prop where
  number : ∀ x, v = .number x ↔ trim isGap answer.toList ≠ [] ∧ Number.read? answer = some x
  text : (∀ x, v ≠ .number x) → v = .string answer

/-- Nothing is left between the gaps, and one of them is a byte-order mark. -/
def IsMarkedBlank (answer : String) : Prop :=
  trim isGap answer.toList = [] ∧ ∃ c ∈ answer.toList, isByteOrderMark c = true

theorem readsAnswer_string {answer : String}
    (h : trim isGap answer.toList = [] ∨ Number.read? answer = none) :
    ReadsAnswer answer (.string answer) := by
  refine ⟨fun x => ⟨?_, ?_⟩, fun _ => rfl⟩
  · intro hvalue
    cases hvalue
  · rintro ⟨hleft, hread⟩
    rcases h with h | h
    · exact absurd h hleft
    · rw [h] at hread
      cases hread

theorem readsAnswer_answerValue {answer : String} (h : ¬ IsMarkedBlank answer) :
    ReadsAnswer answer (answerValue answer) := by
  rw [answerValue]
  by_cases hblank : answer.toList.all isBlank = true
  · rw [if_pos hblank]
    exact readsAnswer_string (.inl (all_isBlank_iff.mp hblank).1)
  · rw [if_neg hblank]
    have hleft : trim isGap answer.toList ≠ [] := by
      intro hnil
      refine hblank (all_isBlank_iff.mpr ⟨hnil, fun c hc => ?_⟩)
      by_contra hmark
      exact h ⟨hnil, c, hc, by simpa using hmark⟩
    cases hread : Number.read? answer with
    | none => exact readsAnswer_string (.inr hread)
    | some x =>
      refine ⟨fun y => ?_, fun hno => absurd rfl (hno x)⟩
      rw [hread]
      simp [hleft]

theorem answerValue_of_isMarkedBlank {answer : String} (h : IsMarkedBlank answer) :
    answerValue answer = .number (Number.zero false) := by
  obtain ⟨hnil, c, hc, hmark⟩ := h
  have hblank : ¬ answer.toList.all isBlank = true := by
    intro hall
    have hnot := (all_isBlank_iff.mp hall).2 c hc
    rw [hmark] at hnot
    cases hnot
  rw [answerValue, if_neg hblank, Number.read?_of_trim_eq_nil hnil]

theorem not_readsAnswer_of_isMarkedBlank {answer : String} (h : IsMarkedBlank answer) :
    ¬ ReadsAnswer answer (answerValue answer) := by
  intro hreads
  exact ((hreads.number _).mp (answerValue_of_isMarkedBlank h)).1 h.1

theorem input_of_answer (line : Nat) {m : Machine} {answer : String}
    {rest : List (Option String)} (h : m.console.answers = some answer :: rest) :
    input line m = .ok (answerValue answer)
      { m with console := { m.console.put (.prompt inputPrompt) with answers := rest } } :=
  Action.bind_ok (Action.ask_of_answer h inputPrompt)

/-- A request for input shows the prompt and takes the answer. It reads the answer as it should
unless that is a blank one with a byte-order mark in it, which is taken for the number zero. -/
theorem input_reads_answer_iff (line : Nat) {m : Machine} {answer : String}
    {rest : List (Option String)} (h : m.console.answers = some answer :: rest) :
    ∃ v, input line m = .ok v
        { m with console := { m.console.put (.prompt inputPrompt) with answers := rest } } ∧
      (ReadsAnswer answer v ↔ ¬ IsMarkedBlank answer) ∧
      (IsMarkedBlank answer → v = .number (Number.zero false)) := by
  refine ⟨answerValue answer, input_of_answer line h, ⟨?_, ?_⟩, ?_⟩
  · exact fun hreads hmarked => not_readsAnswer_of_isMarkedBlank hmarked hreads
  · exact readsAnswer_answerValue
  · exact answerValue_of_isMarkedBlank

/-- Byte-order marks around a numeral are no obstacle. -/
theorem input_reads_answer_marked :
    let m : Machine := { console := .ofLines ["\ufeff 2\ufeff"] }
    m.console.answers = [some "\ufeff 2\ufeff"] ∧ ¬ IsMarkedBlank "\ufeff 2\ufeff" ∧
      ∃ v m', input 1 m = .ok v m' ∧ ReadsAnswer "\ufeff 2\ufeff" v := by
  intro m
  have hunmarked : ¬ IsMarkedBlank "\ufeff 2\ufeff" := by
    rintro ⟨hnil, -⟩
    revert hnil
    decide +kernel
  have hanswers : m.console.answers = [some "\ufeff 2\ufeff"] := rfl
  obtain ⟨v, hinput, hreads, -⟩ := input_reads_answer_iff 1 hanswers
  exact ⟨hanswers, hunmarked, v, _, hinput, hreads.mpr hunmarked⟩

/-- Not every blank answer stays a text: a byte-order mark alone is taken for a number. -/
theorem marked_blank_answer_misread :
    ¬ ∀ (line : Nat) (m m' : Machine) (answer : String) (rest : List (Option String)) (v : Value),
      m.console.answers = some answer :: rest → input line m = .ok v m' →
        ReadsAnswer answer v := by
  intro h
  have hmarked : IsMarkedBlank "\ufeff" := ⟨by decide +kernel, _, List.mem_cons_self, rfl⟩
  let m : Machine := { console := .ofLines ["\ufeff"] }
  have hanswers : m.console.answers = [some "\ufeff"] := rfl
  have hreads := h 1 m _ _ _ _ hanswers (input_of_answer 1 hanswers)
  exact not_readsAnswer_of_isMarkedBlank hmarked hreads

end Evaluation

end KakaLang
