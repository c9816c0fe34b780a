import KakaLang.Proofs.Frames

/-!
The transcript of a run. Nothing takes back what was shown. The number of printed lines goes with
the lines in the transcript, and once it is within the limit for output it stays there. All other
actions leave both alone.
-/

namespace KakaLang

namespace Console

theorem lines_put_line (console : Console) (text : String) :
    (console.put (.line text)).lines = console.lines ++ [text] := by
  simp [lines, put]

theorem lines_put_prompt (console : Console) (text : String) :
    (console.put (.prompt text)).lines = console.lines := by
  simp [lines, put]

theorem transcript_put (console : Console) (entry : Shown) :
    console.transcript.toList <+: (console.put entry).transcript.toList := by
  simp [put]

theorem lines_isPrefix {console console' : Console}
    (h : console.transcript.toList <+: console'.transcript.toList) :
    console.lines <+: console'.lines :=
  h.filterMap _

theorem prompts_isPrefix {console console' : Console}
    (h : console.transcript.toList <+: console'.transcript.toList) :
    console.prompts <+: console'.prompts :=
  h.filterMap _

end Console

namespace Machine

/-- The second machine has shown what the first one had, and then perhaps more. Its lines are
counted, and no more of them were printed than allowed. -/
structure Grows (settings : Settings) (before after : Machine) : Prop where
  shown : before.console.transcript.toList <+: after.console.transcript.toList
  counted : after.printed + before.console.lines.length =
    before.printed + after.console.lines.length
  bounded : ∀ n ∈ settings.limits.outputLines, before.printed ≤ n → after.printed ≤ n

variable {settings : Settings} {m m' m'' : Machine}

theorem Grows.of_shown (hshown : m'.console.transcript = m.console.transcript)
    (hprinted : m'.printed = m.printed) : Grows settings m m' := by
  refine ⟨?_, ?_, fun n _ h => ?_⟩
  · exact hshown ▸ List.prefix_rfl
  · rw [hprinted, Console.lines, Console.lines, hshown]
  · rw [hprinted]
    exact h

theorem Grows.refl (m : Machine) : Grows settings m m := .of_shown rfl rfl

theorem Grows.trans (h : Grows settings m m') (h' : Grows settings m' m'') :
    Grows settings m m'' := by
  have hcounted := h.counted
  have hcounted' := h'.counted
  refine ⟨h.shown.trans h'.shown, by omega, fun n hn hm => ?_⟩
  exact h'.bounded n hn (h.bounded n hn hm)

theorem Grows.printed_le (h : Grows settings m m') : m.printed ≤ m'.printed := by
  have hlines := (Console.lines_isPrefix h.shown).length_le
  have hcounted := h.counted
  omega

end Machine

open Machine (Grows)

/-- Everything but a prompt and a line goes unseen. -/
theorem Machine.grows_routine (settings : Settings) : Routine (Grows settings) where
  refl := .refl
  trans := .trans
  recorded _ _ := .of_shown rfl rfl
  defined _ _ _ _ := .of_shown rfl rfl
  heapChanged _ _ := .of_shown rfl rfl
  looked _ _ := .of_shown rfl rfl
  loaded _ _ := .of_shown rfl rfl
  prompted m prompt := by
    refine ⟨m.console.transcript_put _, ?_, fun _ _ hm => hm⟩
    change m.printed + _ = m.printed + (m.console.put (.prompt prompt)).lines.length
    rw [Console.lines_put_prompt]
  answered _ _ := .of_shown rfl rfl

/-- A line is printed below the limit only. -/
theorem Action.along_print (settings : Settings) (text : String) (line : Nat) :
    Action.Along (Grows settings) (Action.print settings text line) := by
  intro m
  rw [Action.print_eq]
  cases hlimit : settings.limits.outputLines.filter (· ≤ m.printed) with
  | some limit => exact .refl m
  | none =>
    refine ⟨m.console.transcript_put _, ?_, fun n hn hm => ?_⟩
    · change m.printed + 1 + _ = m.printed + (m.console.put (.line text)).lines.length
      rw [Console.lines_put_line, List.length_append]
      change m.printed + 1 + m.console.lines.length = m.printed + (m.console.lines.length + 1)
      omega
    · rw [Option.mem_def.mp hn, Option.filter_eq_none_iff] at hlimit
      have hlt : ¬ n ≤ m.printed := by simpa using hlimit n rfl
      change m.printed + 1 ≤ n
      omega

end KakaLang
