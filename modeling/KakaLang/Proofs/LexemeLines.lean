import KakaLang.Proofs.LineComposition
import KakaLang.Proofs.LosslessScan

/-!
Lexemes on lines of their own. A lexeme is read as the same token wherever nothing after it can
change the reading: before a new line, and at the end of the text. Only a quoted text without its
closing quote may not stand before a new line, and since such a text runs to the end of the source,
its lexeme is the last one. Lexemes that are taken out of their source and put on one line each scan
therefore to the tokens they came from, on other lines.
-/

namespace KakaLang

/-- A token without its line. -/
def Token.content (t : Token) : TokenKind × String := (t.kind, t.lexeme)

namespace Scan

/-- The text ends here, or a new line does. -/
def LineEnds (rest : List Char) : Prop := rest = [] ∨ rest.head? = some '\n'

theorem LineEnds.ends {rest : List Char} (h : LineEnds rest) {p : Char → Bool}
    (hp : p '\n' = false) : Ends p rest := by
  intro c hc
  rcases h with rfl | h
  · cases hc
  · cases h.symm.trans hc
    exact hp

theorem LineEnds.endsPhrase {rest : List Char} (h : LineEnds rest) : endsPhrase rest = true := by
  rcases h with rfl | h
  · rfl
  · obtain ⟨more, rfl⟩ := List.head?_eq_some_iff.mp h
    rfl

theorem LineEnds.reads_symbol {rest : List Char} (h : LineEnds rest) (s : Symbol) :
    Reads (some (.symbol s)) s.spelling.toList rest := by
  rcases h with rfl | h
  · cases s <;> exact ⟨_, _, rfl, rfl⟩
  · obtain ⟨more, rfl⟩ := List.head?_eq_some_iff.mp h
    cases s <;> exact ⟨_, _, rfl, rfl⟩

/-- A quoted text without its closing quote is read at the end. -/
theorem Reads.unclosed {quote : Char} {content : List Char} (hquote : quote ∈ ['"', '\''])
    (hcontent : quote ∉ content) :
    Reads (some (.string (String.ofList content))) (quote :: content) [] := by
  refine ⟨quote, content, rfl, ?_⟩
  have hpiece := quoted_of_notMem hcontent
  rw [List.append_nil, ← hpiece]
  simp only [List.mem_cons, List.not_mem_nil, or_false] at hquote
  rcases hquote with rfl | rfl
  · rfl
  · rfl

/-- A token is read again from its lexeme where a line ends. If nothing followed it in its source,
nothing may follow it here either. -/
theorem Spelled.reads {kind : TokenKind} {text after rest : List Char} (h : Spelled kind text after)
    (hkind : kind ≠ .endOfInput) (hrest : LineEnds rest) (hlast : after = [] → rest = []) :
    Reads (some kind) text rest := by
  cases kind with
  | number raw =>
    obtain ⟨rfl, ⟨c, cs, rfl, hc, hcs⟩, -⟩ := h
    rw [String.toList_ofList]
    exact Reads.number hc hcs (hrest.ends rfl)
  | string content =>
    obtain ⟨quote, hquote, hcontent, rfl | ⟨rfl, hafter⟩⟩ := h
    · have hread : Reads _ _ rest := Reads.string (by simpa using hquote) hcontent
      rwa [String.ofList_toList] at hread
    · rw [hlast hafter]
      have hread := Reads.unclosed hquote hcontent
      rwa [String.ofList_toList] at hread
  | identifier name =>
    obtain ⟨rfl, ⟨c, cs, htext, hc, hcs, hword⟩, -⟩ := h
    rw [htext] at hword
    have hspace : ∀ beyond, rest ≠ ' ' :: beyond := by
      rintro beyond rfl
      rcases hrest with hrest | hrest <;> cases hrest
    have hread := Reads.name hc hcs (hrest.ends rfl) hword
      fun beyond _ hbeyond _ => absurd hbeyond (hspace beyond)
    rwa [← htext, String.ofList_toList] at hread
  | keyword k =>
    rw [h.1]
    exact k.reads (hrest.ends rfl) fun _ => hrest.endsPhrase
  | symbol s =>
    rw [h.1]
    exact hrest.reads_symbol s
  | mark m => exact h.elim
  | endOfInput => exact absurd rfl hkind

/-- Tokens that are read again from their lexemes, each on a line of its own. -/
inductive Readable : List Token → Prop where
  | nil : Readable []
  | last {t : Token} (h : Reads (some t.kind) t.lexeme.toList []) : Readable [t]
  | cons {t u : Token} {ts : List Token}
      (h : ∀ more, Reads (some t.kind) t.lexeme.toList ('\n' :: more))
      (hrest : Readable (u :: ts)) : Readable (t :: u :: ts)

theorem Readable.lexeme_ne_nil {t : Token} {ts : List Token} (h : Readable (t :: ts)) :
    t.lexeme.toList ≠ [] := by
  intro hnil
  cases h with
  | last h =>
    obtain ⟨c, cs, htext, -⟩ := h
    cases hnil.symm.trans htext
  | cons h _ =>
    obtain ⟨c, cs, htext, -⟩ := h []
    cases hnil.symm.trans htext

/-- Tokens that are spelled as their kinds ask, with nothing but the end of input after them. -/
theorem readable_of_spelled {segments : List Segment} {last : Segment}
    (hspelled : ∀ before g after, segments ++ [last] = before ++ g :: after →
      Spelled g.token.kind g.token.lexeme.toList (joined after))
    (hkinds : ∀ g ∈ segments, g.token.kind ≠ .endOfInput) :
    Readable (segments.map (·.token)) := by
  induction segments with
  | nil => exact .nil
  | cons g segments ih =>
    have hrest : Readable (segments.map (·.token)) := by
      apply ih
      · intro before g' after hsplit
        apply hspelled (g :: before)
        rw [List.cons_append, hsplit, List.cons_append]
      · exact fun g' hg' => hkinds g' (List.mem_cons_of_mem g hg')
    have hg := hspelled [] g (segments ++ [last]) rfl
    have hkind := hkinds g List.mem_cons_self
    cases segments with
    | nil => exact .last (hg.reads hkind (.inl rfl) fun _ => rfl)
    | cons u segments =>
      refine .cons (fun more => hg.reads hkind (.inr rfl) fun hnil => ?_) hrest
      -- Something follows in the source, namely the next token.
      rw [List.cons_append, joined_cons, List.append_eq_nil_iff, List.append_eq_nil_iff] at hnil
      exact absurd hnil.1.2 hrest.lexeme_ne_nil

theorem scanFrom_newLine (line : Nat) (text : List Char) (found : List Token) :
    Token.scanFrom line ('\n' :: text) found = Token.scanFrom (line + 1) text found := by
  have hpiece : piece? '\n' text = some ⟨none, 0⟩ := rfl
  rw [scanFrom_piece hpiece]
  rfl

/-- The text of the lexemes, each on a line of its own. -/
def stacked (ts : List Token) : String := "\n".intercalate (ts.map (·.lexeme))

theorem toList_stacked_singleton (t : Token) : (stacked [t]).toList = t.lexeme.toList := by
  simp [stacked]

theorem toList_stacked_cons (t u : Token) (ts : List Token) :
    (stacked (t :: u :: ts)).toList = t.lexeme.toList ++ '\n' :: (stacked (u :: ts)).toList := by
  simp [stacked, List.intercalate]

/-- The tokens come back from their lexemes, on whatever line the text starts. -/
theorem Readable.scanFrom {ts : List Token} (h : Readable ts) (line : Nat) (found : List Token) :
    ∃ tokens, Token.scanFrom line (stacked ts).toList found = .ok (found.reverse ++ tokens) ∧
      tokens.map Token.content = ts.map Token.content ++ [(.endOfInput, "")] := by
  induction h generalizing line found with
  | nil => exact ⟨[⟨.endOfInput, "", line⟩], by simp [stacked, Token.scanFrom], rfl⟩
  | @last t h =>
    have hscan := h.scanFrom line found
    rw [List.append_nil, Token.scanFrom] at hscan
    refine ⟨[⟨t.kind, t.lexeme, line⟩, ⟨.endOfInput, "",
      line + t.lexeme.toList.count '\n'⟩], ?_, rfl⟩
    rw [toList_stacked_singleton, hscan]
    simp
  | @cons t u ts h _ ih =>
    have hscan := (h (stacked (u :: ts)).toList).scanFrom line found
    rw [scanFrom_newLine, String.ofList_toList, Option.map_some, Option.toList_some,
      List.singleton_append] at hscan
    obtain ⟨tokens, htokens, hcontent⟩ :=
      ih (line + t.lexeme.toList.count '\n' + 1) (⟨t.kind, t.lexeme, line⟩ :: found)
    refine ⟨⟨t.kind, t.lexeme, line⟩ :: tokens, ?_, ?_⟩
    · rw [toList_stacked_cons, hscan, htokens]
      simp
    · rw [List.map_cons, hcontent]
      rfl

/-- The lexemes of a text that scans, each put on a line of its own, scan to the same kinds and
lexemes in the same order. -/
theorem lexemes_scan_again {source : String} {tokens : List Token}
    (h : Token.scan source = .ok tokens) :
    ∃ tokens', Token.scan (stacked (tokens.filter (·.kind ≠ .endOfInput))) = .ok tokens' ∧
      tokens'.map Token.content = tokens.map Token.content := by
  obtain ⟨⟨before, last, rfl, hlast, hbefore⟩, -, segments, hsegments, -, hlaid⟩ :=
    faithful_of_scan h
  obtain ⟨init, final, rfl, rfl, hfinal⟩ := List.map_eq_append_iff.mp hsegments
  obtain ⟨g, rest, rfl, rfl, hrest⟩ := List.map_eq_cons_iff.mp hfinal
  rw [List.map_eq_nil_iff.mp hrest] at hlaid
  have hreadable : Readable (init.map (·.token)) := by
    apply readable_of_spelled
    · exact fun before g after hsplit => (hlaid before g after hsplit).spelled
    · exact fun g hg => hbefore g.token (List.mem_map_of_mem hg)
  have hend := (hlaid init g [] rfl).spelled
  rw [hlast] at hend
  have hfilter : (init.map (·.token) ++ [g.token]).filter (·.kind ≠ .endOfInput) =
      init.map (·.token) := by
    rw [List.filter_append, List.filter_eq_self.mpr fun t ht => decide_eq_true (hbefore t ht)]
    simp [hlast]
  obtain ⟨tokens, hscan, hcontent⟩ := hreadable.scanFrom 1 []
  refine ⟨tokens, ?_, ?_⟩
  · rw [hfilter]
    exact hscan
  · have hcontent' : g.token.content = (.endOfInput, "") := by
      rw [Token.content, hlast, String.toList_eq_nil_iff.mp hend.1]
    rw [hcontent, List.map_append, List.map_singleton, hcontent']

/-- Words that make a phrase in neither text, a numeral before a word, a bang that is passed over
and a text that is not closed. -/
theorem lexemes_scan_again_unclosed :
    let source := "কাকা  বলো 1.২x!!=কাকা বলো\ufeff'a"
    let tokens : List Token :=
      [⟨.identifier "কাকা", "কাকা", 1⟩, ⟨.identifier "বলো", "বলো", 1⟩, ⟨.number "1.২", "1.২", 1⟩,
        ⟨.identifier "x", "x", 1⟩, ⟨.symbol .bangEqual, "!=", 1⟩, ⟨.identifier "কাকা", "কাকা", 1⟩,
        ⟨.identifier "বলো", "বলো", 1⟩, ⟨.string "a", "'a", 1⟩, ⟨.endOfInput, "", 1⟩]
    Token.scan source = .ok tokens ∧
      ∃ tokens', Token.scan "কাকা\nবলো\n1.২\nx\n!=\nকাকা\nবলো\n'a" = .ok tokens' ∧
        tokens'.map Token.content = tokens.map Token.content := by
  intro source tokens
  have hscan : Token.scan source = .ok tokens := scan_of_toOption (by decide +kernel)
  exact ⟨hscan, lexemes_scan_again hscan⟩

end Scan

end KakaLang
