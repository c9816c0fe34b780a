import KakaLang.Proofs.LexemeLines
import Mathlib.Data.List.Forall2

/-!
Byte-order marks between tokens. A mark is passed over like a tab and ends words, numerals and
symbols like one, with one exception: a phrase may end before a tab and not before a mark. So a mark
outside quoted texts and comments may be replaced by a tab, and the tokens stay what they are,
unless the mark stands right after two words that make a phrase. Then the words are two names before
the mark and a keyword before the tab.
-/

namespace KakaLang.Scan

open Text

theorem isByteOrderMark_iff {c : Char} : isByteOrderMark c = true ↔ c = '\ufeff' := by
  rw [isByteOrderMark, beq_iff_eq, ← Char.toNat_inj]
  rfl

theorem isWordPart_of_isWordStart {c : Char} (h : isWordStart c = true) : isWordPart c = true := by
  rw [isWordStart_iff] at h
  rw [isWordPart_iff]
  omega

/-- A byte-order mark may have become a tab, and every other character is the same. -/
inductive Tabbed : Char → Char → Prop
  | same (c : Char) : Tabbed c c
  | mark {c : Char} (h : isByteOrderMark c = true) : Tabbed c '\t'

section Tabbed

variable {p : Char → Bool} {s s' : List Char}

theorem forall₂_tabbed_self (s : List Char) : List.Forall₂ Tabbed s s :=
  List.forall₂_same.mpr fun c _ => .same c

theorem Tabbed.apply_eq {c c' : Char} (h : Tabbed c c') (hp : p '\ufeff' = p '\t') :
    p c' = p c := by
  cases h with
  | same => rfl
  | mark h => rw [isByteOrderMark_iff.mp h, hp]

/-- Without byte-order marks there is nothing to replace. -/
theorem eq_of_tabbed (h : List.Forall₂ Tabbed s s') (hp : p '\ufeff' = false)
    (hs : ∀ c ∈ s, p c = true) : s' = s := by
  induction h with
  | nil => rfl
  | @cons c c' s s' hc _ ih =>
    rw [List.forall_mem_cons] at hs
    rw [ih hs.2]
    cases hc with
    | same => rfl
    | mark h =>
      rw [isByteOrderMark_iff.mp h, hp] at hs
      cases hs.1

theorem Ends.tabbed (hends : Ends p s) (h : List.Forall₂ Tabbed s s')
    (hp : p '\ufeff' = p '\t') : Ends p s' := by
  cases h with
  | nil => exact hends
  | cons hc _ =>
    rintro _ ⟨⟩
    rw [hc.apply_eq hp]
    exact hends _ rfl

theorem head?_tabbed {d : Char} (h : List.Forall₂ Tabbed s s') (hmark : d ≠ '\ufeff')
    (htab : d ≠ '\t') : s'.head? = some d ↔ s.head? = some d := by
  cases h with
  | nil => rfl
  | cons hc _ =>
    have hsame := hc.apply_eq (p := (· == d)) (by simp [hmark.symm, htab.symm])
    simpa using Bool.eq_iff_iff.mp hsame

theorem takeWhile_tabbed (h : List.Forall₂ Tabbed s s') (hmark : p '\ufeff' = false)
    (htab : p '\t' = false) : s'.takeWhile p = s.takeWhile p := by
  induction h with
  | nil => rfl
  | cons hc _ ih =>
    have hsame := hc.apply_eq (p := p) (by rw [hmark, htab])
    cases hc with
    | same => simp only [List.takeWhile_cons, ih]
    | mark h => simp [hsame, isByteOrderMark_iff.mp h, hmark]

theorem count_newLine_tabbed (h : List.Forall₂ Tabbed s s') : s'.count '\n' = s.count '\n' := by
  induction h with
  | nil => rfl
  | cons hc _ ih =>
    have hsame := hc.apply_eq (p := (· == '\n')) (by decide)
    simp only [List.count_cons, ih, hsame]

end Tabbed

/-- A text is read in one way only. -/
theorem Reads.unique {kind kind' : Option TokenKind} {text text' after after' : List Char}
    (h : Reads kind text after) (h' : Reads kind' text' after')
    (hsame : text ++ after = text' ++ after') : kind = kind' ∧ text = text' ∧ after = after' := by
  obtain ⟨c, cs, rfl, hpiece⟩ := h
  obtain ⟨c', cs', rfl, hpiece'⟩ := h'
  rw [List.cons_append, List.cons_append, List.cons.injEq] at hsame
  obtain ⟨rfl, hrest⟩ := hsame
  rw [hrest, hpiece'] at hpiece
  obtain ⟨hkind, hlength⟩ := Piece.mk.inj (Option.some.inj hpiece)
  obtain ⟨rfl, rfl⟩ := List.append_inj hrest hlength.symm
  exact ⟨hkind.symm, rfl, rfl⟩

/-- What is read is written as its kind asks. -/
theorem Reads.written {kind : Option TokenKind} {text after : List Char}
    (h : Reads kind text after) : Written kind text after := by
  obtain ⟨c, cs, rfl, hpiece⟩ := h
  obtain ⟨cs', after', hsplit, hlength, hwritten⟩ := piece?_taken hpiece
  obtain ⟨rfl, rfl⟩ := List.append_inj hsplit hlength
  exact hwritten

/-- After a name no phrase ends that starts with it. -/
theorem Reads.not_endsPhrase {name : String} {text rest : List Char} {k : Keyword}
    (h : Reads (some (.identifier name)) text (' ' :: rest))
    (hk : Keyword.ofWords? [name, String.ofList (rest.takeWhile isWordPart)] = some k) :
    endsPhrase (rest.drop (rest.takeWhile isWordPart).length) = false := by
  obtain ⟨htext, ⟨c, cs, rfl, hc, hcs, hfirst⟩, -⟩ := h.written
  obtain ⟨second, after, rfl, hsecond, hpart, hafter⟩ := exists_run isWordPart rest
  rw [hsecond] at hk ⊢
  rw [List.drop_left]
  by_contra hends
  rw [← String.ofList_toList (s := name), ← htext] at hk
  have hphrase := Reads.phrase hc hcs hpart hafter (by simpa using hends) hfirst hk
  obtain ⟨hkind, -⟩ := h.unique hphrase (by simp)
  cases hkind

/-- A phrase is read only where it may end. -/
theorem Reads.endsPhrase {k : Keyword} {text after : List Char}
    (h : Reads (some (.keyword k)) text after) (hwords : k.words.length = 2) :
    endsPhrase after = true := by
  obtain ⟨htext, hafter⟩ := h.written
  rcases k.words_spec with ⟨w, hone, -⟩ | ⟨w, v, htwo, hw, hv, hfirst⟩
  · rw [hone] at hwords
    cases hwords
  · obtain ⟨c, cs, hword, hc, hcs⟩ := Keyword.exists_of_isWordText hw
    rw [List.all_eq_true] at hv
    by_contra hends
    have hname : Reads (some (.identifier (String.ofList (c :: cs)))) (c :: cs)
        (' ' :: (v.toList ++ after)) := by
      rw [← String.ofList_toList (s := w), hword] at hfirst
      refine Reads.name hc hcs (by rintro _ ⟨⟩; rfl) hfirst ?_
      rintro _ k' ⟨⟩ -
      rw [takeWhile_append_of_ends hv hafter, List.drop_left]
      simpa using hends
    obtain ⟨hkind, -⟩ := h.unique hname (by rw [htext, Keyword.spelling, htwo, ← hword]; simp)
    cases hkind

theorem Reads.gap {c : Char} (h : isGap c = true) (after : List Char) : Reads none [c] after := by
  have hother : isDigit c = false ∧ isWordStart c = false := by
    rw [← Bool.not_eq_true, ← Bool.not_eq_true, isDigit, Bool.or_eq_true, isAsciiDigit_iff,
      isBengaliDigit_iff, isWordStart_iff]
    simp only [isGap, isBlank, isByteOrderMark, Bool.or_eq_true, Bool.and_eq_true,
      decide_eq_true_eq, beq_iff_eq] at h
    omega
  refine ⟨c, [], rfl, ?_⟩
  unfold piece?
  rw [if_neg (by simp [hother.1]), if_neg (by simp [hother.2]), if_pos h]
  rfl

/-- A symbol that an equals sign would extend. -/
theorem Reads.unextended {c : Char} {alone extended : Option TokenKind} {after : List Char}
    (hpiece : piece? c after = some (extendable alone extended after))
    (h : after.head? ≠ some '=') : Reads alone [c] after := by
  refine ⟨c, [], rfl, ?_⟩
  rw [List.nil_append, hpiece, extendable_eq, if_neg h]
  rfl

theorem Trivia.reads {text after : List Char} (h : Trivia text after) : Reads none text after := by
  cases h with
  | gap h => exact .gap h after
  | bang h => exact .unextended rfl h
  | @comment body _ hbody hafter =>
    refine ⟨'/', '/' :: body, rfl, ?_⟩
    have hall : ∀ c ∈ '/' :: body, decide (c ≠ '\n') = true := by
      intro c hc
      rw [decide_eq_true_eq]
      rintro rfl
      rcases List.mem_cons.mp hc with hc | hc
      · cases hc
      · exact hbody hc
    have hends : Ends (· ≠ '\n') after := by
      intro c hc
      rcases hafter with rfl | hafter
      · cases hc
      · cases hafter.symm.trans hc
        rfl
    have hhead : ('/' :: body ++ after).head? = some '/' := rfl
    rw [piece?_slash, if_pos hhead, takeWhile_append_of_ends hall hends]

theorem Spelled.reads_symbol {s : Symbol} {text after : List Char}
    (h : Spelled (.symbol s) text after) : Reads (some (.symbol s)) text after := by
  obtain ⟨rfl, hlongest⟩ := h
  have hequals : ∀ s' : Symbol, s.spelling.toList ++ ['='] = s'.spelling.toList →
      after.head? ≠ some '=' := fun s' hs' hhead => (hlongest '=' hhead).2 s' hs'
  cases s with
  | slash =>
    have hslash : after.head? ≠ some '/' := fun hhead => (hlongest '/' hhead).1 rfl
    exact ⟨'/', [], rfl, by rw [List.nil_append, piece?_slash, if_neg hslash]; rfl⟩
  | equals => exact .unextended rfl (hequals .equalEqual rfl)
  | greater => exact .unextended rfl (hequals .greaterEqual rfl)
  | less => exact .unextended rfl (hequals .lessEqual rfl)
  | _ => exact ⟨_, _, rfl, rfl⟩

/-- What is written as its kind asks is read, if no phrase starts with a name and every phrase may
end where it does. -/
theorem Written.reads {kind : Option TokenKind} {text after : List Char}
    (h : Written kind text after) (hkind : kind ≠ some .endOfInput)
    (hname : ∀ name rest k, kind = some (.identifier name) → after = ' ' :: rest →
      Keyword.ofWords? [name, String.ofList (rest.takeWhile isWordPart)] = some k →
        endsPhrase (rest.drop (rest.takeWhile isWordPart).length) = false)
    (hphrase : ∀ k, kind = some (.keyword k) → k.words.length = 2 → endsPhrase after = true) :
    Reads kind text after := by
  cases kind with
  | none => exact Trivia.reads h
  | some kind =>
    cases kind with
    | number raw =>
      obtain ⟨rfl, ⟨c, cs, rfl, hc, hcs⟩, hafter⟩ := h
      rw [String.toList_ofList]
      exact Reads.number hc hcs hafter
    | string content =>
      obtain ⟨quote, hquote, hcontent, rfl | ⟨rfl, rfl⟩⟩ := h
      · have hread : Reads _ _ after := Reads.string (by simpa using hquote) hcontent
        rwa [String.ofList_toList] at hread
      · have hread := Reads.unclosed hquote hcontent
        rwa [String.ofList_toList] at hread
    | identifier name =>
      obtain ⟨rfl, ⟨c, cs, htext, hc, hcs, hword⟩, hafter⟩ := h
      rw [htext] at hword
      have hread := Reads.name hc hcs hafter hword fun rest k hrest hk => by
        rw [← htext, String.ofList_toList] at hk
        exact hname name rest k rfl hrest hk
      rwa [← htext, String.ofList_toList] at hread
    | keyword k =>
      rw [h.1]
      exact k.reads h.2 (hphrase k rfl)
    | symbol s => exact Spelled.reads_symbol h
    | mark m => exact h.elim
    | endOfInput => exact absurd rfl hkind

/-- Quoted texts and comments keep the byte-order marks that they hold. -/
def Shelters (kind : Option TokenKind) (text : List Char) : Prop :=
  (∃ content, kind = some (.string content)) ∨ ∃ body, kind = none ∧ text = '/' :: '/' :: body

section

variable {text text' after after' : List Char}

theorem Trivia.tabbed (h : Trivia text after) (htext : List.Forall₂ Tabbed text text')
    (hkept : Shelters none text → text' = text) (hafter : List.Forall₂ Tabbed after after') :
    Trivia text' after' := by
  cases h with
  | gap h =>
    obtain ⟨c', _, hc, hnil, rfl⟩ := List.forall₂_cons_left_iff.mp htext
    rw [List.forall₂_nil_left_iff.mp hnil]
    refine .gap ?_
    rwa [hc.apply_eq (p := isGap) (by decide)]
  | bang h =>
    rw [eq_of_tabbed (p := (· == '!')) htext (by decide) (by simp)]
    refine .bang ?_
    rwa [ne_eq, head?_tabbed hafter (by decide) (by decide)]
  | @comment body _ hbody h =>
    rw [hkept (.inr ⟨body, rfl, rfl⟩)]
    refine .comment hbody ?_
    rcases h with rfl | h
    · exact .inl (List.forall₂_nil_left_iff.mp hafter)
    · exact .inr ((head?_tabbed hafter (by decide) (by decide)).mpr h)

/-- A token keeps its text, and is written as its kind asks before the tabs too. -/
theorem Spelled.tabbed {kind : TokenKind} (h : Spelled kind text after)
    (htext : List.Forall₂ Tabbed text text') (hkept : Shelters (some kind) text → text' = text)
    (hafter : List.Forall₂ Tabbed after after') : text' = text ∧ Spelled kind text after' := by
  cases kind with
  | number raw =>
    obtain ⟨rfl, ⟨c, cs, rfl, hc, hcs⟩, hends⟩ := h
    rw [String.toList_ofList] at htext ⊢
    have hall : ∀ x ∈ c :: cs, isNumeralPart x = true := by
      rw [List.forall_mem_cons, isNumeralPart, hc]
      exact ⟨rfl, hcs⟩
    exact ⟨eq_of_tabbed htext (by decide) hall, String.toList_ofList.symm,
      ⟨c, cs, rfl, hc, hcs⟩, hends.tabbed hafter (by decide)⟩
  | string content =>
    refine ⟨hkept (.inl ⟨content, rfl⟩), ?_⟩
    obtain ⟨quote, hquote, hcontent, htext | ⟨htext, rfl⟩⟩ := h
    · exact ⟨quote, hquote, hcontent, .inl htext⟩
    · exact ⟨quote, hquote, hcontent, .inr ⟨htext, List.forall₂_nil_left_iff.mp hafter⟩⟩
  | identifier name =>
    obtain ⟨hname, ⟨c, cs, rfl, hc, hcs, hword⟩, hends⟩ := h
    have hall : ∀ x ∈ c :: cs, isWordPart x = true :=
      List.forall_mem_cons.mpr ⟨isWordPart_of_isWordStart hc, hcs⟩
    exact ⟨eq_of_tabbed htext (by decide) hall, hname, ⟨c, cs, rfl, hc, hcs, hword⟩,
      hends.tabbed hafter (by decide)⟩
  | keyword k =>
    obtain ⟨rfl, hends⟩ := h
    have hall : ∀ x ∈ k.spelling.toList, decide (x ≠ '\ufeff') = true := by
      apply List.all_eq_true.mp
      cases k <;> decide
    exact ⟨eq_of_tabbed htext (by decide) hall, rfl, hends.tabbed hafter (by decide)⟩
  | symbol s =>
    obtain ⟨rfl, hlongest⟩ := h
    have hall : ∀ x ∈ s.spelling.toList, decide (x ≠ '\ufeff') = true := by
      apply List.all_eq_true.mp
      cases s <;> decide
    refine ⟨eq_of_tabbed htext (by decide) hall, rfl, ?_⟩
    cases hafter with
    | nil => exact hlongest
    | cons hc _ =>
      rintro _ ⟨⟩
      cases hc with
      | same => exact hlongest _ rfl
      | mark =>
        have htab (more : List Char) (h : s.spelling.toList ++ ['\t'] = more) : '\t' ∈ more := by
          rw [← h]
          simp
        refine ⟨fun hcomment => ?_, fun s' hs' => ?_⟩
        · simpa using htab _ hcomment
        · have hnone : '\t' ∉ s'.spelling.toList := by cases s' <;> decide
          exact hnone (htab _ hs')
  | mark m => exact h.elim
  | endOfInput =>
    obtain ⟨rfl, rfl⟩ := h
    exact ⟨List.forall₂_nil_left_iff.mp htext, rfl, List.forall₂_nil_left_iff.mp hafter⟩

end

/-- Some byte-order marks outside the quoted texts and comments of the first text have been replaced
by tabs. -/
inductive Retabbed : List Char → List Char → Prop
  | nil : Retabbed [] []
  | cons {kind : Option TokenKind} {text text' after after' : List Char}
      (hread : Reads kind text after) (htext : List.Forall₂ Tabbed text text')
      (hkept : Shelters kind text → text' = text) (hafter : Retabbed after after') :
      Retabbed (text ++ after) (text' ++ after')

/-- After a name stand a space, a word that would make a phrase with it and a byte-order mark, which
has been replaced by a tab. -/
def Joins (kind : Option TokenKind) (after after' : List Char) : Prop :=
  ∃ first second k mark more more', kind = some (.identifier first) ∧
    Keyword.ofWords? [first, second] = some k ∧ isByteOrderMark mark = true ∧
    after = ' ' :: (second.toList ++ mark :: more) ∧
    after' = ' ' :: (second.toList ++ '\t' :: more')

/-- Somewhere a tab has joined two names to a phrase. -/
inductive Joined : List Char → List Char → Prop
  | here {kind : Option TokenKind} {text after after' : List Char} (hread : Reads kind text after)
      (hjoins : Joins kind after after') : Joined (text ++ after) (text ++ after')
  | later {kind : Option TokenKind} {text text' after after' : List Char}
      (hread : Reads kind text after) (htext : List.Forall₂ Tabbed text text')
      (hafter : Joined after after') : Joined (text ++ after) (text' ++ after')

theorem Retabbed.tabbed {text text' : List Char} (h : Retabbed text text') :
    List.Forall₂ Tabbed text text' := by
  induction h with
  | nil => exact .nil
  | cons _ htext _ _ ih => exact List.rel_append htext ih

/-- A byte-order mark between two pieces may be replaced. -/
theorem Retabbed.mark {c : Char} {after after' : List Char} (hc : isByteOrderMark c = true)
    (hafter : Retabbed after after') : Retabbed (c :: after) ('\t' :: after') := by
  have hgap : isGap c = true := by rw [isGap, hc, Bool.or_true]
  exact .cons (.gap hgap after) (.cons (.mark hc) .nil) (by simp [Shelters]) hafter

theorem endsPhrase_tabbed {s s' : List Char} (h : List.Forall₂ Tabbed s s') :
    endsPhrase s' = endsPhrase s ∨ endsPhrase s = false ∧ ∃ mark more more',
      isByteOrderMark mark = true ∧ s = mark :: more ∧ s' = '\t' :: more' := by
  cases h with
  | nil => exact .inl rfl
  | cons hc _ =>
    cases hc with
    | same => exact .inl rfl
    | mark hmark =>
      refine .inr ⟨?_, _, _, _, hmark, rfl, rfl⟩
      rw [isByteOrderMark_iff.mp hmark]
      rfl

/-- What is read is read again with tabs for byte-order marks, unless a tab joins a name to the word
after it. -/
theorem Reads.tabbed {kind : Option TokenKind} {text text' after after' : List Char}
    (h : Reads kind text after) (htext : List.Forall₂ Tabbed text text')
    (hkept : Shelters kind text → text' = text) (hafter : List.Forall₂ Tabbed after after') :
    (kind ≠ none → text' = text) ∧ (Reads kind text' after' ∨ Joins kind after after') := by
  have hwritten := h.written
  cases kind with
  | none =>
    have htrivia : Trivia text after := hwritten
    exact ⟨fun hne => absurd rfl hne, .inl (htrivia.tabbed htext hkept hafter).reads⟩
  | some kind =>
    have hspelled : Spelled kind text after := hwritten
    obtain ⟨rfl, hspelled'⟩ := hspelled.tabbed htext hkept hafter
    refine ⟨fun _ => rfl, ?_⟩
    by_cases hjoins : Joins (some kind) after after'
    · exact .inr hjoins
    refine .inl (Written.reads hspelled' ?_ ?_ ?_)
    · rintro ⟨⟩
      obtain ⟨c, cs, htext, -⟩ := h
      cases hspelled.1.symm.trans htext
    · rintro name rest' k ⟨⟩ rfl hk
      obtain ⟨_, rest, hspace, hrest, rfl⟩ := List.forall₂_cons_right_iff.mp hafter
      cases hspace
      -- The second word is the same, and only what stands after it may be a mark or a tab.
      have hrun := takeWhile_tabbed (p := isWordPart) hrest (by decide) (by decide)
      rw [hrun] at hk ⊢
      have hends := h.not_endsPhrase hk
      have hdrop := List.forall₂_drop (rest.takeWhile isWordPart).length hrest
      rcases endsPhrase_tabbed hdrop with hsame | ⟨-, mark, more, more', hmark, hmore, hmore'⟩
      · rw [hsame, hends]
      · have hsplit (s : List Char) :
            s.takeWhile isWordPart ++ s.drop (s.takeWhile isWordPart).length = s :=
          List.prefix_iff_eq_append.mp (List.takeWhile_prefix isWordPart)
        refine absurd ⟨name, _, k, mark, more, more', rfl, hk, hmark, ?_, ?_⟩ hjoins
        · rw [String.toList_ofList, ← hmore, hsplit]
        · rw [String.toList_ofList, ← hmore', ← hrun, hsplit]
    · rintro k ⟨⟩ hwords
      have hends := h.endsPhrase hwords
      rcases endsPhrase_tabbed hafter with hsame | ⟨hnot, -⟩
      · rw [hsame, hends]
      · rw [hends] at hnot
        cases hnot

/-- The second word of a phrase is a word and no keyword by itself. -/
theorem isWord_second {first second : String} {k : Keyword}
    (h : Keyword.ofWords? [first, second] = some k) : IsWord second.toList := by
  have hall : ∀ k ∈ Keyword.all, ∀ v ∈ k.words[1]?, Keyword.isWordText v.toList = true ∧
      Keyword.ofWords? [v] = none := by decide
  have hwords := words_of_ofWords? h
  obtain ⟨hword, hnone⟩ := hall k (by cases k <;> decide) second (by rw [hwords]; rfl)
  obtain ⟨c, cs, htext, hc, hcs⟩ := Keyword.exists_of_isWordText hword
  exact ⟨c, cs, htext, hc, hcs, by rwa [String.ofList_toList]⟩

/-- What a tab joins is read as a phrase. Without its first word the second is a name. -/
theorem Joins.reads {kind : Option TokenKind} {text after after' : List Char}
    (h : Joins kind after after') (hread : Reads kind text after) :
    ∃ k second more', after' = ' ' :: (second ++ '\t' :: more') ∧
      (∀ c ∈ text ++ second, isWordPart c = true) ∧
      Reads (some (.keyword k)) (text ++ ' ' :: second) ('\t' :: more') ∧
      Reads (some (.identifier (String.ofList second))) second ('\t' :: more') := by
  obtain ⟨first, second, k, mark, more, more', rfl, hk, -, rfl, rfl⟩ := h
  obtain ⟨rfl, ⟨c, cs, hfirst, hc, hcs, hnone⟩, -⟩ := hread.written
  obtain ⟨d, ds, hsecond, hd, hds, hnone'⟩ := isWord_second hk
  have hpart {x : Char} {xs : List Char} (hx : isWordStart x = true)
      (hxs : ∀ y ∈ xs, isWordPart y = true) : ∀ y ∈ x :: xs, isWordPart y = true :=
    List.forall_mem_cons.mpr ⟨isWordPart_of_isWordStart hx, hxs⟩
  have hends : Ends isWordPart ('\t' :: more') := by
    rintro _ ⟨⟩
    rfl
  rw [← String.ofList_toList (s := first), ← String.ofList_toList (s := second), hfirst,
    hsecond] at hk
  rw [hfirst] at hnone ⊢
  rw [hsecond] at hnone' ⊢
  refine ⟨k, d :: ds, more', rfl, ?_, ?_, ?_⟩
  · exact List.forall_mem_append.mpr ⟨hpart hc hcs, hpart hd hds⟩
  · exact Reads.phrase hc hcs (hpart hd hds) hends rfl hnone hk
  · exact Reads.name hd hds hends hnone' (by simp)

theorem Joins.not_reads {kind : Option TokenKind} {text after after' : List Char}
    (h : Joins kind after after') (hread : Reads kind text after) : ¬ Reads kind text after' := by
  intro hread'
  obtain ⟨k, second, more', rfl, -, hphrase, -⟩ := h.reads hread
  obtain ⟨first, -, -, -, -, -, rfl, -⟩ := h
  obtain ⟨hkind, -⟩ := hread'.unique hphrase (by simp)
  cases hkind

theorem Joined.ne_nil {s s' : List Char} (h : Joined s s') : s ≠ [] := by
  cases h with
  | here hread _ =>
    obtain ⟨c, cs, rfl, -⟩ := hread
    simp
  | later hread _ _ =>
    obtain ⟨c, cs, rfl, -⟩ := hread
    simp

/-- Names are joined at the first piece of a text or after it. -/
theorem Joined.cases_reads {kind : Option TokenKind} {text text' after after' : List Char}
    (h : Joined (text ++ after) (text' ++ after')) (hread : Reads kind text after)
    (htext : List.Forall₂ Tabbed text text') :
    text' = text ∧ Joins kind after after' ∨ Joined after after' := by
  generalize hs : text ++ after = s at h
  generalize hs' : text' ++ after' = s' at h
  cases h with
  | here hread₂ hjoins =>
    obtain ⟨rfl, rfl, rfl⟩ := hread.unique hread₂ hs
    obtain ⟨rfl, rfl⟩ := List.append_inj hs' htext.length_eq.symm
    exact .inl ⟨rfl, hjoins⟩
  | later hread₂ htext₂ hafter =>
    obtain ⟨rfl, rfl, rfl⟩ := hread.unique hread₂ hs
    obtain ⟨rfl, rfl⟩ := List.append_inj hs' (htext.length_eq.symm.trans htext₂.length_eq)
    exact .inr hafter

/-- The tokens found before make no difference to those found after them. -/
theorem scanFrom_found (line : Nat) (text : List Char) (found : List Token) :
    Token.scanFrom line text found =
      (Token.scanFrom line text []).map (found.reverse ++ ·) := by
  have hbelow := scanFrom_below 0 found line text []
  rw [List.map_nil, List.nil_append, Nat.add_zero] at hbelow
  rw [hbelow]
  cases Token.scanFrom line text [] with
  | error e => rfl
  | ok tokens =>
    have hlower : tokens.map (·.lower 0) = tokens := List.map_id tokens
    rw [below, hlower]
    rfl

/-- A phrase that a tab has made is one token where there were two names. -/
theorem Joins.scanFrom {kind : Option TokenKind} {text after after' : List Char}
    (h : Joins kind after after') (hread : Reads kind text after) {line : Nat}
    {found tokens : List Token}
    (hscan : Token.scanFrom (line + text.count '\n') after'
      ((kind.map fun kind => ⟨kind, String.ofList text, line⟩).toList ++ found) = .ok tokens) :
    ∃ tokens', Token.scanFrom line (text ++ after') found = .ok tokens' ∧
      tokens'.length < tokens.length := by
  obtain ⟨k, second, more', rfl, hword, hphrase, hname⟩ := h.reads hread
  obtain ⟨first, -, -, -, -, -, rfl, -⟩ := h
  have hlines {s : List Char} (hs : ∀ c ∈ s, isWordPart c = true) : s.count '\n' = 0 :=
    List.count_eq_zero.mpr fun hmem => Bool.noConfusion (hs '\n' hmem)
  obtain ⟨htext, hsecond⟩ := List.forall_mem_append.mp hword
  have hspace : Reads none [' '] (second ++ '\t' :: more') := .gap rfl _
  have hsplit : ' ' :: (second ++ '\t' :: more') = [' '] ++ (second ++ '\t' :: more') := rfl
  rw [hsplit, hspace.scanFrom, hname.scanFrom, scanFrom_found] at hscan
  have hjoin : text ++ ' ' :: (second ++ '\t' :: more') =
      text ++ ' ' :: second ++ '\t' :: more' := by simp
  rw [hjoin, hphrase.scanFrom, scanFrom_found]
  have hone : (' ' :: second).count '\n' = 0 := by
    rw [List.count_cons_of_ne (by decide), hlines hsecond]
  have hnone : [' '].count '\n' = 0 := rfl
  simp only [hlines htext, hnone, hlines hsecond, Nat.add_zero] at hscan
  rw [List.count_append, hlines htext, hone]
  cases hmore : Token.scanFrom line ('\t' :: more') [] with
  | error e =>
    rw [hmore] at hscan
    cases hscan
  | ok rest =>
    rw [hmore] at hscan
    cases hscan
    refine ⟨_, rfl, ?_⟩
    simp

/-- With tabs for byte-order marks a scan gives the same tokens, or fewer where names are joined. -/
theorem Retabbed.scanFrom {text text' : List Char} (h : Retabbed text text') {line : Nat}
    {found tokens : List Token} (hscan : Token.scanFrom line text found = .ok tokens) :
    ∃ tokens', Token.scanFrom line text' found = .ok tokens' ∧
      (¬ Joined text text' → tokens' = tokens) ∧
      (Joined text text' → tokens'.length < tokens.length) := by
  induction h generalizing line found with
  | nil => exact ⟨tokens, hscan, fun _ => rfl, fun hjoined => absurd rfl hjoined.ne_nil⟩
  | @cons kind text text' after after' hread htext hkept hafter ih =>
    rw [hread.scanFrom] at hscan
    obtain ⟨tokens', hscan', hsame, hfewer⟩ := ih hscan
    obtain ⟨hkeeps, hread' | hjoins⟩ := hread.tabbed htext hkept hafter.tabbed
    · refine ⟨tokens', ?_, fun hnot => ?_, fun hjoined => ?_⟩
      · rw [hread'.scanFrom, count_newLine_tabbed htext]
        cases kind with
        | none => exact hscan'
        | some kind =>
          rw [hkeeps (by simp)]
          exact hscan'
      · exact hsame fun hjoined => hnot (.later hread htext hjoined)
      · rcases hjoined.cases_reads hread htext with ⟨rfl, hjoins⟩ | hjoined
        · exact absurd hread' (hjoins.not_reads hread)
        · exact hfewer hjoined
    · have hsame' : text' = text := hkeeps (by obtain ⟨_, -, -, -, -, -, rfl, -⟩ := hjoins; simp)
      have hle : tokens'.length ≤ tokens.length := by
        by_cases hjoined : Joined after after'
        · exact Nat.le_of_lt (hfewer hjoined)
        · exact Nat.le_of_eq (congrArg _ (hsame hjoined))
      -- The induction speaks of the text after the first name, which the phrase takes a part of.
      obtain ⟨joined, hscan, hlength⟩ := hjoins.scanFrom hread hscan'
      rw [hsame']
      exact ⟨joined, hscan, fun hnot => absurd (.here hread hjoins) hnot,
        fun _ => Nat.lt_of_lt_of_le hlength hle⟩

/-- Byte-order marks outside quoted texts and comments may be replaced by tabs. The source is still
scanned, and the kinds and lines of its tokens stay what they were exactly if no tab joins two names
to a phrase. Then the tokens are the same in all. -/
theorem marks_read_as_tabs_iff {source source' : String} {tokens : List Token}
    (h : Retabbed source.toList source'.toList) (hscan : Token.scan source = .ok tokens) :
    ∃ tokens', Token.scan source' = .ok tokens' ∧
      (tokens'.map (fun t => (t.kind, t.line)) = tokens.map (fun t => (t.kind, t.line)) ↔
        ¬ Joined source.toList source'.toList) ∧
      (¬ Joined source.toList source'.toList → tokens' = tokens) := by
  obtain ⟨tokens', hscan', hsame, hfewer⟩ := h.scanFrom hscan
  refine ⟨tokens', hscan', ⟨fun hkinds hjoined => ?_, fun hnot => by rw [hsame hnot]⟩, hsame⟩
  have hlength := congrArg List.length hkinds
  rw [List.length_map, List.length_map] at hlength
  exact Nat.ne_of_lt (hfewer hjoined) hlength

/-- The marks of a quoted text and of a comment are kept, and no name is joined by the tabs around
them. -/
theorem marks_read_as_tabs_kept :
    let source := "\ufeffক\ufeff'\ufeff'//\ufeff"
    let source' := "\tক\t'\ufeff'//\ufeff"
    let tokens : List Token := [⟨.identifier "ক", "ক", 1⟩, ⟨.string "\ufeff", "'\ufeff'", 1⟩,
      ⟨.endOfInput, "", 1⟩]
    Token.scan source = .ok tokens ∧ Token.scan source' = .ok tokens ∧
      ¬ Joined source.toList source'.toList := by
  intro source source' tokens
  have hscan : Token.scan source = .ok tokens := scan_of_toOption (by decide +kernel)
  have hscan' : Token.scan source' = .ok tokens := scan_of_toOption (by decide +kernel)
  have hname : Reads (some (.identifier "ক")) ['ক']
      ['\ufeff', '\'', '\ufeff', '\'', '/', '/', '\ufeff'] := ⟨_, _, rfl, by decide +kernel⟩
  have hquoted : Reads (some (.string "\ufeff")) ['\'', '\ufeff', '\''] ['/', '/', '\ufeff'] :=
    ⟨_, _, rfl, by decide +kernel⟩
  have hcomment : Reads none ['/', '/', '\ufeff'] [] := ⟨_, _, rfl, by decide +kernel⟩
  have hretabbed : Retabbed source.toList source'.toList := by
    have htexts : source.toList =
          ['\ufeff', 'ক', '\ufeff', '\'', '\ufeff', '\'', '/', '/', '\ufeff'] ∧
        source'.toList = ['\t', 'ক', '\t', '\'', '\ufeff', '\'', '/', '/', '\ufeff'] := by
      decide +kernel
    rw [htexts.1, htexts.2]
    exact .mark rfl <| .cons hname (forall₂_tabbed_self _) (fun _ => rfl) <|
      .mark rfl <| .cons hquoted (forall₂_tabbed_self _) (fun _ => rfl) <|
      .cons hcomment (forall₂_tabbed_self _) (fun _ => rfl) .nil
  obtain ⟨tokens', hscan'', hiff, -⟩ := marks_read_as_tabs_iff hretabbed hscan
  cases hscan'.symm.trans hscan''
  exact ⟨hscan, hscan', hiff.mp rfl⟩

/-- Two names before a byte-order mark are a phrase before a tab. -/
theorem mark_not_read_as_tab :
    ¬ ∀ (source source' : String) (tokens : List Token),
      Retabbed source.toList source'.toList → Token.scan source = .ok tokens →
        ∃ tokens', Token.scan source' = .ok tokens' ∧
          tokens'.map (fun t => (t.kind, t.line)) = tokens.map (fun t => (t.kind, t.line)) := by
  intro hall
  have hscan : Token.scan "কাকা বলো\ufeff1" = .ok
      [⟨.identifier "কাকা", "কাকা", 1⟩, ⟨.identifier "বলো", "বলো", 1⟩, ⟨.number "1", "1", 1⟩,
        ⟨.endOfInput, "", 1⟩] := scan_of_toOption (by decide +kernel)
  have hscan' : Token.scan "কাকা বলো\t1" = .ok
      [⟨.keyword .print, "কাকা বলো", 1⟩, ⟨.number "1", "1", 1⟩, ⟨.endOfInput, "", 1⟩] :=
    scan_of_toOption (by decide +kernel)
  have hretabbed : Retabbed "কাকা বলো\ufeff1".toList "কাকা বলো\t1".toList := by
    have htexts : "কাকা বলো\ufeff1".toList =
          ['ক', 'া', 'ক', 'া', ' ', 'ব', 'ল', 'ো', '\ufeff', '1'] ∧
        "কাকা বলো\t1".toList = ['ক', 'া', 'ক', 'া', ' ', 'ব', 'ল', 'ো', '\t', '1'] := by
      decide +kernel
    have hfirst : Reads (some (.identifier "কাকা")) ['ক', 'া', 'ক', 'া']
        [' ', 'ব', 'ল', 'ো', '\ufeff', '1'] := ⟨_, _, rfl, by decide +kernel⟩
    have hsecond : Reads (some (.identifier "বলো")) ['ব', 'ল', 'ো'] ['\ufeff', '1'] :=
      ⟨_, _, rfl, by decide +kernel⟩
    have hnumeral : Reads (some (.number "1")) ['1'] [] := ⟨_, _, rfl, by decide +kernel⟩
    rw [htexts.1, htexts.2]
    exact .cons hfirst (forall₂_tabbed_self _) (fun _ => rfl) <|
      .cons (.gap rfl _) (forall₂_tabbed_self [' ']) (fun _ => rfl) <|
      .cons hsecond (forall₂_tabbed_self _) (fun _ => rfl) <|
      .mark rfl <| .cons hnumeral (forall₂_tabbed_self _) (fun _ => rfl) .nil
  obtain ⟨tokens', hscan'', hkinds⟩ := hall _ _ _ hretabbed hscan
  cases hscan'.symm.trans hscan''
  cases congrArg List.length hkinds

end KakaLang.Scan
