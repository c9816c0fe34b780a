import KakaLang.Proofs.NumeralRoundTrip
import KakaLang.Proofs.Spacing

/-!
Printable programs: the names scan alone as identifiers, no text holds both quotation marks, and no
number is below zero. Their source text is well spaced, so it scans to the kinds of its lexemes.
-/

namespace KakaLang

open Scan

def Literal.Printable : Literal → Prop
  | .number x => Number.IsUnsigned x
  | .string s => '"' ∉ s.toList ∨ '\'' ∉ s.toList
  | _ => True

namespace Expr

mutual

def Printable : Expr → Prop
  | .literal value _ => value.Printable
  | .ident name _ => IsName name
  | .binary _ left right _ => left.Printable ∧ right.Printable
  | .logical _ left right _ => left.Printable ∧ right.Printable
  | .assign name value _ => IsName name ∧ value.Printable
  | .input _ => True
  | .call callee arguments _ => callee.Printable ∧ AllPrintable arguments
  | .array elements _ => AllPrintable elements
  | .member object property _ => object.Printable ∧ property.Printable

def AllPrintable : List Expr → Prop
  | [] => True
  | e :: es => e.Printable ∧ AllPrintable es

end

end Expr

namespace Statement

mutual

def Printable : Statement → Prop
  | .declare name value _ => IsName name ∧ value.Printable
  | .print value _ => value.Printable
  | .branch condition yes none _ => condition.Printable ∧ BlockPrintable yes
  | .branch condition yes (some no) _ =>
    condition.Printable ∧ BlockPrintable yes ∧ BlockPrintable no
  | .loop condition body _ => condition.Printable ∧ BlockPrintable body
  | .block body => BlockPrintable body
  | .expression value _ => value.Printable
  | .leave _ => True
  | .next _ => True
  | .function _ name params body _ =>
    IsName name ∧ (∀ param ∈ params, IsName param) ∧ BlockPrintable body
  | .give none _ => True
  | .give (some value) _ => value.Printable

def BlockPrintable : Block → Prop
  | .mk statements _ => AllPrintable statements

def AllPrintable : List Statement → Prop
  | [] => True
  | s :: rest => s.Printable ∧ AllPrintable rest

end

end Statement

def Program.Printable (p : Program) : Prop := Statement.AllPrintable p

namespace Lexeme

/-- Well spaced before everything that an expression goes on with. -/
def Spaced (ls : List Lexeme) : Prop :=
  ∀ after, Continues after → WellSpaced after → WellSpaced (ls ++ after)

theorem Spaced.parenthesized (needed : Bool) {ls : List Lexeme} (h : Spaced ls) :
    Spaced (parenthesized needed ls) := by
  intro after hcontinues hafter
  rw [Lexeme.parenthesized]
  cases needed with
  | false => exact h after hcontinues hafter
  | true =>
    rw [if_pos rfl, List.cons_append, List.append_assoc]
    refine ⟨Or.inl rfl, h _ (.separator rfl (by decide)) ?_⟩
    exact ⟨Or.inl rfl, hafter⟩

theorem Spaced.following {lss : List (List Lexeme)} (h : ∀ ls ∈ lss, Spaced ls)
    {l : Lexeme} {after : List Lexeme} (hl : l.separates = true) (hspace : l ≠ space)
    (hafter : WellSpaced (l :: after)) :
    Continues (following lss ++ l :: after) ∧ WellSpaced (following lss ++ l :: after) := by
  induction lss with
  | nil => exact ⟨.separator hl hspace, hafter⟩
  | cons ls rest ih =>
    obtain ⟨hcontinues, hrest⟩ := ih fun ms hms => h ms (by simp [hms])
    have hls := h ls (by simp) _ hcontinues hrest
    rw [Lexeme.following, List.cons_append, List.cons_append, List.append_assoc]
    exact ⟨.separator rfl (by decide), Or.inl rfl, trivial, hls⟩

theorem Spaced.separated {lss : List (List Lexeme)} (h : ∀ ls ∈ lss, Spaced ls)
    {l : Lexeme} {after : List Lexeme} (hl : l.separates = true) (hspace : l ≠ space)
    (hafter : WellSpaced (l :: after)) : WellSpaced (separated lss ++ l :: after) := by
  cases lss with
  | nil => exact hafter
  | cons ls rest =>
    obtain ⟨hcontinues, hrest⟩ :=
      Spaced.following (fun ms (hms : ms ∈ rest) => h ms (by simp [hms])) hl hspace hafter
    rw [Lexeme.separated, List.append_assoc]
    exact h ls (by simp) _ hcontinues hrest

theorem Spaced.literal {v : Literal} (h : v.Printable) : Spaced [ofLiteral v] := by
  intro after hcontinues hafter
  have hparted := hcontinues.parted
  have hword : ∀ k : Keyword, k.words.length ≠ 2 → WellSpaced (keyword k :: after) :=
    fun k hk => ⟨⟨hparted, fun htwo => absurd htwo hk⟩, hafter⟩
  cases v with
  | number x =>
    refine ⟨⟨?_, hparted⟩, hafter⟩
    obtain ⟨c, cs, htext, hc, hcs⟩ := Number.isPlainText_numeralSource h
    refine ⟨c, cs, by rw [← htext, String.ofList_toList], by simp [Text.isDigit, hc], ?_⟩
    intro x hx
    have hplain := hcs x hx
    simp only [Text.isPlain, Bool.or_eq_true] at hplain
    rcases hplain with hdigit | hpoint
    · simp [isNumeralPart, Text.isDigit, hdigit]
    · simp [isNumeralPart, of_decide_eq_true hpoint]
  | string s => exact ⟨h, hafter⟩
  | bool b =>
    cases b with
    | true => exact hword .trueWord (by decide)
    | false => exact hword .falseWord (by decide)
  | null => exact hword .null (by decide)

end Lexeme

namespace Expr

open Lexeme (Spaced)

mutual

/-- The lexemes of a printable expression are well spaced. -/
theorem spaced (level : Nat) : (e : Expr) → e.Printable → Spaced (e.lexemes level)
  | .literal value _, h => by
    rw [lexemes]
    exact (Spaced.literal h).parenthesized _
  | .ident name _, h => by
    rw [lexemes]
    apply Spaced.parenthesized
    exact fun after hcontinues hafter => ⟨⟨isName_iff.mp h, hcontinues⟩, hafter⟩
  | .binary op left right _, h => by
    rw [lexemes]
    apply Spaced.parenthesized
    intro after hcontinues hafter
    have hright := spaced (op.level + 1) right h.2 after hcontinues hafter
    rw [List.append_assoc]
    apply spaced op.level left h.1 _ (.symbol _ _)
    exact ⟨trivial, Or.inr ⟨_, rfl⟩, trivial, hright⟩
  | .logical op left right _, h => by
    rw [lexemes]
    apply Spaced.parenthesized
    intro after hcontinues hafter
    have hright := spaced (op.level + 1) right h.2 after hcontinues hafter
    have hone : op.keyword.words.length ≠ 2 := by cases op <;> decide
    rw [List.append_assoc]
    apply spaced op.level left h.1 _ (.operator _ _)
    exact ⟨trivial, ⟨rfl, fun htwo => absurd htwo hone⟩, trivial, hright⟩
  | .assign name value _, h => by
    rw [lexemes]
    apply Spaced.parenthesized
    intro after hcontinues hafter
    have hvalue := spaced Level.assignment value h.2 after hcontinues hafter
    exact ⟨⟨isName_iff.mp h.1, .symbol _ _⟩, trivial, Or.inr ⟨_, rfl⟩, trivial, hvalue⟩
  | .input _, _ => by
    rw [lexemes]
    apply Spaced.parenthesized
    exact fun after hcontinues hafter => ⟨⟨hcontinues.parted, fun _ => Or.inl rfl⟩, hafter⟩
  | .call callee arguments _, h => by
    rw [lexemes]
    apply Spaced.parenthesized
    intro after hcontinues hafter
    rw [List.append_assoc, List.cons_append, List.append_assoc]
    apply spaced Level.operand callee h.1 _ (.separator rfl (by decide))
    refine ⟨Or.inl rfl, Spaced.separated (list_spaced arguments h.2) rfl (by decide) ?_⟩
    exact ⟨Or.inl rfl, hafter⟩
  | .array elements _, h => by
    rw [lexemes]
    apply Spaced.parenthesized
    intro after hcontinues hafter
    rw [List.cons_append, List.append_assoc]
    refine ⟨Or.inl rfl, Spaced.separated (list_spaced elements h) rfl (by decide) ?_⟩
    exact ⟨Or.inl rfl, hafter⟩
  | .member object property _, h => by
    rw [lexemes]
    apply Spaced.parenthesized
    intro after hcontinues hafter
    rw [List.append_assoc, List.cons_append, List.append_assoc]
    apply spaced Level.operand object h.1 _ (.separator rfl (by decide))
    refine ⟨Or.inl rfl, spaced Level.assignment property h.2 _ (.separator rfl (by decide)) ?_⟩
    exact ⟨Or.inl rfl, hafter⟩

theorem list_spaced : (es : List Expr) → AllPrintable es → ∀ ls ∈ listLexemes es, Spaced ls
  | [], _ => by simp [listLexemes]
  | e :: es, h => by
    intro ls hls
    rw [listLexemes] at hls
    rcases List.mem_cons.mp hls with rfl | hls
    · exact spaced Level.assignment e h.1
    · exact list_spaced es h.2 ls hls

end

end Expr

namespace Lexeme

theorem WellSpaced.line {depth : Nat} {ls after : List Lexeme}
    (h : WellSpaced (ls ++ newLine :: after)) : WellSpaced (line depth ls ++ after) := by
  have hindent : ∀ n, WellSpaced (List.replicate n space ++ (ls ++ newLine :: after)) := by
    intro n
    induction n with
    | zero => exact h
    | succ n ih => exact ⟨trivial, ih⟩
  rw [Lexeme.line, List.append_assoc, List.append_assoc]
  exact hindent (2 * depth)

/-- A keyword that stands before a space, the end of the line or a semicolon. -/
theorem WellSpaced.keyword {k : Keyword} {l : Lexeme} {after : List Lexeme}
    (hl : l = space ∨ l = newLine ∨ l = symbol .semicolon) (h : WellSpaced (l :: after)) :
    WellSpaced (keyword k :: l :: after) := by
  refine ⟨⟨?_, fun _ => Or.inr ?_⟩, h⟩
  all_goals rcases hl with rfl | rfl | rfl <;> rfl

/-- An expression before a semicolon at the end of a line. -/
theorem WellSpaced.terminated {e : Expr} (he : e.Printable) {after : List Lexeme}
    (h : WellSpaced after) :
    WellSpaced (e.lexemes Level.assignment ++ [symbol .semicolon] ++ newLine :: after) := by
  rw [List.append_assoc]
  apply e.spaced Level.assignment he _ (.separator rfl (by decide))
  exact ⟨Or.inl rfl, trivial, h⟩

theorem WellSpaced.header {k : Keyword} {e : Expr} (he : e.Printable) {depth : Nat}
    {after : List Lexeme} (h : WellSpaced after) :
    WellSpaced (Lexeme.line depth (Statement.headerLexemes k e) ++ after) := by
  apply WellSpaced.line
  simp only [Statement.headerLexemes, List.cons_append, List.append_assoc]
  apply WellSpaced.keyword (Or.inl rfl)
  refine ⟨trivial, Or.inl rfl, ?_⟩
  apply e.spaced Level.assignment he _ (.separator rfl (by decide))
  exact ⟨Or.inl rfl, trivial, Or.inl rfl, trivial, h⟩

theorem WellSpaced.closing (depth : Nat) {after : List Lexeme} (h : WellSpaced after) :
    WellSpaced (Lexeme.line depth [symbol .closeBrace] ++ after) :=
  WellSpaced.line ⟨Or.inl rfl, trivial, h⟩

end Lexeme

namespace Statement

open Lexeme (WellSpaced)

mutual

/-- The lexemes of a printable statement are well spaced. -/
theorem wellSpaced (depth : Nat) {after : List Lexeme} (hafter : WellSpaced after) :
    (s : Statement) → s.Printable → WellSpaced (s.lexemes depth ++ after)
  | .declare name value _, h => by
    rw [lexemes]
    apply WellSpaced.line
    apply WellSpaced.keyword (Or.inl rfl)
    have hvalue := WellSpaced.terminated h.2 hafter
    exact ⟨trivial, ⟨isName_iff.mp h.1, .symbol _ _⟩, trivial, Or.inr ⟨_, rfl⟩, trivial, hvalue⟩
  | .print value _, h => by
    rw [lexemes]
    apply WellSpaced.line
    apply WellSpaced.keyword (Or.inl rfl)
    exact ⟨trivial, WellSpaced.terminated h hafter⟩
  | .branch condition yes none _, h => by
    rw [lexemes, List.append_assoc, List.append_assoc]
    apply WellSpaced.header h.1
    exact block_wellSpaced (depth + 1) (WellSpaced.closing depth hafter) yes h.2
  | .branch condition yes (some no) _, h => by
    rw [lexemes, List.append_assoc, List.append_assoc, List.append_assoc, List.append_assoc]
    have hno := block_wellSpaced (depth + 1) (WellSpaced.closing depth hafter) no h.2.2
    apply WellSpaced.header h.1
    apply block_wellSpaced (depth + 1) _ yes h.2.1
    apply WellSpaced.line
    refine ⟨Or.inl rfl, trivial, WellSpaced.keyword (Or.inl rfl) ?_⟩
    exact ⟨trivial, Or.inl rfl, trivial, hno⟩
  | .loop condition body _, h => by
    rw [lexemes, List.append_assoc, List.append_assoc]
    apply WellSpaced.header h.1
    exact block_wellSpaced (depth + 1) (WellSpaced.closing depth hafter) body h.2
  | .block body, h => by
    rw [lexemes, List.append_assoc, List.append_assoc]
    have hbody := block_wellSpaced (depth + 1) (WellSpaced.closing depth hafter) body h
    exact WellSpaced.line ⟨Or.inl rfl, trivial, hbody⟩
  | .expression value _, h => by
    rw [lexemes]
    exact WellSpaced.line (WellSpaced.terminated h hafter)
  | .leave _, _ => by
    rw [lexemes]
    apply WellSpaced.line
    exact WellSpaced.keyword (Or.inr (Or.inr rfl)) ⟨Or.inl rfl, trivial, hafter⟩
  | .next _, _ => by
    rw [lexemes]
    apply WellSpaced.line
    exact WellSpaced.keyword (Or.inr (Or.inr rfl)) ⟨Or.inl rfl, trivial, hafter⟩
  | .function _ name params body _, h => by
    rw [lexemes, List.append_assoc, List.append_assoc]
    have hbody := block_wellSpaced (depth + 1) (WellSpaced.closing depth hafter) body h.2.2
    have hparams : ∀ ls ∈ params.map fun param => [Lexeme.name param], Lexeme.Spaced ls := by
      intro ls hls
      obtain ⟨param, hparam, rfl⟩ := List.mem_map.mp hls
      exact fun after hcontinues hafter =>
        ⟨⟨isName_iff.mp (h.2.1 param hparam), hcontinues⟩, hafter⟩
    apply WellSpaced.line
    simp only [List.cons_append, List.append_assoc]
    apply WellSpaced.keyword (Or.inl rfl)
    refine ⟨trivial, ⟨isName_iff.mp h.1, .separator rfl (by decide)⟩, Or.inl rfl, ?_⟩
    apply Lexeme.Spaced.separated hparams rfl (by decide)
    exact ⟨Or.inl rfl, trivial, Or.inl rfl, trivial, hbody⟩
  | .give none _, _ => by
    rw [lexemes]
    apply WellSpaced.line
    exact WellSpaced.keyword (Or.inr (Or.inr rfl)) ⟨Or.inl rfl, trivial, hafter⟩
  | .give (some value) _, h => by
    rw [lexemes]
    apply WellSpaced.line
    apply WellSpaced.keyword (Or.inl rfl)
    exact ⟨trivial, WellSpaced.terminated h hafter⟩

theorem block_wellSpaced (depth : Nat) {after : List Lexeme} (hafter : WellSpaced after) :
    (b : Block) → BlockPrintable b → WellSpaced (blockLexemes depth b ++ after)
  | .mk statements _, h => by
    rw [blockLexemes]
    exact list_wellSpaced depth hafter statements h

theorem list_wellSpaced (depth : Nat) {after : List Lexeme} (hafter : WellSpaced after) :
    (ss : List Statement) → AllPrintable ss → WellSpaced (listLexemes depth ss ++ after)
  | [], _ => hafter
  | s :: rest, h => by
    rw [listLexemes, List.append_assoc]
    exact wellSpaced depth (list_wellSpaced depth hafter rest h.2) s h.1

end

end Statement

namespace Program

theorem wellSpaced {p : Program} (h : p.Printable) : Lexeme.WellSpaced p.lexemes := by
  rw [lexemes, List.append_assoc]
  apply Lexeme.WellSpaced.line
  apply Lexeme.WellSpaced.keyword (Or.inr (Or.inl rfl))
  refine ⟨trivial, Statement.list_wellSpaced 1 ?_ p h⟩
  exact ⟨⟨rfl, fun _ => Or.inr rfl⟩, trivial, trivial⟩

/-- The source text of a printable program scans to the kinds of its lexemes. -/
theorem scan_source {p : Program} (h : p.Printable) :
    ∃ tokens, Token.scan p.source = .ok tokens ∧
      tokens.map (·.kind) = Lexeme.kinds p.lexemes := by
  obtain ⟨tokens, hscan, hkinds⟩ := Lexeme.spells_join (wellSpaced h) 1 []
  rw [← p.toList_source] at hscan
  exact ⟨tokens, hscan, hkinds⟩

end Program

end KakaLang
