import KakaLang.Proofs.Recognition
import Mathlib.Data.List.Forall2

/-!
Numerals in another spelling. The parser sees a numeral only through its value, so a derivation goes
through with other tokens in place of its own, as long as they stand on the same lines and differ in
nothing but how the numerals are written. It stands for the same tree then.

A derivation is carried over together with what follows it: the tokens are given in one list, and
where the derivation ends in it is part of the result.
-/

namespace KakaLang

def TokenKind.isNumeral : TokenKind → Bool
  | .number _ => true
  | _ => false

/-- The parser cannot tell the tokens apart. -/
structure Token.SameReading (t u : Token) : Prop where
  line : u.line = t.line
  kind : u.kind = t.kind ∨ ∃ raw raw', t.kind = .number raw ∧ u.kind = .number raw' ∧
    Parser.numeralValue raw' = Parser.numeralValue raw

theorem Token.SameReading.symm {t u : Token} (h : t.SameReading u) : u.SameReading t := by
  refine ⟨h.line.symm, ?_⟩
  rcases h.kind with hkind | ⟨raw, raw', ht, hu, hvalue⟩
  · exact .inl hkind.symm
  · exact .inr ⟨raw', raw, hu, ht, hvalue.symm⟩

namespace Grammar

open Token (SameReading)
open List (Forall₂)

/-- From tokens that the parser cannot tell from those of a derivation and what follows them,
another derivation of the same value can be read. -/
def Rereads {D α : Type} (tokens : D → List Token) (value : D → α) (d : D) : Prop :=
  ∀ ⦃rest ts : List Token⦄, Forall₂ SameReading (tokens d ++ rest) ts →
    ∃ (d' : D) (rest' : List Token), ts = tokens d' ++ rest' ∧ value d' = value d ∧
      Forall₂ SameReading rest rest'

/-- Only a numeral can be spelled in another way. -/
theorem Terminal.reread {kind : TokenKind} (t : Terminal kind) (hkind : kind.isNumeral = false)
    {rest ts : List Token} (h : Forall₂ SameReading (t.val :: rest) ts) :
    ∃ (t' : Terminal kind) (rest' : List Token), ts = t'.val :: rest' ∧
      t'.val.line = t.val.line ∧ Forall₂ SameReading rest rest' := by
  obtain ⟨u, rest', hu, hrest, rfl⟩ := List.forall₂_cons_left_iff.mp h
  rcases hu.kind with hsame | ⟨raw, raw', hraw, -, -⟩
  · exact ⟨⟨u, hsame.trans t.property⟩, rest', rfl, hu.line, hrest⟩
  · rw [← t.property, hraw] at hkind
    cases hkind

/-- A numeral stands for its value, and any other atom is spelled in one way only. -/
theorem Atom.reread {t u : Token} {e : Expr} (h : Atom t.line t.kind e) (hu : t.SameReading u) :
    Atom u.line u.kind e := by
  rw [hu.line]
  rcases hu.kind with hsame | ⟨raw, raw', ht, hu, hvalue⟩
  · rwa [hsame]
  · rw [ht] at h
    cases h
    rw [hu, ← hvalue]
    exact .number raw'

theorem Sign.isNumeral_kind {level : Nat} (sign : Sign level) :
    sign.op.kind.isNumeral = false := by
  cases sign.op <;> rfl

mutual

theorem Expression.reread : (d : Expression) → Rereads Expression.tokens Expression.tree? d
  | .plain value => by
    intro rest ts h
    obtain ⟨value', rest', rfl, hvalue, hrest⟩ := value.reread h
    exact ⟨.plain value', rest', rfl, hvalue, hrest⟩
  | .assign target equals value => by
    intro rest ts h
    rw [Expression.tokens, List.append_assoc, List.cons_append] at h
    obtain ⟨target', mid, rfl, htarget, h⟩ := target.reread h
    obtain ⟨equals', mid, rfl, -, h⟩ := equals.reread rfl h
    obtain ⟨value', rest', rfl, hvalue, h⟩ := value.reread h
    refine ⟨.assign target' equals' value', rest', ?_, ?_, h⟩
    · simp [Expression.tokens]
    · rw [Expression.tree?, Expression.tree?, htarget, hvalue]

theorem Operation.reread : {level : Nat} → (d : Operation level) →
    Rereads Operation.tokens Operation.tree? d
  | _, .operand value => by
    intro rest ts h
    obtain ⟨value', rest', rfl, hvalue, hrest⟩ := value.reread h
    exact ⟨.operand value', rest', rfl, hvalue, hrest⟩
  | _, .chain looser first tail => by
    intro rest ts h
    rw [Operation.tokens, List.append_assoc] at h
    obtain ⟨first', mid, rfl, hfirst, h⟩ := first.reread h
    obtain ⟨tail', rest', rfl, htail, h⟩ := tail.reread h
    refine ⟨.chain looser first' tail', rest', ?_, ?_, h⟩
    · simp [Operation.tokens]
    · simp only [Operation.tree?, hfirst, htail]

theorem Tail.reread : {level : Nat} → (d : Tail level) → Rereads Tail.tokens Tail.join? d
  | _, .nil => fun rest ts h => ⟨.nil, ts, rfl, rfl, h⟩
  | _, .cons sign right rest => by
    intro after ts h
    rw [Tail.tokens, List.cons_append, List.append_assoc] at h
    obtain ⟨token', mid, rfl, hline, h⟩ := sign.token.reread sign.isNumeral_kind h
    obtain ⟨right', mid, rfl, hright, h⟩ := right.reread h
    obtain ⟨rest', after', rfl, hrest, h⟩ := rest.reread h
    refine ⟨.cons ⟨sign.op, token', sign.level_eq⟩ right' rest', after', ?_, ?_, h⟩
    · simp [Tail.tokens]
    · funext left
      simp only [Tail.join?, hright, hrest, hline]

theorem Operand.reread : (d : Operand) → Rereads Operand.tokens Operand.tree? d
  | .mk head suffixes => by
    intro rest ts h
    rw [Operand.tokens, List.append_assoc] at h
    obtain ⟨head', mid, rfl, hhead, h⟩ := head.reread h
    obtain ⟨suffixes', rest', rfl, hsuffixes, h⟩ := suffixes.reread h
    refine ⟨.mk head' suffixes', rest', ?_, ?_, h⟩
    · simp [Operand.tokens]
    · simp only [Operand.tree?, hhead, hsuffixes]

theorem Suffixes.reread : (d : Suffixes) → Rereads Suffixes.tokens Suffixes.extend? d
  | .nil => fun rest ts h => ⟨.nil, ts, rfl, rfl, h⟩
  | .call opening arguments closing rest => by
    intro after ts h
    rw [Suffixes.tokens, List.cons_append, List.append_assoc, List.cons_append] at h
    obtain ⟨opening', mid, rfl, hline, h⟩ := opening.reread rfl h
    obtain ⟨arguments', mid, rfl, harguments, h⟩ := arguments.reread h
    obtain ⟨closing', mid, rfl, -, h⟩ := closing.reread rfl h
    obtain ⟨rest', after', rfl, hrest, h⟩ := rest.reread h
    refine ⟨.call opening' arguments' closing' rest', after', ?_, ?_, h⟩
    · simp [Suffixes.tokens]
    · funext head
      simp only [Suffixes.extend?, harguments, hrest, hline]
  | .member opening property closing rest => by
    intro after ts h
    rw [Suffixes.tokens, List.cons_append, List.append_assoc, List.cons_append] at h
    obtain ⟨opening', mid, rfl, hline, h⟩ := opening.reread rfl h
    obtain ⟨property', mid, rfl, hproperty, h⟩ := property.reread h
    obtain ⟨closing', mid, rfl, -, h⟩ := closing.reread rfl h
    obtain ⟨rest', after', rfl, hrest, h⟩ := rest.reread h
    refine ⟨.member opening' property' closing' rest', after', ?_, ?_, h⟩
    · simp [Suffixes.tokens]
    · funext head
      simp only [Suffixes.extend?, hproperty, hrest, hline]

theorem Primary.reread : (d : Primary) → Rereads Primary.tokens Primary.tree? d
  | .atom token value hatom => by
    intro rest ts h
    obtain ⟨token', rest', htoken, hrest, rfl⟩ := List.forall₂_cons_left_iff.mp h
    exact ⟨.atom token' value (hatom.reread htoken), rest', rfl, rfl, hrest⟩
  | .array opening elements closing => by
    intro rest ts h
    rw [Primary.tokens, List.cons_append, List.append_assoc] at h
    obtain ⟨opening', mid, rfl, hline, h⟩ := opening.reread rfl h
    obtain ⟨elements', mid, rfl, helements, h⟩ := elements.reread h
    obtain ⟨closing', rest', rfl, -, h⟩ := closing.reread rfl h
    refine ⟨.array opening' elements' closing', rest', ?_, ?_, h⟩
    · simp [Primary.tokens]
    · simp only [Primary.tree?, helements, hline]
  | .group opening inner closing => by
    intro rest ts h
    rw [Primary.tokens, List.cons_append, List.append_assoc] at h
    obtain ⟨opening', mid, rfl, -, h⟩ := opening.reread rfl h
    obtain ⟨inner', mid, rfl, hinner, h⟩ := inner.reread h
    obtain ⟨closing', rest', rfl, -, h⟩ := closing.reread rfl h
    refine ⟨.group opening' inner' closing', rest', ?_, hinner, h⟩
    simp [Primary.tokens]

theorem Items.reread : (d : Items) → Rereads Items.tokens Items.trees? d
  | .empty => fun rest ts h => ⟨.empty, ts, rfl, rfl, h⟩
  | .cons first more => by
    intro rest ts h
    rw [Items.tokens, List.append_assoc] at h
    obtain ⟨first', mid, rfl, hfirst, h⟩ := first.reread h
    obtain ⟨more', rest', rfl, hmore, h⟩ := more.reread h
    refine ⟨.cons first' more', rest', ?_, ?_, h⟩
    · simp [Items.tokens]
    · simp only [Items.trees?, hfirst, hmore]

theorem More.reread : (d : More) → Rereads More.tokens More.trees? d
  | .nil => fun rest ts h => ⟨.nil, ts, rfl, rfl, h⟩
  | .cons comma item more => by
    intro rest ts h
    rw [More.tokens, List.cons_append, List.append_assoc] at h
    obtain ⟨comma', mid, rfl, -, h⟩ := comma.reread rfl h
    obtain ⟨item', mid, rfl, hitem, h⟩ := item.reread h
    obtain ⟨more', rest', rfl, hmore, h⟩ := more.reread h
    refine ⟨.cons comma' item' more', rest', ?_, ?_, h⟩
    · simp [More.tokens]
    · simp only [More.trees?, hitem, hmore]

end

theorem Condition.reread (d : Condition) : Rereads Condition.tokens (·.value.tree?) d := by
  intro rest ts h
  rw [Condition.tokens, List.cons_append, List.append_assoc] at h
  obtain ⟨opening', mid, rfl, -, h⟩ := d.opening.reread rfl h
  obtain ⟨value', mid, rfl, hvalue, h⟩ := d.value.reread h
  obtain ⟨closing', rest', rfl, -, h⟩ := d.closing.reread rfl h
  refine ⟨⟨opening', value', closing'⟩, rest', ?_, hvalue, h⟩
  simp [Condition.tokens]

theorem Terminated.reread (d : Terminated) : Rereads Terminated.tokens (·.value.tree?) d := by
  intro rest ts h
  rw [Terminated.tokens, List.append_assoc] at h
  obtain ⟨value', mid, rfl, hvalue, h⟩ := d.value.reread h
  obtain ⟨semicolon', rest', rfl, -, h⟩ := d.semicolon.reread rfl h
  refine ⟨⟨value', semicolon'⟩, rest', ?_, hvalue, h⟩
  simp [Terminated.tokens]

theorem lineOf_reread {ts us : List Token} (h : Forall₂ SameReading ts us) :
    Parser.lineOf us = Parser.lineOf ts := by
  cases h with
  | nil => rfl
  | cons h _ => exact h.line

theorem Terminated.lineOf_append (d : Terminated) (rest : List Token) :
    Parser.lineOf (d.tokens ++ rest) = Parser.lineOf d.tokens := by
  rw [Terminated.tokens]
  cases d.value.tokens <;> rfl

/-- The names after commas come one by one. -/
theorem names_reread (more : List (Terminal (.symbol .comma) × Name)) :
    Rereads (List.flatMap fun p => [p.1.val, p.2.token.val]) (List.map (·.2.text)) more := by
  intro rest ts h
  induction more generalizing ts with
  | nil => exact ⟨[], ts, rfl, rfl, h⟩
  | cons p more ih =>
    rw [List.flatMap_cons, List.append_assoc, List.cons_append, List.cons_append] at h
    obtain ⟨comma', mid, rfl, -, h⟩ := p.1.reread rfl h
    obtain ⟨name', mid, rfl, -, h⟩ := p.2.token.reread rfl h
    obtain ⟨more', rest', rfl, hnames, hrest⟩ := ih h
    refine ⟨(comma', ⟨p.2.text, name'⟩) :: more', rest', ?_, ?_, hrest⟩
    · simp
    · simp [hnames]

theorem Params.reread (d : Params) : Rereads Params.tokens Params.names d := by
  intro rest ts h
  cases d with
  | empty => exact ⟨.empty, ts, rfl, rfl, h⟩
  | cons first more =>
    rw [Params.tokens, List.cons_append] at h
    obtain ⟨first', mid, rfl, -, h⟩ := first.token.reread rfl h
    obtain ⟨more', rest', rfl, hnames, hrest⟩ := names_reread more h
    refine ⟨.cons ⟨first.text, first'⟩ more', rest', ?_, ?_, hrest⟩
    · rw [Params.tokens, List.cons_append]
    · rw [Params.names, Params.names, hnames]

mutual

theorem Statement.reread : (d : Statement) → Rereads Statement.tokens Statement.tree? d
  | .declare keyword name equals value => by
    intro rest ts h
    rw [Statement.tokens, List.cons_append, List.cons_append, List.cons_append] at h
    obtain ⟨keyword', mid, rfl, hline, h⟩ := keyword.reread rfl h
    obtain ⟨name', mid, rfl, -, h⟩ := name.token.reread rfl h
    obtain ⟨equals', mid, rfl, -, h⟩ := equals.reread rfl h
    obtain ⟨value', rest', rfl, hvalue, h⟩ := value.reread h
    refine ⟨.declare keyword' ⟨name.text, name'⟩ equals' value', rest', ?_, ?_, h⟩
    · simp [Statement.tokens]
    · simp only [Statement.tree?, hvalue, hline]
  | .print keyword value => by
    intro rest ts h
    rw [Statement.tokens, List.cons_append] at h
    obtain ⟨keyword', mid, rfl, hline, h⟩ := keyword.reread rfl h
    obtain ⟨value', rest', rfl, hvalue, h⟩ := value.reread h
    refine ⟨.print keyword' value', rest', ?_, ?_, h⟩
    · simp [Statement.tokens]
    · simp only [Statement.tree?, hvalue, hline]
  | .branch keyword condition yes no => by
    intro rest ts h
    rw [Statement.tokens, List.cons_append, List.append_assoc, List.append_assoc] at h
    obtain ⟨keyword', mid, rfl, hline, h⟩ := keyword.reread rfl h
    obtain ⟨condition', mid, rfl, hcondition, h⟩ := condition.reread h
    obtain ⟨yes', mid, rfl, hyes, h⟩ := yes.reread h
    obtain ⟨no', rest', rfl, hno, h⟩ := no.reread h
    refine ⟨.branch keyword' condition' yes' no', rest', ?_, ?_, h⟩
    · simp [Statement.tokens]
    · simp only [Statement.tree?, hcondition, hyes, hno, hline]
  | .loop keyword condition body => by
    intro rest ts h
    rw [Statement.tokens, List.cons_append, List.append_assoc] at h
    obtain ⟨keyword', mid, rfl, hline, h⟩ := keyword.reread rfl h
    obtain ⟨condition', mid, rfl, hcondition, h⟩ := condition.reread h
    obtain ⟨body', rest', rfl, hbody, h⟩ := body.reread h
    refine ⟨.loop keyword' condition' body', rest', ?_, ?_, h⟩
    · simp [Statement.tokens]
    · simp only [Statement.tree?, hcondition, hbody, hline]
  | .block body => by
    intro rest ts h
    obtain ⟨body', rest', rfl, hbody, h⟩ := body.reread h
    refine ⟨.block body', rest', rfl, ?_, h⟩
    rw [Statement.tree?, Statement.tree?, hbody]
  | .leave keyword semicolon => by
    intro rest ts h
    obtain ⟨keyword', mid, rfl, hline, h⟩ := keyword.reread rfl h
    obtain ⟨semicolon', rest', rfl, -, h⟩ := semicolon.reread rfl h
    refine ⟨.leave keyword' semicolon', rest', rfl, ?_, h⟩
    rw [Statement.tree?, Statement.tree?, hline]
  | .next keyword semicolon => by
    intro rest ts h
    obtain ⟨keyword', mid, rfl, hline, h⟩ := keyword.reread rfl h
    obtain ⟨semicolon', rest', rfl, -, h⟩ := semicolon.reread rfl h
    refine ⟨.next keyword' semicolon', rest', rfl, ?_, h⟩
    rw [Statement.tree?, Statement.tree?, hline]
  | .function keyword name opening params closing body => by
    intro rest ts h
    rw [Statement.tokens, List.cons_append, List.cons_append, List.cons_append, List.append_assoc,
      List.cons_append] at h
    obtain ⟨keyword', mid, rfl, hline, h⟩ := keyword.reread rfl h
    obtain ⟨name', mid, rfl, -, h⟩ := name.token.reread rfl h
    obtain ⟨opening', mid, rfl, -, h⟩ := opening.reread rfl h
    obtain ⟨params', mid, rfl, hparams, h⟩ := params.reread h
    obtain ⟨closing', mid, rfl, -, h⟩ := closing.reread rfl h
    obtain ⟨body', rest', rfl, hbody, h⟩ := body.reread h
    refine ⟨.function keyword' ⟨name.text, name'⟩ opening' params' closing' body', rest', ?_, ?_, h⟩
    · simp [Statement.tokens]
    · simp only [Statement.tree?, hparams, hbody, hline]
  | .give keyword semicolon => by
    intro rest ts h
    obtain ⟨keyword', mid, rfl, hline, h⟩ := keyword.reread rfl h
    obtain ⟨semicolon', rest', rfl, -, h⟩ := semicolon.reread rfl h
    refine ⟨.give keyword' semicolon', rest', rfl, ?_, h⟩
    rw [Statement.tree?, Statement.tree?, hline]
  | .giveValue keyword value => by
    intro rest ts h
    rw [Statement.tokens, List.cons_append] at h
    obtain ⟨keyword', mid, rfl, hline, h⟩ := keyword.reread rfl h
    obtain ⟨value', rest', rfl, hvalue, h⟩ := value.reread h
    refine ⟨.giveValue keyword' value', rest', ?_, ?_, h⟩
    · simp [Statement.tokens]
    · simp only [Statement.tree?, hvalue, hline]
  | .expression value => by
    intro rest ts h
    have hline := lineOf_reread h
    obtain ⟨value', rest', rfl, hvalue, h⟩ := value.reread h
    rw [Statement.tokens, value.lineOf_append, value'.lineOf_append] at hline
    refine ⟨.expression value', rest', rfl, ?_, h⟩
    simp only [Statement.tree?, hvalue, hline]

theorem Else.reread : (d : Else) → Rereads Else.tokens Else.tree? d
  | .absent => fun rest ts h => ⟨.absent, ts, rfl, rfl, h⟩
  | .present keyword body => by
    intro rest ts h
    rw [Else.tokens, List.cons_append] at h
    obtain ⟨keyword', mid, rfl, -, h⟩ := keyword.reread rfl h
    obtain ⟨body', rest', rfl, hbody, h⟩ := body.reread h
    refine ⟨.present keyword' body', rest', ?_, ?_, h⟩
    · simp [Else.tokens]
    · rw [Else.tree?, Else.tree?, hbody]

theorem Block.reread : (d : Block) → Rereads Block.tokens Block.tree? d
  | .mk opening body closing => by
    intro rest ts h
    rw [Block.tokens, List.cons_append, List.append_assoc] at h
    obtain ⟨opening', mid, rfl, hline, h⟩ := opening.reread rfl h
    obtain ⟨body', mid, rfl, hbody, h⟩ := body.reread h
    obtain ⟨closing', rest', rfl, -, h⟩ := closing.reread rfl h
    refine ⟨.mk opening' body' closing', rest', ?_, ?_, h⟩
    · simp [Block.tokens]
    · rw [Block.tree?, Block.tree?, hbody, hline]

theorem Statements.reread : (d : Statements) → Rereads Statements.tokens Statements.trees? d
  | .nil => fun rest ts h => ⟨.nil, ts, rfl, rfl, h⟩
  | .cons first rest => by
    intro after ts h
    rw [Statements.tokens, List.append_assoc] at h
    obtain ⟨first', mid, rfl, hfirst, h⟩ := first.reread h
    obtain ⟨rest', after', rfl, hrest, h⟩ := rest.reread h
    refine ⟨.cons first' rest', after', ?_, ?_, h⟩
    · simp [Statements.tokens]
    · simp only [Statements.trees?, hfirst, hrest]

end

theorem ofTokens_reread {ts us : List Token} {p : Program} (h : Forall₂ SameReading ts us)
    (hp : Program.ofTokens ts = .ok p) : Program.ofTokens us = .ok p := by
  rw [ofTokens_eq_ok_iff] at hp ⊢
  obtain ⟨w, rest, rfl, hw⟩ := hp
  rw [w.tokens_append] at h
  obtain ⟨start', mid, rfl, -, h⟩ := w.start.reread rfl h
  obtain ⟨body', mid, rfl, hbody, h⟩ := w.body.reread h
  obtain ⟨stop', rest', rfl, -, -⟩ := w.stop.reread rfl h
  let w' : Whole := ⟨start', body', stop'⟩
  exact ⟨w', rest', (w'.tokens_append rest').symm, hbody.trans hw⟩

/-- How the numerals are spelled makes no difference to the program. -/
theorem ofTokens_eq_ok_iff_of_sameReading {ts us : List Token} (h : Forall₂ SameReading ts us)
    (p : Program) : Program.ofTokens ts = .ok p ↔ Program.ofTokens us = .ok p :=
  ⟨ofTokens_reread h, ofTokens_reread (h.flip.imp fun _ _ => Token.SameReading.symm)⟩

end Grammar

end KakaLang
