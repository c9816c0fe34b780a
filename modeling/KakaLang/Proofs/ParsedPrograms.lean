import KakaLang.Proofs.Phrases
import KakaLang.Proofs.Printable
import KakaLang.Proofs.Bare

/-!
Programs read from a source text are printable. Their names are scanned words, a scanned text has
no quotation mark of the kind that enclosed it, and a numeral has no sign, so that not even a
negative zero can come from one.
-/

namespace KakaLang

open Scan (WellSpelled)

namespace Expr

/-- Printable, with no negative zero in it. -/
def Plain (e : Expr) : Prop := e.Printable ∧ e.bare Literal.unsigned = e.bare id

def AllPlain (es : List Expr) : Prop :=
  AllPrintable es ∧ bareAll Literal.unsigned es = bareAll id es

theorem Plain.join {left right : Expr} (hleft : left.Plain) (hright : right.Plain)
    (op : Operator) (line : Nat) : Plain (.join op left right line) := by
  cases op with
  | binary op => exact ⟨⟨hleft.1, hright.1⟩, by simp [Expr.join, bare, hleft.2, hright.2]⟩
  | logical op => exact ⟨⟨hleft.1, hright.1⟩, by simp [Expr.join, bare, hleft.2, hright.2]⟩

theorem Plain.call {callee : Expr} {arguments : List Expr} (hcallee : callee.Plain)
    (harguments : AllPlain arguments) (line : Nat) : Plain (.call callee arguments line) :=
  ⟨⟨hcallee.1, harguments.1⟩, by simp [bare, hcallee.2, harguments.2]⟩

theorem Plain.member {object property : Expr} (hobject : object.Plain)
    (hproperty : property.Plain) (line : Nat) : Plain (.member object property line) :=
  ⟨⟨hobject.1, hproperty.1⟩, by simp [bare, hobject.2, hproperty.2]⟩

theorem AllPlain.cons {e : Expr} {es : List Expr} (he : e.Plain) (hes : AllPlain es) :
    AllPlain (e :: es) :=
  ⟨⟨he.1, hes.1⟩, by simp [bareAll, he.2, hes.2]⟩

end Expr

namespace Statement

def Plain (s : Statement) : Prop := s.Printable ∧ s.bare Literal.unsigned = s.bare id

def BlockPlain (b : Block) : Prop :=
  BlockPrintable b ∧ bareBlock Literal.unsigned b = bareBlock id b

def AllPlain (ss : List Statement) : Prop :=
  AllPrintable ss ∧ bareAll Literal.unsigned ss = bareAll id ss

end Statement

namespace Grammar

/-- The literal of a well spelled token is plain, and so is the name of one. -/
theorem Atom.plain {line : Nat} {kind : TokenKind} {e : Expr} (h : Atom line kind e)
    (hkind : WellSpelled kind) : e.Plain := by
  cases h with
  | number raw =>
    obtain ⟨c, cs, rfl, hc, hcs⟩ := hkind
    have hsign := Number.isNegative_numeralValue hc hcs
    refine ⟨fun hnegative => ?_, ?_⟩
    · rw [hsign] at hnegative
      cases hnegative
    · rw [Expr.bare, Literal.unsigned, Number.unsignedZero_of_isNegative hsign]
      rfl
  | string content => exact ⟨hkind, rfl⟩
  | name text => exact ⟨Scan.isName_iff.mpr hkind, rfl⟩
  | _ => exact ⟨trivial, rfl⟩

/-- The tokens that a derivation spells come from a scan. -/
def Scanned (tokens : List Token) : Prop := ∀ t ∈ tokens, WellSpelled t.kind

theorem scanned_append {ts us : List Token} :
    Scanned (ts ++ us) ↔ Scanned ts ∧ Scanned us := List.forall_mem_append

theorem scanned_cons {t : Token} {ts : List Token} :
    Scanned (t :: ts) ↔ WellSpelled t.kind ∧ Scanned ts := List.forall_mem_cons

mutual

/-- The tree of a derivation from scanned tokens is plain. -/
theorem Expression.tree_plain : (d : Expression) → Scanned d.tokens → ∀ {e}, d.tree? = some e →
    e.Plain
  | .plain value, h, e, htree => value.tree_plain h htree
  | .assign target equals value, h, e, htree => by
    rw [Expression.tokens, scanned_append, scanned_cons] at h
    simp only [Expression.tree?, Option.bind_eq_bind] at htree
    obtain ⟨left, hleft, htree⟩ := Option.bind_eq_some_iff.mp htree
    split at htree
    · obtain ⟨right, hright, htree⟩ := Option.bind_eq_some_iff.mp htree
      cases htree
      have hname := target.tree_plain h.1 hleft
      have hvalue := value.tree_plain h.2.2 hright
      exact ⟨⟨hname.1, hvalue.1⟩, by simp [Expr.bare, hvalue.2]⟩
    · cases htree

theorem Operation.tree_plain : {level : Nat} → (d : Operation level) → Scanned d.tokens →
    ∀ {e}, d.tree? = some e → e.Plain
  | _, .operand value, h, e, htree => value.tree_plain h htree
  | _, .chain _ first tail, h, e, htree => by
    rw [Operation.tokens, scanned_append] at h
    simp only [Operation.tree?, Option.bind_eq_bind] at htree
    obtain ⟨left, hleft, htree⟩ := Option.bind_eq_some_iff.mp htree
    exact tail.join_plain h.2 (first.tree_plain h.1 hleft) htree

theorem Tail.join_plain : {level : Nat} → (d : Tail level) → Scanned d.tokens →
    ∀ {left e}, left.Plain → d.join? left = some e → e.Plain
  | _, .nil, _, left, e, hleft, htree => by
    cases htree
    exact hleft
  | _, .cons sign right tail, h, left, e, hleft, htree => by
    rw [Tail.tokens, scanned_cons, scanned_append] at h
    simp only [Tail.join?, Option.bind_eq_bind] at htree
    obtain ⟨operand, hoperand, htree⟩ := Option.bind_eq_some_iff.mp htree
    have hjoin := hleft.join (right.tree_plain h.2.1 hoperand) sign.op sign.token.val.line
    exact tail.join_plain h.2.2 hjoin htree

theorem Operand.tree_plain : (d : Operand) → Scanned d.tokens → ∀ {e}, d.tree? = some e → e.Plain
  | .mk head suffixes, h, e, htree => by
    rw [Operand.tokens, scanned_append] at h
    simp only [Operand.tree?, Option.bind_eq_bind] at htree
    obtain ⟨primary, hprimary, htree⟩ := Option.bind_eq_some_iff.mp htree
    exact suffixes.extend_plain h.2 (head.tree_plain h.1 hprimary) htree

theorem Suffixes.extend_plain : (d : Suffixes) → Scanned d.tokens →
    ∀ {head e}, head.Plain → d.extend? head = some e → e.Plain
  | .nil, _, head, e, hhead, htree => by
    cases htree
    exact hhead
  | .call opening arguments closing suffixes, h, head, e, hhead, htree => by
    rw [Suffixes.tokens, scanned_cons, scanned_append, scanned_cons] at h
    simp only [Suffixes.extend?, Option.bind_eq_bind] at htree
    obtain ⟨items, hitems, htree⟩ := Option.bind_eq_some_iff.mp htree
    have hcall := hhead.call (arguments.trees_plain h.2.1 hitems) opening.val.line
    exact suffixes.extend_plain h.2.2.2 hcall htree
  | .member opening property closing suffixes, h, head, e, hhead, htree => by
    rw [Suffixes.tokens, scanned_cons, scanned_append, scanned_cons] at h
    simp only [Suffixes.extend?, Option.bind_eq_bind] at htree
    obtain ⟨inner, hinner, htree⟩ := Option.bind_eq_some_iff.mp htree
    have hmember := hhead.member (property.tree_plain h.2.1 hinner) opening.val.line
    exact suffixes.extend_plain h.2.2.2 hmember htree

theorem Primary.tree_plain : (d : Primary) → Scanned d.tokens → ∀ {e}, d.tree? = some e → e.Plain
  | .atom token value hatom, h, e, htree => by
    cases htree
    exact hatom.plain (h token (by simp [Primary.tokens]))
  | .array opening elements closing, h, e, htree => by
    rw [Primary.tokens, scanned_cons, scanned_append] at h
    simp only [Primary.tree?, Option.bind_eq_bind] at htree
    obtain ⟨items, hitems, htree⟩ := Option.bind_eq_some_iff.mp htree
    cases htree
    have hplain := elements.trees_plain h.2.1 hitems
    exact ⟨hplain.1, by simp [Expr.bare, hplain.2]⟩
  | .group opening inner closing, h, e, htree => by
    rw [Primary.tokens, scanned_cons, scanned_append] at h
    exact inner.tree_plain h.2.1 htree

theorem Items.trees_plain : (d : Items) → Scanned d.tokens → ∀ {es}, d.trees? = some es →
    Expr.AllPlain es
  | .empty, _, es, htrees => by
    cases htrees
    exact ⟨trivial, rfl⟩
  | .cons first more, h, es, htrees => by
    rw [Items.tokens, scanned_append] at h
    simp only [Items.trees?, Option.bind_eq_bind] at htrees
    obtain ⟨e, he, htrees⟩ := Option.bind_eq_some_iff.mp htrees
    obtain ⟨rest, hrest, htrees⟩ := Option.bind_eq_some_iff.mp htrees
    cases htrees
    exact .cons (first.tree_plain h.1 he) (more.trees_plain h.2 hrest)

theorem More.trees_plain : (d : More) → Scanned d.tokens → ∀ {es}, d.trees? = some es →
    Expr.AllPlain es
  | .nil, _, es, htrees => by
    cases htrees
    exact ⟨trivial, rfl⟩
  | .cons comma item more, h, es, htrees => by
    rw [More.tokens, scanned_cons, scanned_append] at h
    simp only [More.trees?, Option.bind_eq_bind] at htrees
    obtain ⟨e, he, htrees⟩ := Option.bind_eq_some_iff.mp htrees
    obtain ⟨rest, hrest, htrees⟩ := Option.bind_eq_some_iff.mp htrees
    cases htrees
    exact .cons (item.tree_plain h.2.1 he) (more.trees_plain h.2.2 hrest)

end

theorem Terminated.value_plain {d : Terminated} (h : Scanned d.tokens) {e : Expr}
    (htree : d.value.tree? = some e) : e.Plain := by
  rw [Terminated.tokens, scanned_append] at h
  exact d.value.tree_plain h.1 htree

theorem Condition.value_plain {d : Condition} (h : Scanned d.tokens) {e : Expr}
    (htree : d.value.tree? = some e) : e.Plain := by
  rw [Condition.tokens, scanned_cons, scanned_append] at h
  exact d.value.tree_plain h.2.1 htree

theorem Name.isName {name : Name} (h : WellSpelled name.token.val.kind) :
    Scan.IsName name.text := by
  rw [name.token.property] at h
  exact Scan.isName_iff.mpr h

theorem Params.isName {d : Params} (h : Scanned d.tokens) :
    ∀ param ∈ d.names, Scan.IsName param := by
  cases d with
  | empty => simp [Params.names]
  | cons first more =>
    rw [Params.tokens, scanned_cons] at h
    rw [Params.names, List.forall_mem_cons]
    refine ⟨Name.isName h.1, fun param hparam => ?_⟩
    obtain ⟨next, hnext, rfl⟩ := List.mem_map.mp hparam
    have hspelled : WellSpelled next.2.token.val.kind :=
      h.2 _ (List.mem_flatMap.mpr ⟨next, hnext, by simp⟩)
    exact Name.isName hspelled

mutual

theorem Statement.tree_plain : (d : Statement) → Scanned d.tokens → ∀ {s}, d.tree? = some s →
    s.Plain
  | .declare keyword name equals value, h, s, htree => by
    rw [Statement.tokens, scanned_cons, scanned_cons, scanned_cons] at h
    simp only [Statement.tree?, Option.bind_eq_bind] at htree
    obtain ⟨e, he, htree⟩ := Option.bind_eq_some_iff.mp htree
    cases htree
    have hvalue := Terminated.value_plain h.2.2.2 he
    exact ⟨⟨Name.isName h.2.1, hvalue.1⟩, by simp [Statement.bare, hvalue.2]⟩
  | .print keyword value, h, s, htree => by
    rw [Statement.tokens, scanned_cons] at h
    simp only [Statement.tree?, Option.bind_eq_bind] at htree
    obtain ⟨e, he, htree⟩ := Option.bind_eq_some_iff.mp htree
    cases htree
    have hvalue := Terminated.value_plain h.2 he
    exact ⟨hvalue.1, by simp [Statement.bare, hvalue.2]⟩
  | .branch keyword condition yes no, h, s, htree => by
    rw [Statement.tokens, scanned_cons, scanned_append, scanned_append] at h
    simp only [Statement.tree?, Option.bind_eq_bind] at htree
    obtain ⟨e, he, htree⟩ := Option.bind_eq_some_iff.mp htree
    obtain ⟨b, hb, htree⟩ := Option.bind_eq_some_iff.mp htree
    obtain ⟨c, hc, htree⟩ := Option.bind_eq_some_iff.mp htree
    cases htree
    have hcondition := Condition.value_plain h.2.1 he
    have hyes := yes.tree_plain h.2.2.1 hb
    have hno := no.tree_plain h.2.2.2 hc
    cases c with
    | none => exact ⟨⟨hcondition.1, hyes.1⟩, by simp [Statement.bare, hcondition.2, hyes.2]⟩
    | some b' =>
      have hplain := hno b' rfl
      exact ⟨⟨hcondition.1, hyes.1, hplain.1⟩,
        by simp [Statement.bare, hcondition.2, hyes.2, hplain.2]⟩
  | .loop keyword condition body, h, s, htree => by
    rw [Statement.tokens, scanned_cons, scanned_append] at h
    simp only [Statement.tree?, Option.bind_eq_bind] at htree
    obtain ⟨e, he, htree⟩ := Option.bind_eq_some_iff.mp htree
    obtain ⟨b, hb, htree⟩ := Option.bind_eq_some_iff.mp htree
    cases htree
    have hcondition := Condition.value_plain h.2.1 he
    have hbody := body.tree_plain h.2.2 hb
    exact ⟨⟨hcondition.1, hbody.1⟩, by simp [Statement.bare, hcondition.2, hbody.2]⟩
  | .block body, h, s, htree => by
    simp only [Statement.tree?, Option.bind_eq_bind] at htree
    obtain ⟨b, hb, htree⟩ := Option.bind_eq_some_iff.mp htree
    cases htree
    have hbody := body.tree_plain h hb
    exact ⟨hbody.1, by simp [Statement.bare, hbody.2]⟩
  | .leave keyword semicolon, _, s, htree => by
    cases htree
    exact ⟨trivial, rfl⟩
  | .next keyword semicolon, _, s, htree => by
    cases htree
    exact ⟨trivial, rfl⟩
  | .function keyword name opening params closing body, h, s, htree => by
    rw [Statement.tokens, scanned_cons, scanned_cons, scanned_cons, scanned_append,
      scanned_cons] at h
    simp only [Statement.tree?, Option.bind_eq_bind] at htree
    obtain ⟨b, hb, htree⟩ := Option.bind_eq_some_iff.mp htree
    cases htree
    have hbody := body.tree_plain h.2.2.2.2.2 hb
    exact ⟨⟨Name.isName h.2.1, Params.isName h.2.2.2.1, hbody.1⟩,
      by simp [Statement.bare, hbody.2]⟩
  | .give keyword semicolon, _, s, htree => by
    cases htree
    exact ⟨trivial, rfl⟩
  | .giveValue keyword value, h, s, htree => by
    rw [Statement.tokens, scanned_cons] at h
    simp only [Statement.tree?, Option.bind_eq_bind] at htree
    obtain ⟨e, he, htree⟩ := Option.bind_eq_some_iff.mp htree
    cases htree
    have hvalue := Terminated.value_plain h.2 he
    exact ⟨hvalue.1, by simp [Statement.bare, hvalue.2]⟩
  | .expression value, h, s, htree => by
    simp only [Statement.tree?, Option.bind_eq_bind] at htree
    obtain ⟨e, he, htree⟩ := Option.bind_eq_some_iff.mp htree
    cases htree
    have hvalue := Terminated.value_plain h he
    exact ⟨hvalue.1, by simp [Statement.bare, hvalue.2]⟩

theorem Else.tree_plain : (d : Else) → Scanned d.tokens → ∀ {c}, d.tree? = some c →
    ∀ b, c = some b → Statement.BlockPlain b
  | .absent, _, c, htree, b, hb => by
    cases htree
    cases hb
  | .present keyword body, h, c, htree, b, hb => by
    rw [Else.tokens, scanned_cons] at h
    simp only [Else.tree?, Option.bind_eq_bind] at htree
    obtain ⟨b', hb', htree⟩ := Option.bind_eq_some_iff.mp htree
    cases htree
    cases hb
    exact body.tree_plain h.2 hb'

theorem Block.tree_plain : (d : Block) → Scanned d.tokens → ∀ {b}, d.tree? = some b →
    Statement.BlockPlain b
  | .mk opening body closing, h, b, htree => by
    rw [Block.tokens, scanned_cons, scanned_append] at h
    simp only [Block.tree?, Option.bind_eq_bind] at htree
    obtain ⟨ss, hss, htree⟩ := Option.bind_eq_some_iff.mp htree
    cases htree
    have hbody := body.trees_plain h.2.1 hss
    exact ⟨hbody.1, by simp [Statement.bareBlock, hbody.2]⟩

theorem Statements.trees_plain : (d : Statements) → Scanned d.tokens →
    ∀ {ss}, d.trees? = some ss → Statement.AllPlain ss
  | .nil, _, ss, htrees => by
    cases htrees
    exact ⟨trivial, rfl⟩
  | .cons first rest, h, ss, htrees => by
    rw [Statements.tokens, scanned_append] at h
    simp only [Statements.trees?, Option.bind_eq_bind] at htrees
    obtain ⟨s, hs, htrees⟩ := Option.bind_eq_some_iff.mp htrees
    obtain ⟨ss', hss', htrees⟩ := Option.bind_eq_some_iff.mp htrees
    cases htrees
    have hfirst := first.tree_plain h.1 hs
    have hrest := rest.trees_plain h.2 hss'
    exact ⟨⟨hfirst.1, hrest.1⟩, by simp [Statement.bareAll, hfirst.2, hrest.2]⟩

end

end Grammar

end KakaLang
