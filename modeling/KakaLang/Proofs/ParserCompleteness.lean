import KakaLang.Proofs.Lookahead

/-!
Every derivation is accepted. A parser run on the tokens of a derivation gives back its tree and
leaves what follows, provided that what follows cannot extend the phrase and that the depth is large
enough. Eight for each token is: between two calls that work on the same tokens at most four others
take place, and every other call has a shorter phrase before it.
-/

namespace KakaLang.Grammar

open KakaLang.Parser

theorem Expression.tree?_assign {target : Operation Level.or} {equals : Terminal (.symbol .equals)}
    {value : Expression} {e : Expr} (h : (Expression.assign target equals value).tree? = some e) :
    ∃ name line v, target.tree? = some (.ident name line) ∧ value.tree? = some v ∧
      e = .assign name v line := by
  simp only [Expression.tree?, Option.bind_eq_bind, Option.bind_eq_some_iff] at h
  obtain ⟨t, ht, h⟩ := h
  split at h
  · obtain ⟨v, hv, h⟩ := Option.bind_eq_some_iff.mp h
    cases h
    exact ⟨_, _, v, ht, hv, rfl⟩
  · cases h

/-- A chain ends where no operator of its level follows. -/
theorem chain_of_noOperator {level depth : Nat} {rest : List Token} (left : Expr)
    (h : NoOperator level rest) :
    Within.chain .unexpected (depth + 1) level left rest = .ok left rest := by
  rw [Within.chain, operator?_bind, filter_level_eq_none.mpr h]
  rfl

/-- A chain takes an operator that is at least as tight as its level. -/
theorem chain_of_sign {low level depth : Nat} (sign : Sign level) (hlow : low ≤ level)
    {left right : Expr} {ts rest : List Token}
    (hright : Within.operation .unexpected depth (level + 1) ts = .ok right rest) :
    Within.chain .unexpected (depth + 1) low left (sign.token.val :: ts) =
      Within.chain .unexpected depth low (.join sign.op left right sign.token.val.line) rest := by
  obtain ⟨op, ⟨t, ht⟩, rfl⟩ := sign
  have hop : (Operator.ofKind? (kindOf (t :: ts))).filter (low ≤ ·.level) = some op := by
    rw [show kindOf (t :: ts) = op.kind from ht, Operator.ofKind?_kind]
    simpa using hlow
  rw [Within.chain, operator?_bind, hop]
  exact bind_apply_ok hright _

def Expression.Accepted (d : Expression) : Prop :=
  ∀ (depth : Nat) (e : Expr) (rest : List Token), d.tree? = some e → Closes rest →
    8 * d.tokens.length ≤ depth →
    Within.expression .unexpected depth (d.tokens ++ rest) = .ok e rest

/-- Reading an operation comes down to the chain that goes on after it. -/
def Operation.Accepted {level : Nat} (d : Operation level) : Prop :=
  ∀ (low depth : Nat) (e : Expr) (rest : List Token), d.tree? = some e → low ≤ level →
    NoSuffix rest → NoOperator (level + 1) rest → 8 * d.tokens.length ≤ depth + 1 →
    ∃ left, depth ≤ left + d.tokens.length ∧
      Within.operation .unexpected depth low (d.tokens ++ rest) =
        Within.chain .unexpected left low e rest

def Tail.Accepted {level : Nat} (d : Tail level) : Prop :=
  ∀ (low depth : Nat) (left e : Expr) (rest : List Token), d.join? left = some e → low ≤ level →
    NoSuffix rest → NoOperator (level + 1) rest → 8 * d.tokens.length ≤ depth →
    ∃ left', depth ≤ left' + d.tokens.length ∧
      Within.chain .unexpected depth low left (d.tokens ++ rest) =
        Within.chain .unexpected left' low e rest

def Operand.Accepted (d : Operand) : Prop :=
  ∀ (depth : Nat) (e : Expr) (rest : List Token), d.tree? = some e → NoSuffix rest →
    8 * d.tokens.length ≤ depth + 2 →
    Within.operand .unexpected depth (d.tokens ++ rest) = .ok e rest

def Suffixes.Accepted (d : Suffixes) : Prop :=
  ∀ (depth : Nat) (head e : Expr) (rest : List Token), d.extend? head = some e → NoSuffix rest →
    8 * d.tokens.length + 1 ≤ depth →
    Within.suffixes .unexpected depth head (d.tokens ++ rest) = .ok e rest

def Primary.Accepted (d : Primary) : Prop :=
  ∀ (depth : Nat) (e : Expr) (rest : List Token), d.tree? = some e →
    8 * d.tokens.length ≤ depth + 3 →
    Within.primary .unexpected depth (d.tokens ++ rest) = .ok e rest

def Items.Accepted (d : Items) : Prop :=
  ∀ (depth : Nat) (closing : Symbol) (es : List Expr) (t : Token) (rest : List Token),
    d.trees? = some es → closing = .closeParen ∨ closing = .closeBracket →
    t.kind = .symbol closing → 8 * d.tokens.length + 2 ≤ depth →
    Within.list .unexpected depth closing (d.tokens ++ t :: rest) = .ok es rest

def More.Accepted (d : More) : Prop :=
  ∀ (depth : Nat) (closing : Symbol) (found es : List Expr) (item : Expression) (e : Expr)
    (t : Token) (rest : List Token),
    d.trees? = some es → item.Accepted → item.tree? = some e →
    closing = .closeParen ∨ closing = .closeBracket → t.kind = .symbol closing →
    8 * (item.tokens.length + d.tokens.length) + 1 ≤ depth →
    Within.items .unexpected depth closing found (item.tokens ++ (d.tokens ++ t :: rest)) =
      .ok (found.reverse ++ e :: es) rest

/-- Where no operator of its level follows, an operation is read to its end. -/
theorem Operation.Accepted.whole {level : Nat} {d : Operation level} (hd : d.Accepted)
    {depth : Nat} {e : Expr} {rest : List Token} (htree : d.tree? = some e)
    (hsuffix : NoSuffix rest) (hop : NoOperator level rest)
    (hdepth : 8 * d.tokens.length ≤ depth + 1) :
    Within.operation .unexpected depth level (d.tokens ++ rest) = .ok e rest := by
  have hpos := d.length_pos
  obtain ⟨left, hleft, h⟩ := hd level depth e rest htree (Nat.le_refl _) hsuffix
    (hop.mono (by omega)) hdepth
  obtain ⟨k, rfl⟩ : ∃ k, left = k + 1 := ⟨left - 1, by omega⟩
  rw [h, chain_of_noOperator e hop]

theorem Expression.accepted_plain {value : Operation Level.or} (hvalue : value.Accepted) :
    (Expression.plain value).Accepted := by
  intro depth e rest htree hrest hdepth
  have hpos := value.length_pos
  simp only [Expression.tokens] at hdepth ⊢
  cases depth with
  | zero => omega
  | succ depth =>
    have h := hvalue.whole htree hrest.noSuffix (hrest.noOperator _)
      (show 8 * value.tokens.length ≤ depth + 1 by omega)
    rw [Within.expression, bind_apply_ok h, kind_bind, if_neg hrest.kind_ne_equals]
    rfl

theorem Expression.accepted_assign {target : Operation Level.or}
    {equals : Terminal (.symbol .equals)} {value : Expression} (htarget : target.Accepted)
    (hvalue : value.Accepted) : (Expression.assign target equals value).Accepted := by
  intro depth e rest htree hrest hdepth
  obtain ⟨name, line, v, htargetTree, hvalueTree, rfl⟩ := Expression.tree?_assign htree
  simp only [Expression.tokens, List.length_append, List.length_cons] at hdepth
  simp only [Expression.tokens, List.append_assoc, List.cons_append]
  cases depth with
  | zero => omega
  | succ depth =>
    have hkind : kindOf (equals.val :: (value.tokens ++ rest)) = .symbol .equals :=
      equals.property
    have hsuffix : NoSuffix (equals.val :: (value.tokens ++ rest)) := by
      unfold NoSuffix
      rw [hkind]
      decide
    have hop : NoOperator Level.or (equals.val :: (value.tokens ++ rest)) := by
      intro op hop
      rw [hkind] at hop
      cases hop
    have h := htarget.whole htargetTree hsuffix hop
      (show 8 * target.tokens.length ≤ depth + 1 by omega)
    have hv := hvalue depth v rest hvalueTree hrest (by omega)
    rw [Within.expression, bind_apply_ok h, kind_bind, if_pos hkind, line_bind, advance_bind]
    exact bind_apply_ok hv _

theorem Operation.accepted_operand {value : Operand} (hvalue : value.Accepted) :
    (Operation.operand value).Accepted := by
  intro low depth e rest htree _ hsuffix _ hdepth
  have hpos := value.length_pos
  simp only [Operation.tokens] at hdepth ⊢
  cases depth with
  | zero => omega
  | succ depth =>
    have h := hvalue depth e rest htree hsuffix (by omega)
    refine ⟨depth, by omega, ?_⟩
    rw [Within.operation, bind_apply_ok h]

theorem Operation.accepted_chain {level : Nat} {looser : level < Level.operand}
    {first : Operation (level + 1)} {tail : Tail level} (hfirst : first.Accepted)
    (htail : tail.Accepted) : (Operation.chain looser first tail).Accepted := by
  intro low depth e rest htree hlow hsuffix hop hdepth
  have hpos := first.length_pos
  simp only [Operation.tokens, List.length_append] at hdepth ⊢
  simp only [Operation.tree?, Option.bind_eq_bind] at htree
  obtain ⟨left, hleftTree, htailTree⟩ := Option.bind_eq_some_iff.mp htree
  obtain ⟨mid, hmid, h⟩ := hfirst low depth left (tail.tokens ++ rest) hleftTree (by omega)
    (tail.noSuffix hsuffix) ((tail.noOperator hop).mono (by omega)) (by omega)
  obtain ⟨last, hlast, hchain⟩ := htail low mid left e rest htailTree hlow hsuffix hop (by omega)
  refine ⟨last, by omega, ?_⟩
  rw [List.append_assoc, h, hchain]

theorem Tail.accepted_nil {level : Nat} : (Tail.nil : Tail level).Accepted := by
  intro low depth left e rest htree _ _ _ _
  cases htree
  exact ⟨depth, by simp, rfl⟩

theorem Tail.accepted_cons {level : Nat} {sign : Sign level} {right : Operation (level + 1)}
    {more : Tail level} (hright : right.Accepted) (hmore : more.Accepted) :
    (Tail.cons sign right more).Accepted := by
  intro low depth left e rest htree hlow hsuffix hop hdepth
  simp only [Tail.tokens, List.length_cons, List.length_append] at hdepth ⊢
  simp only [List.cons_append, List.append_assoc]
  simp only [Tail.join?, Option.bind_eq_bind] at htree
  obtain ⟨r, hrightTree, hmoreTree⟩ := Option.bind_eq_some_iff.mp htree
  cases depth with
  | zero => omega
  | succ depth =>
    have h := hright.whole hrightTree (more.noSuffix hsuffix) (more.noOperator hop)
      (show 8 * right.tokens.length ≤ depth + 1 by omega)
    obtain ⟨last, hlast, hchain⟩ := hmore low depth _ e rest hmoreTree hlow hsuffix hop (by omega)
    refine ⟨last, by omega, ?_⟩
    rw [chain_of_sign sign hlow h, hchain]

theorem Operand.accepted_mk {head : Primary} {suffixes : Suffixes} (hhead : head.Accepted)
    (hsuffixes : suffixes.Accepted) : (Operand.mk head suffixes).Accepted := by
  intro depth e rest htree hsuffix hdepth
  have hpos := head.length_pos
  simp only [Operand.tokens, List.length_append] at hdepth
  simp only [Operand.tree?, Option.bind_eq_bind] at htree
  obtain ⟨p, hheadTree, hsuffixesTree⟩ := Option.bind_eq_some_iff.mp htree
  cases depth with
  | zero => omega
  | succ depth =>
    have h := hhead depth p (suffixes.tokens ++ rest) hheadTree (by omega)
    rw [Operand.tokens, List.append_assoc, Within.operand, bind_apply_ok h]
    exact hsuffixes depth p e rest hsuffixesTree hsuffix (by omega)

theorem Suffixes.accepted_nil : Suffixes.nil.Accepted := by
  intro depth head e rest htree hsuffix hdepth
  cases htree
  cases depth with
  | zero => omega
  | succ depth =>
    rw [Suffixes.tokens, List.nil_append, Within.suffixes, kind_bind]
    generalize hkind : kindOf rest = k
    split
    · exact absurd hkind hsuffix.1
    · exact absurd hkind hsuffix.2
    · rfl

theorem Suffixes.accepted_call {opening : Terminal (.symbol .openParen)} {arguments : Items}
    {closing : Terminal (.symbol .closeParen)} {more : Suffixes} (harguments : arguments.Accepted)
    (hmore : more.Accepted) : (Suffixes.call opening arguments closing more).Accepted := by
  intro depth head e rest htree hsuffix hdepth
  simp only [Suffixes.tokens, List.length_cons, List.length_append] at hdepth
  simp only [Suffixes.tokens, List.cons_append, List.append_assoc]
  simp only [Suffixes.extend?, Option.bind_eq_bind] at htree
  obtain ⟨es, hargumentsTree, hmoreTree⟩ := Option.bind_eq_some_iff.mp htree
  cases depth with
  | zero => omega
  | succ depth =>
    have h := harguments depth .closeParen es closing.val (more.tokens ++ rest) hargumentsTree
      (Or.inl rfl) closing.property (by omega)
    rw [Within.suffixes, kind_bind, kindOf_terminal]
    simp only [line_bind, advance_bind, List.tail_cons]
    rw [bind_apply_ok h]
    exact hmore depth _ e rest hmoreTree hsuffix (by omega)

theorem Suffixes.accepted_member {opening : Terminal (.symbol .openBracket)}
    {property : Expression} {closing : Terminal (.symbol .closeBracket)} {more : Suffixes}
    (hproperty : property.Accepted) (hmore : more.Accepted) :
    (Suffixes.member opening property closing more).Accepted := by
  intro depth head e rest htree hsuffix hdepth
  simp only [Suffixes.tokens, List.length_cons, List.length_append] at hdepth
  simp only [Suffixes.tokens, List.cons_append, List.append_assoc]
  simp only [Suffixes.extend?, Option.bind_eq_bind] at htree
  obtain ⟨p, hpropertyTree, hmoreTree⟩ := Option.bind_eq_some_iff.mp htree
  cases depth with
  | zero => omega
  | succ depth =>
    have h := hproperty depth p (closing.val :: (more.tokens ++ rest)) hpropertyTree
      (Or.inr (Or.inr (Or.inr closing.property))) (by omega)
    rw [Within.suffixes, kind_bind, kindOf_terminal]
    simp only [line_bind, advance_bind, List.tail_cons]
    rw [bind_apply_ok h, bind_apply_ok (expect_cons closing.property _)]
    exact hmore depth _ e rest hmoreTree hsuffix (by omega)

theorem Primary.accepted_atom {token : Token} {value : Expr}
    {hatom : Atom token.line token.kind value} : (Primary.atom token value hatom).Accepted := by
  intro depth e rest htree hdepth
  cases htree
  simp only [Primary.tokens, List.length_singleton] at hdepth
  have hsome := atom?_eq_some_iff.mpr hatom
  cases depth with
  | zero => omega
  | succ depth =>
    rw [Primary.tokens, List.singleton_append, Within.primary, line_bind, kind_bind,
      show kindOf (token :: rest) = token.kind from rfl,
      show lineOf (token :: rest) = token.line from rfl]
    generalize token.kind = k at hsome
    split
    · cases hsome
    · cases hsome
    · simp only [hsome]
      rfl

theorem Primary.accepted_array {opening : Terminal (.symbol .openBracket)} {elements : Items}
    {closing : Terminal (.symbol .closeBracket)} (helements : elements.Accepted) :
    (Primary.array opening elements closing).Accepted := by
  intro depth e rest htree hdepth
  simp only [Primary.tokens, List.length_cons, List.length_append, List.length_nil] at hdepth
  simp only [Primary.tokens, List.cons_append, List.append_assoc, List.nil_append]
  simp only [Primary.tree?, Option.bind_eq_bind] at htree
  obtain ⟨es, helementsTree, hpure⟩ := Option.bind_eq_some_iff.mp htree
  cases hpure
  cases depth with
  | zero => omega
  | succ depth =>
    have h := helements depth .closeBracket es closing.val rest helementsTree (Or.inr rfl)
      closing.property (by omega)
    rw [Within.primary, line_bind, kind_bind, kindOf_terminal]
    simp only [advance_bind, List.tail_cons]
    rw [bind_apply_ok h]
    rfl

theorem Primary.accepted_group {opening : Terminal (.symbol .openParen)} {inner : Expression}
    {closing : Terminal (.symbol .closeParen)} (hinner : inner.Accepted) :
    (Primary.group opening inner closing).Accepted := by
  intro depth e rest htree hdepth
  simp only [Primary.tokens, List.length_cons, List.length_append, List.length_nil] at hdepth
  simp only [Primary.tokens, List.cons_append, List.append_assoc, List.nil_append]
  cases depth with
  | zero => omega
  | succ depth =>
    have h := hinner depth e (closing.val :: rest) htree
      (Or.inr (Or.inr (Or.inl closing.property))) (by omega)
    rw [Within.primary, line_bind, kind_bind, kindOf_terminal]
    simp only [advance_bind, List.tail_cons]
    rw [bind_apply_ok h, bind_apply_ok (expect_cons closing.property _)]
    rfl

theorem Items.accepted_empty : Items.empty.Accepted := by
  intro depth closing es t rest htree _ ht hdepth
  cases htree
  cases depth with
  | zero => omega
  | succ depth =>
    rw [Items.tokens, List.nil_append, Within.list, bind_apply_ok (accept_cons ht rest)]
    rfl

theorem Items.accepted_cons {first : Expression} {more : More} (hfirst : first.Accepted)
    (hmore : more.Accepted) : (Items.cons first more).Accepted := by
  intro depth closing es t rest htree hclosing ht hdepth
  simp only [Items.tokens, List.length_append] at hdepth
  simp only [Items.tokens, List.append_assoc]
  simp only [Items.trees?, Option.bind_eq_bind] at htree
  obtain ⟨e, hfirstTree, htree⟩ := Option.bind_eq_some_iff.mp htree
  obtain ⟨es, hmoreTree, hpure⟩ := Option.bind_eq_some_iff.mp htree
  cases hpure
  cases depth with
  | zero => omega
  | succ depth =>
    have hne : kindOf (first.tokens ++ (more.tokens ++ t :: rest)) ≠ .symbol closing :=
      Expression.kind_ne (by rcases hclosing with rfl | rfl <;> rfl)
    rw [Within.list, bind_apply_ok (accept_of_ne hne), if_neg Bool.false_ne_true]
    exact hmore depth closing [] es first e t rest hmoreTree hfirst hfirstTree hclosing ht
      (by omega)

theorem More.accepted_nil : More.nil.Accepted := by
  intro depth closing found es item e t rest htree hitem hitemTree hclosing ht hdepth
  cases htree
  simp only [More.tokens, List.length_nil] at hdepth
  simp only [More.tokens, List.nil_append]
  cases depth with
  | zero => omega
  | succ depth =>
    have hcloses : Closes (t :: rest) := by
      rcases hclosing with rfl | rfl
      · exact Or.inr (Or.inr (Or.inl ht))
      · exact Or.inr (Or.inr (Or.inr ht))
    have hcomma : kindOf (t :: rest) ≠ .symbol .comma := by
      rw [show kindOf (t :: rest) = .symbol closing from ht]
      rcases hclosing with rfl | rfl <;> decide
    have h := hitem depth e (t :: rest) hitemTree hcloses (by omega)
    rw [Within.items, bind_apply_ok h, bind_apply_ok (accept_of_ne hcomma),
      if_neg Bool.false_ne_true, bind_apply_ok (expect_cons ht rest), List.reverse_cons]
    rfl

theorem More.accepted_cons {comma : Terminal (.symbol .comma)} {next : Expression} {more : More}
    (hnext : next.Accepted) (hmore : more.Accepted) : (More.cons comma next more).Accepted := by
  intro depth closing found es item e t rest htree hitem hitemTree hclosing ht hdepth
  simp only [More.tokens, List.length_cons, List.length_append] at hdepth
  simp only [More.tokens, List.cons_append, List.append_assoc]
  simp only [More.trees?, Option.bind_eq_bind] at htree
  obtain ⟨e', hnextTree, htree⟩ := Option.bind_eq_some_iff.mp htree
  obtain ⟨es, hmoreTree, hpure⟩ := Option.bind_eq_some_iff.mp htree
  cases hpure
  cases depth with
  | zero => omega
  | succ depth =>
    have h := hitem depth e (comma.val :: (next.tokens ++ (more.tokens ++ t :: rest))) hitemTree
      (Or.inr (Or.inl comma.property)) (by omega)
    have hrest := hmore depth closing (e :: found) es next e' t rest hmoreTree hnext hnextTree
      hclosing ht (by omega)
    rw [Within.items, bind_apply_ok h, bind_apply_ok (accept_cons comma.property _), if_pos rfl,
      hrest, List.reverse_cons, List.append_assoc]
    rfl

mutual

theorem Expression.accepted : (d : Expression) → d.Accepted
  | .plain value => Expression.accepted_plain value.accepted
  | .assign target _ value => Expression.accepted_assign target.accepted value.accepted

theorem Operation.accepted : {level : Nat} → (d : Operation level) → d.Accepted
  | _, .operand value => Operation.accepted_operand value.accepted
  | _, .chain _ first tail => Operation.accepted_chain first.accepted tail.accepted

theorem Tail.accepted : {level : Nat} → (d : Tail level) → d.Accepted
  | _, .nil => Tail.accepted_nil
  | _, .cons _ right more => Tail.accepted_cons right.accepted more.accepted

theorem Operand.accepted : (d : Operand) → d.Accepted
  | .mk head suffixes => Operand.accepted_mk head.accepted suffixes.accepted

theorem Suffixes.accepted : (d : Suffixes) → d.Accepted
  | .nil => Suffixes.accepted_nil
  | .call _ arguments _ more => Suffixes.accepted_call arguments.accepted more.accepted
  | .member _ property _ more => Suffixes.accepted_member property.accepted more.accepted

theorem Primary.accepted : (d : Primary) → d.Accepted
  | .atom _ _ _ => Primary.accepted_atom
  | .array _ elements _ => Primary.accepted_array elements.accepted
  | .group _ inner _ => Primary.accepted_group inner.accepted

theorem Items.accepted : (d : Items) → d.Accepted
  | .empty => Items.accepted_empty
  | .cons first more => Items.accepted_cons first.accepted more.accepted

theorem More.accepted : (d : More) → d.Accepted
  | .nil => More.accepted_nil
  | .cons _ item more => More.accepted_cons item.accepted more.accepted

end

end KakaLang.Grammar
