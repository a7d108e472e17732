import Offside.Proofs.Accepted
import Offside.Proofs.Operators.Reading
import Offside.Proofs.Traversal
import Offside.Proofs.Written.Expr

/-!
# When an expression keeps its grouping

An expression is written with the parentheses that it had in the program and no others, and Python
groups its operators by rules of its own. For expressions of operators and simple operands it is
said exactly when that does no harm (`Expr.readFrom_render_iff`): every operand has to bind tightly
enough for its operator, or stand in parentheses.

That it suffices is seen from the tree up (`Expr.HasTree.reading`). It is also necessary
(`Expr.HasTree.safe_of_reading`): tokens that are read as a given tree must be cut where the
expression was put together, because the tree says how many tokens there are on each side of an
operator, parentheses apart.
-/

namespace Offside

open Token

def Leaf.form : Leaf → Form
  | name x => .name x
  | number text => .number text
  | string content => .string content
  | truth value => .truth value

/-- The expression is made of operators and simple operands only. Without its parentheses it is the
tree. -/
inductive Expr.HasTree : Expr → OpTree → Prop where
  | leaf {l : Leaf} (hl : l.Readable) (g : Bool) : HasTree ⟨l.form, g⟩ (.leaf l)
  | unary (op : UnaryOp) {e : Expr} {t : OpTree} (h : HasTree e t) (g : Bool) :
      HasTree ⟨.unary op e, g⟩ (.unary op t)
  | binary (op : BinaryOp) {e f : Expr} {l r : OpTree} (hl : HasTree e l) (hr : HasTree f r)
      (g : Bool) : HasTree ⟨.binary op e f, g⟩ (.binary op l r)

/-- How tightly the form binds in Python. -/
def Form.level : Form → Nat
  | .unary op _ => op.level
  | .binary op _ _ => op.level
  | _ => atomLevel

/-- The operands bind tightly enough, or stand in parentheses. A right operand must bind more
tightly than its operator, and so must the left operand of a comparison. -/
def Expr.holdsOperands (e : Expr) : Bool :=
  match e.form with
  | .binary op l r =>
    (l.grouped ||
      if op.isComparison then op.level < l.form.level else op.level ≤ l.form.level) &&
        (r.grouped || op.level < r.form.level)
  | .unary op f => f.grouped || op.level ≤ f.form.level
  | _ => true

/-- The operands of every operator in the expression bind tightly enough. -/
def Expr.Safe (e : Expr) : Prop := e.every Expr.holdsOperands = true

/-- How tightly the expression binds, with its parentheses. -/
def Expr.level (e : Expr) : Nat := if e.grouped then atomLevel else e.form.level

theorem Expr.holdsOperands_binary {op : BinaryOp} {l r : Expr} {g : Bool} :
    Expr.holdsOperands ⟨.binary op l r, g⟩ = true ↔
      op.level ≤ l.level ∧ ¬ (op.isComparison ∧ l.level = op.level) ∧ op.level < r.level := by
  have hlt := op.level_lt_atom
  unfold holdsOperands level
  rcases hl : l.grouped <;> rcases hr : r.grouped <;> rcases hc : op.isComparison <;>
    simp [hl, hr, hc] <;> omega

theorem Expr.holdsOperands_unary {op : UnaryOp} {e : Expr} {g : Bool} :
    Expr.holdsOperands ⟨.unary op e, g⟩ = true ↔ op.level ≤ e.level := by
  have hlt : op.level < atomLevel := by cases op <;> decide
  unfold holdsOperands level
  rcases hg : e.grouped <;> simp [hg]
  omega

/-! ## The tokens of an expression -/

/-- The tokens that are seen in the text of the form. -/
def Form.seen (form : Form) : List Token := form.parts.flatMap Part.seen

/-- The tokens that are seen in the text of the expression. -/
def Expr.seen (e : Expr) : List Token := (e.parts .operand).flatMap Part.seen

theorem Leaf.seen_form (l : Leaf) : l.form.seen = [l.token] := by
  rcases l with x | text | content | (_ | _) <;> rfl

theorem Leaf.isAssign_form (l : Leaf) : l.form.isAssign = false := by
  rcases l <;> rfl

theorem Form.seen_unary (op : UnaryOp) (e : Expr) : (Form.unary op e).seen = op.sign :: e.seen := by
  unfold Form.seen
  rw [Form.parts, List.flatMap_append]
  cases op <;> rfl

theorem Form.seen_binary (op : BinaryOp) (l r : Expr) :
    (Form.binary op l r).seen = l.seen ++ op.sign :: r.seen := by
  have hop : op.part.seen = [op.sign] := by cases op <;> rfl
  unfold Form.seen Expr.seen
  rw [Form.parts, List.flatMap_append, List.flatMap_cons, List.flatMap_cons, List.flatMap_cons, hop]
  rfl

/-- Parentheses are seen around the form. -/
theorem Expr.seen_group {form : Form} (h : form.isAssign = false) :
    Expr.seen ⟨form, true⟩ = Mark.openParen.token :: (form.seen ++ [Mark.closeParen.token]) := by
  have hparts : Expr.parts .operand ⟨form, true⟩ = parenParts form.parts := by
    simp [Expr.parts, h]
  rw [Expr.seen, hparts, parenParts, List.flatMap_cons, List.flatMap_append]
  rfl

theorem Expr.seen_bare (form : Form) : Expr.seen ⟨form, false⟩ = form.seen := by
  simp [Expr.seen, Expr.parts, Form.seen]

namespace OpTree

/-- How many tokens the tree needs without parentheses. -/
def size : OpTree → Nat
  | leaf _ => 1
  | unary _ t => t.size + 1
  | binary _ l r => l.size + r.size + 1
  | chain _ l r => l.size + r.size + 1

theorem size_join (op : BinaryOp) (level : Nat) (l r : OpTree) :
    (op.join level l r).size = l.size + r.size + 1 := by
  unfold BinaryOp.join
  split <;> rfl

theorem size_pos (t : OpTree) : 0 < t.size := by
  cases t <;> simp [size]

end OpTree

namespace Token

/-- How many tokens there are, parentheses apart. -/
def count (ts : List Token) : Nat := ts.countP fun t => t.slope = 0

theorem count_append (ts us : List Token) : count (ts ++ us) = count ts + count us :=
  List.countP_append

theorem count_cons {t : Token} (h : t.slope = 0) (ts : List Token) :
    count (t :: ts) = count ts + 1 := by
  simp [count, h]

theorem count_enclosed (ts : List Token) :
    count (Mark.openParen.token :: (ts ++ [Mark.closeParen.token])) = count ts := by
  have hopen : Mark.openParen.token.slope ≠ 0 := by decide
  have hclose : Mark.closeParen.token.slope ≠ 0 := by decide
  simp [count, hopen, hclose]

/-- Where a list is cut at an operator is determined by how many tokens stand before it. -/
theorem split_of_count {as bs cs ds : List Token} {x y : Token}
    (h : as ++ x :: bs = cs ++ y :: ds) (hx : x.slope = 0) (hy : y.slope = 0)
    (hc : count as = count cs) : as = cs ∧ x = y ∧ bs = ds := by
  rcases split_cases h with ⟨ms, rfl, -⟩ | hsame | ⟨ms, rfl, -⟩
  · rw [count_append, count_cons hx] at hc
    omega
  · exact hsame
  · rw [count_append, count_cons hy] at hc
    omega

end Token

theorem OpTree.Reading.count_eq {n : Nat} {ts : List Token} {t : OpTree} (h : Reading n ts t) :
    count ts = t.size := by
  induction h with
  | @leaf l => exact count_cons l.slope_token []
  | group _ ih => rw [count_enclosed, ih]
  | @unary op _ _ _ _ _ ih => rw [count_cons op.slope_sign, ih, size]
  | @binary op _ _ _ _ _ _ _ _ _ _ ihl ihr =>
    rw [count_append, count_cons op.slope_sign, ihl, ihr, size_join, Nat.add_assoc]

namespace OpTree.Reading

theorem of_unary {n : Nat} {ts : List Token} {op : UnaryOp} {t : OpTree}
    (h : Reading n (op.sign :: ts) (.unary op t)) :
    n = op.level ∧ ∃ m, op.level ≤ m ∧ Reading m ts t := by
  generalize hus : op.sign :: ts = us, htree : OpTree.unary op t = u at h
  cases h with
  | leaf => simp at htree
  | group => exact absurd (List.cons.inj hus).1 (by cases op <;> decide)
  | unary hm h =>
    obtain ⟨rfl, rfl⟩ := OpTree.unary.inj htree
    obtain ⟨-, rfl⟩ := List.cons.inj hus
    exact ⟨rfl, _, hm, h⟩
  | binary =>
    unfold BinaryOp.join at htree
    split at htree <;> simp at htree

/-- The tree says where the tokens are to be cut. -/
theorem of_binary {n : Nat} {ts us : List Token} {op : BinaryOp} {l r : OpTree}
    (h : Reading n (ts ++ op.sign :: us) (.binary op l r)) (hb : Balanced ts)
    (hc : count ts = l.size) :
    n = op.level ∧ ∃ m k, op.level ≤ m ∧ ¬ (op.isComparison ∧ m = op.level) ∧ op.level < k ∧
      Reading m ts l ∧ Reading k us r := by
  generalize hvs : ts ++ op.sign :: us = vs, htree : OpTree.binary op l r = t at h
  cases h with
  | leaf => simp at htree
  | group h =>
    have hne : ts ≠ [] := by
      rintro rfl
      have hpos := l.size_pos
      rw [← hc] at hpos
      exact absurd hpos (by decide)
    exact absurd hb.net_eq (h.balanced.net_ne_zero hvs.symm hne)
  | unary => simp at htree
  | @binary op' m k ts' us' l' r' hm hk hl hr =>
    unfold BinaryOp.join at htree
    split at htree
    · simp at htree
    rename_i hchain
    obtain ⟨rfl, rfl, rfl⟩ := OpTree.binary.inj htree
    have hcount : count ts = count ts' := by rw [hc, hl.count_eq]
    obtain ⟨rfl, -, rfl⟩ := split_of_count hvs op.slope_sign op.slope_sign hcount
    exact ⟨rfl, m, k, hm, hchain, hk, hl, hr⟩

end OpTree.Reading

namespace Expr.HasTree

/-- What the tokens of an expression have in common with those of a reading. -/
structure Spans (ts : List Token) (t : OpTree) : Prop where
  balanced : Balanced ts
  count_eq : count ts = t.size

theorem Spans.seen {form : Form} {t : OpTree} (h : Spans form.seen t)
    (hn : form.isAssign = false) (g : Bool) : Spans (Expr.seen ⟨form, g⟩) t := by
  rcases g
  · rw [Expr.seen_bare]
    exact h
  · rw [Expr.seen_group hn]
    exact ⟨h.balanced.enclosed, by rw [count_enclosed, h.count_eq]⟩

theorem spans {e : Expr} {t : OpTree} (h : e.HasTree t) : Spans e.seen t := by
  induction h with
  | @leaf l hl g =>
    refine Spans.seen ?_ l.isAssign_form g
    rw [l.seen_form]
    exact ⟨balanced_singleton l.slope_token, count_cons l.slope_token []⟩
  | unary op h g ih =>
    refine Spans.seen ?_ rfl g
    rw [Form.seen_unary]
    exact ⟨(balanced_singleton op.slope_sign).append ih.balanced,
      by rw [count_cons op.slope_sign, ih.count_eq, OpTree.size]⟩
  | binary op hl hr g ihl ihr =>
    refine Spans.seen ?_ rfl g
    rw [Form.seen_binary]
    refine ⟨ihl.balanced.append ((balanced_singleton op.slope_sign).append ihr.balanced), ?_⟩
    rw [count_append, count_cons op.slope_sign, ihl.count_eq, ihr.count_eq, OpTree.size,
      Nat.add_assoc]

theorem isAssign_form {e : Expr} {t : OpTree} (h : e.HasTree t) : e.form.isAssign = false := by
  rcases h with ⟨-, -⟩ | _ | _
  · exact Leaf.isAssign_form _
  · rfl
  · rfl

theorem balanced_form {e : Expr} {t : OpTree} (h : e.HasTree t) : Balanced e.form.seen := by
  have hbare : HasTree ⟨e.form, false⟩ t := by
    rcases h with ⟨hl, -⟩ | ⟨op, h, -⟩ | ⟨op, hl, hr, -⟩
    · exact .leaf hl false
    · exact .unary op h false
    · exact .binary op hl hr false
  have hseen := hbare.spans.balanced
  rwa [Expr.seen_bare] at hseen

/-! ## Safe expressions are read as their trees -/

theorem reading_of_form {form : Form} {t : OpTree} (h : OpTree.Reading form.level form.seen t)
    (hn : form.isAssign = false) (g : Bool) :
    OpTree.Reading (Expr.level ⟨form, g⟩) (Expr.seen ⟨form, g⟩) t := by
  rcases g
  · rw [Expr.seen_bare]
    exact h
  · rw [Expr.seen_group hn]
    exact .group h

theorem reading {e : Expr} {t : OpTree} (h : e.HasTree t) (hs : e.Safe) :
    OpTree.Reading e.level e.seen t := by
  unfold Safe at hs
  induction h with
  | @leaf l hl g =>
    refine reading_of_form ?_ l.isAssign_form g
    have hlevel : l.form.level = atomLevel := by rcases l <;> rfl
    rw [l.seen_form, hlevel]
    exact .leaf hl
  | @unary op e t h g ih =>
    rw [Expr.every, Form.every, Bool.and_eq_true, holdsOperands_unary] at hs
    refine reading_of_form ?_ rfl g
    rw [Form.seen_unary]
    exact .unary hs.1 (ih hs.2)
  | @binary op e f l r hl hr g ihl ihr =>
    rw [Expr.every, Form.every, Bool.and_eq_true, Bool.and_eq_true, holdsOperands_binary] at hs
    obtain ⟨⟨hle, hchain, hlt⟩, hse, hsf⟩ := hs
    refine reading_of_form ?_ rfl g
    have hbinary := OpTree.Reading.binary hle hlt (ihl hse) (ihr hsf)
    rw [BinaryOp.join, if_neg hchain] at hbinary
    rw [Form.seen_binary]
    exact hbinary

/-! ## What is read as its tree is safe -/

/-- Parentheses around the whole do not matter for what is safe inside of them. -/
theorem safe_of_form {e : Expr} {t : OpTree} (ht : e.HasTree t)
    (h : ∀ n, OpTree.Reading n e.form.seen t → e.Safe ∧ n = e.form.level) {n : Nat}
    (hr : OpTree.Reading n e.seen t) : e.Safe ∧ n = e.level := by
  obtain ⟨form, g⟩ := e
  rcases g
  · rw [Expr.seen_bare] at hr
    exact h n hr
  · rw [Expr.seen_group ht.isAssign_form] at hr
    obtain ⟨rfl, m, hm⟩ := hr.of_group ht.balanced_form
    exact ⟨(h m hm).1, rfl⟩

/-- An expression that is read as its tree is safe, and binds as tightly as what is read. -/
theorem safe_of_reading {e : Expr} {t : OpTree} (h : e.HasTree t) {n : Nat}
    (hr : OpTree.Reading n e.seen t) : e.Safe ∧ n = e.level := by
  induction h generalizing n with
  | @leaf l hl g =>
    refine safe_of_form (.leaf hl g) (fun m hm => ?_) hr
    have hsafe : Safe ⟨l.form, g⟩ := by rcases l <;> rfl
    have hlevel : l.form.level = atomLevel := by rcases l <;> rfl
    rw [l.seen_form] at hm
    rw [hlevel]
    exact ⟨hsafe, (hm.unique (.leaf hl)).1⟩
  | @unary op e t h g ih =>
    refine safe_of_form (.unary op h g) (fun m hm => ?_) hr
    rw [Form.seen_unary] at hm
    obtain ⟨rfl, k, hk, hoperand⟩ := hm.of_unary
    obtain ⟨hs, rfl⟩ := ih hoperand
    refine ⟨?_, rfl⟩
    rw [Safe, Expr.every, Form.every, Bool.and_eq_true, holdsOperands_unary]
    exact ⟨hk, hs⟩
  | @binary op e f l r hl hr' g ihl ihr =>
    refine safe_of_form (.binary op hl hr' g) (fun m hm => ?_) hr
    rw [Form.seen_binary] at hm
    obtain ⟨rfl, j, k, hj, hchain, hk, hleft, hright⟩ :=
      hm.of_binary hl.spans.balanced hl.spans.count_eq
    obtain ⟨hsl, rfl⟩ := ihl hleft
    obtain ⟨hsr, rfl⟩ := ihr hright
    refine ⟨?_, rfl⟩
    rw [Safe, Expr.every, Form.every, Bool.and_eq_true, Bool.and_eq_true, holdsOperands_binary]
    exact ⟨⟨hj, hchain, hk⟩, hsl, hsr⟩

end Expr.HasTree

/-! ## The expressions of a program -/

/-- The expressions right inside of the form. -/
def Form.children : Form → List Expr
  | .assign _ value => [value]
  | .binary _ left right => [left, right]
  | .unary _ operand => [operand]
  | .call callee args => callee :: args
  | .index value key => [value, key]
  | .member value _ => [value]
  | .dict entries => entries.flatMap fun n => [n.key, n.value]
  | .list elements => elements
  | _ => []

inductive Expr.Inside (e : Expr) : Expr → Prop where
  | self : Inside e e
  | child {f c : Expr} (hc : c ∈ f.form.children) (h : Inside e c) : Inside e f

inductive Expr.OccursIn (e : Expr) : Block → Prop where
  | expr {f : Expr} {b : Block} (hs : .expr f ∈ b) (h : e.Inside f) : OccursIn e b
  | condition {c : Expr} {body b : Block} {other : Option Block} (hs : .cond c body other ∈ b)
      (h : e.Inside c) : OccursIn e b
  | body {c : Expr} {body b : Block} {other : Option Block} (hs : .cond c body other ∈ b)
      (h : OccursIn e body) : OccursIn e b
  | otherwise {c : Expr} {body other b : Block} (hs : .cond c body (some other) ∈ b)
      (h : OccursIn e other) : OccursIn e b

theorem Expr.Formed.child {e c : Expr} (h : e.Formed) (hc : c ∈ e.form.children) : c.Formed := by
  cases h with
  | name | number | string | truth => simp [Form.children] at hc
  | assign _ hv =>
    obtain rfl := List.mem_singleton.1 hc
    exact hv
  | binary hl hr =>
    simp only [Form.children, List.mem_cons, List.not_mem_nil, or_false] at hc
    rcases hc with rfl | rfl
    · exact hl
    · exact hr
  | unary _ he =>
    obtain rfl := List.mem_singleton.1 hc
    exact he
  | call hcallee _ hargs =>
    rcases List.mem_cons.1 hc with rfl | hc
    · exact hcallee
    · exact hargs c hc
  | index hv _ hi =>
    simp only [Form.children, List.mem_cons, List.not_mem_nil, or_false] at hc
    rcases hc with rfl | rfl
    · exact hv
    · exact hi
  | member hv =>
    obtain rfl := List.mem_singleton.1 hc
    exact hv
  | dict hk hv =>
    simp only [Form.children, List.mem_flatMap, List.mem_cons, List.not_mem_nil, or_false] at hc
    obtain ⟨n, hn, rfl | rfl⟩ := hc
    · exact hk n hn
    · exact hv n hn
  | list hes => exact hes c hc

theorem Expr.Inside.formed {e f : Expr} (h : e.Inside f) (hf : f.Formed) : e.Formed := by
  induction h with
  | self => exact hf
  | child hc _ ih => exact ih (hf.child hc)

theorem Expr.OccursIn.formed {e : Expr} {b : Block} (h : e.OccursIn b) (hb : ∀ s ∈ b, s.Formed) :
    e.Formed := by
  induction h with
  | expr hs h =>
    cases hb _ hs with
    | expr he => exact h.formed he
  | condition hs h =>
    cases hb _ hs with
    | cond hc => exact h.formed hc
    | condElse hc => exact h.formed hc
  | body hs _ ih =>
    cases hb _ hs with
    | cond _ hbody => exact ih hbody
    | condElse _ hbody => exact ih hbody
  | otherwise hs _ ih =>
    cases hb _ hs with
    | condElse _ _ hother => exact ih hother

/-! ## Reading a text -/

/-- The text is read as the tree. Words, numbers, strings and signs are found as in a program. -/
def OpTree.ReadFrom (text : String) (t : OpTree) : Prop :=
  ∃ ts n, Token.scan text = .ok ts ∧ Reading n (ts.map Token.unplaced) t

theorem Expr.Formed.scan_role {e : Expr} (h : e.Formed) (role : Role) :
    ∃ ts, Token.scan (e.render role) = .ok ts ∧
      ts.map Token.unplaced = (e.parts role).flatMap Part.seen := by
  have htext : e.render role = String.ofList (textOf ((e.parts role).map Part.piece)) := by
    rw [← h.written.role role, String.ofList_toList]
  have hclean : Clean ((e.parts role).map Part.piece) := by
    have := Expr.Each.role h.clear FlowsAs.parenthesized role [] clean_nil apart_nil
    rwa [List.append_nil] at this
  rw [htext, flatMap_seen]
  exact Token.scan_textOf hclean

theorem Expr.Formed.scan_render {e : Expr} (h : e.Formed) :
    ∃ ts, Token.scan (e.render .operand) = .ok ts ∧ ts.map Token.unplaced = e.seen :=
  h.scan_role .operand

/-- An expression of a program is read as its tree, and as nothing else, exactly if it is safe. -/
theorem Expr.readFrom_render_iff {source : String} {b : Block} {e : Expr} {t : OpTree}
    (hp : Block.parse source = .ok b) (he : e.OccursIn b) (ht : e.HasTree t) :
    (∀ u, OpTree.ReadFrom (e.render .operand) u ↔ u = t) ↔ e.Safe := by
  obtain ⟨ts, -, hl, p, hacc, rfl⟩ := Block.exists_phrase_of_parse hp
  have hformed : e.Formed := he.formed (Phrase.formed_meaning p (hacc.lexical hl))
  obtain ⟨us, hscan, hseen⟩ := hformed.scan_render
  have hread : ∀ u, OpTree.ReadFrom (e.render .operand) u ↔ ∃ n, OpTree.Reading n e.seen u := by
    intro u
    constructor
    · rintro ⟨vs, n, hvs, hr⟩
      obtain rfl := Except.ok.inj (hscan.symm.trans hvs)
      exact ⟨n, hseen ▸ hr⟩
    · rintro ⟨n, hr⟩
      exact ⟨us, n, hscan, hseen.symm ▸ hr⟩
  simp only [hread]
  constructor
  · intro h
    obtain ⟨n, hr⟩ := (h t).2 rfl
    exact (ht.safe_of_reading hr).1
  · intro hs u
    constructor
    · rintro ⟨n, hr⟩
      exact (hr.unique (ht.reading hs)).2
    · rintro rfl
      exact ⟨e.level, ht.reading hs⟩

/-- In `!a == b` and in `-a * b` the first operator belongs to the left operand of the second. It is
so again when Python reads `-a * b`, but `not a == b`, as the other one is written, is the negation
of a comparison. -/
theorem Expr.readFrom_render_iff_first :
    (¬ ∀ u, OpTree.ReadFrom "not a == b" u ↔
        u = .binary .equality (.unary .not (.leaf (.name "a"))) (.leaf (.name "b"))) ∧
      ∀ u, OpTree.ReadFrom "-a * b" u ↔
        u = .binary .multiply (.unary .negate (.leaf (.name "a"))) (.leaf (.name "b")) := by
  have hscan : Token.scan "!a == b" = .ok [⟨.mark .exclamation, "!", some ⟨0, 0⟩⟩,
      ⟨.name, "a", some ⟨0, 1⟩⟩, ⟨.mark .equality, "==", some ⟨0, 3⟩⟩,
      ⟨.name, "b", some ⟨0, 6⟩⟩] := rfl
  have hscan' : Token.scan "-a * b" = .ok [⟨.mark .minus, "-", some ⟨0, 0⟩⟩,
      ⟨.name, "a", some ⟨0, 1⟩⟩, ⟨.mark .star, "*", some ⟨0, 3⟩⟩,
      ⟨.name, "b", some ⟨0, 5⟩⟩] := rfl
  let signed (op : UnaryOp) : Phrase .factor :=
    .ofUnary (.signed op (.ofApplied (.ofPrimary (.word "a"))))
  let name : Phrase .unary := .ofApplied (.ofPrimary (.word "b"))
  let equality : Phrase .binary := .sum (.ofFactor (signed .not)) ⟨.equality, rfl⟩ (.ofUnary name)
  let product : Phrase .binary := .ofFactor (.product (signed .negate) ⟨.multiply, rfl⟩ name)
  have hequality := Block.parse_of_phrase hscan
    (p := .nextStatement (.expr (.plain equality)) .noStatements)
    ⟨⟨trivial, trivial⟩, ⟨trivial, fun _ => Token.ends_nil _, trivial⟩, rfl, by decide⟩
  have hproduct := Block.parse_of_phrase hscan'
    (p := .nextStatement (.expr (.plain product)) .noStatements)
    ⟨⟨trivial, trivial⟩, ⟨trivial, fun _ => Token.ends_nil _, trivial⟩, rfl, by decide⟩
  have ha : (Leaf.name "a").Readable := by simp [Leaf.Readable]
  have hb : (Leaf.name "b").Readable := by simp [Leaf.Readable]
  have htree : ∀ first second, Expr.HasTree
      ⟨.binary second ⟨.unary first ⟨.name "a", false⟩, false⟩ ⟨.name "b", false⟩, false⟩
      (.binary second (.unary first (.leaf (.name "a"))) (.leaf (.name "b"))) :=
    fun first second => .binary second (.unary first (.leaf ha false) false) (.leaf hb false) false
  constructor
  · intro h
    have hsafe := (Expr.readFrom_render_iff hequality (.expr List.mem_cons_self .self)
      (htree .not .equality)).1 h
    exact absurd hsafe (by unfold Expr.Safe; decide)
  · exact (Expr.readFrom_render_iff hproduct (.expr List.mem_cons_self .self)
      (htree .negate .multiply)).2 rfl

end Offside
