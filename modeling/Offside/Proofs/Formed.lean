import Offside.Proofs.Lexical
import Offside.Proofs.Phrase

/-!
# Well-formed trees

What the trees of programs have in common: the texts at their leaves are those of tokens, and an
operand binds at least as tightly as its operator asks, or stands in parentheses
(`Expr.Formed`, `Stmt.Formed`). `Expr.depth` counts the levels of nesting that a tree needs.

Whatever phrase a tree was read from, it is well formed (`formed_meaning`) and needs no more levels
than the phrase opens (`depth_meaning`).
-/

namespace Offside

open Lexeme

/-- How tightly the form holds together. -/
def Form.tier : Form → Nat
  | .assign _ _ => 0
  | .binary op _ _ => op.tier
  | .unary _ _ => 3
  | _ => 4

def Expr.tier (e : Expr) : Nat := if e.grouped then 4 else e.form.tier

/-- The text of a name token. -/
def IsName (x : String) : Prop := IsWord x.toList ∧ Keyword.ofSpelling? x = none

theorem isName_of_all {x : String} (hne : x.toList ≠ []) (hall : x.toList.all Char.isAlpha = true)
    (hk : Keyword.ofSpelling? x = none) : IsName x := ⟨⟨hne, List.all_eq_true.1 hall⟩, hk⟩

/-- The text of a name that stands for no value. -/
def IsTarget (x : String) : Prop := IsName x ∧ x ≠ "T" ∧ x ≠ "F"

inductive Expr.Formed : Expr → Prop where
  | name {x : String} (hx : IsTarget x) (g : Bool) : Formed ⟨.name x, g⟩
  | number {text : String} (ht : IsNumber text.toList) (g : Bool) : Formed ⟨.number text, g⟩
  | string {content : String} (hc : IsContent content.toList) (g : Bool) :
      Formed ⟨.string content, g⟩
  | truth (b g : Bool) : Formed ⟨.truth b, g⟩
  | assign {x : String} {v : Expr} (hx : IsTarget x) (hv : Formed v) (g : Bool) :
      Formed ⟨.assign x v, g⟩
  | binary {op : BinaryOp} {l r : Expr} (hl : Formed l) (hr : Formed r) (htl : op.tier ≤ l.tier)
      (htr : op.tier < r.tier) (g : Bool) : Formed ⟨.binary op l r, g⟩
  | unary (op : UnaryOp) {e : Expr} (he : Formed e) (ht : 3 ≤ e.tier) (g : Bool) :
      Formed ⟨.unary op e, g⟩
  | call {c : Expr} {args : List Expr} (hc : Formed c) (ht : 4 ≤ c.tier)
      (hargs : ∀ a ∈ args, Formed a) (g : Bool) : Formed ⟨.call c args, g⟩
  | index {v i : Expr} (hv : Formed v) (ht : 4 ≤ v.tier) (hi : Formed i) (g : Bool) :
      Formed ⟨.index v i, g⟩
  | member {v : Expr} {x : String} (hv : Formed v) (ht : 4 ≤ v.tier) (hx : IsName x) (g : Bool) :
      Formed ⟨.member v x, g⟩
  | dict {es : List Entry} (hk : ∀ n ∈ es, Formed n.key) (hv : ∀ n ∈ es, Formed n.value)
      (g : Bool) :
      Formed ⟨.dict es, g⟩
  | list {es : List Expr} (hes : ∀ e ∈ es, Formed e) (g : Bool) : Formed ⟨.list es, g⟩

/-- Parentheses do not matter for the form inside of them. -/
theorem Expr.Formed.regroup {e : Expr} (h : Formed e) (g' : Bool) : Formed ⟨e.form, g'⟩ := by
  cases h with
  | name hx => exact .name hx g'
  | number ht => exact .number ht g'
  | string hc => exact .string hc g'
  | truth b => exact .truth b g'
  | assign hx hv => exact .assign hx hv g'
  | binary hl hr htl htr => exact .binary hl hr htl htr g'
  | unary op he ht => exact .unary op he ht g'
  | call hc ht hargs => exact .call hc ht hargs g'
  | index hv ht hi => exact .index hv ht hi g'
  | member hv ht hx => exact .member hv ht hx g'
  | dict hk hv => exact .dict hk hv g'
  | list hes => exact .list hes g'

inductive Stmt.Formed : Stmt → Prop where
  | expr {e : Expr} (he : e.Formed) : Formed (.expr e)
  | comment (text : String) : Formed (.comment text)
  | cond {c : Expr} {body : Block} (hc : c.Formed) (hb : ∀ s ∈ body, Formed s) :
      Formed (.cond c body none)
  | condElse {c : Expr} {body other : Block} (hc : c.Formed) (hb : ∀ s ∈ body, Formed s)
      (ho : ∀ s ∈ other, Formed s) : Formed (.cond c body (some other))

/-- What a phrase of the category stands for is well formed, and binds as tightly as it should. -/
def Category.Fits : (c : Category) → c.Meaning → Prop
  | .expression, e => Expr.Formed e
  | .binary, e => Expr.Formed e ∧ 1 ≤ Expr.tier e
  | .factor, e => Expr.Formed e ∧ 2 ≤ Expr.tier e
  | .unary, e => Expr.Formed e ∧ 3 ≤ Expr.tier e
  | .applied, e => Expr.Formed e ∧ 4 ≤ Expr.tier e
  | .primary, e => Expr.Formed e ∧ 4 ≤ Expr.tier e
  | .arguments, es => ∀ e ∈ es, Expr.Formed e
  | .items, es => ∀ e ∈ es, Expr.Formed e
  | .entries, es => ∀ n ∈ es, n.key.Formed ∧ n.value.Formed
  | .entry, n => n.key.Formed ∧ n.value.Formed
  | .key, e => Expr.Formed e
  | .statement, s => Stmt.Formed s
  | .block, b => ∀ s ∈ b, Stmt.Formed s
  | .statements, b => ∀ s ∈ b, Stmt.Formed s

theorem Expr.formed_asKey {e : Expr} (h : e.Formed) : e.asKey.Formed := by
  unfold asKey
  cases hx : e.name? with
  | none => exact h
  | some x =>
    have hname : IsTarget x := by
      cases h with
      | name hy =>
        obtain rfl := Option.some.inj hx
        exact hy
      | number | string | truth | assign | binary | unary | call | index | member | dict | list =>
        exact absurd hx (by simp [name?])
    refine .string ⟨fun hq => ?_, fun hn => ?_⟩ false
    · exact absurd (hname.1.1.2 _ hq) (by decide)
    · exact absurd (hname.1.1.2 _ hn) (by decide)

theorem Expr.formed_ofWord {x : String} (h : IsName x) :
    (Expr.ofWord x).Formed ∧ 4 ≤ (Expr.ofWord x).tier := by
  unfold ofWord
  split
  · exact ⟨.truth true false, le_refl 4⟩
  · split
    · exact ⟨.truth false false, le_refl 4⟩
    · rename_i ht hf
      exact ⟨.name ⟨h, ht, hf⟩ false, le_refl 4⟩

/-- The text between the quotes. -/
theorem Expr.unquote_quoted {lexeme : String} {content : List Char}
    (h : lexeme.toList = '"' :: content ++ ['"']) :
    Expr.unquote lexeme = String.ofList content := by
  simp [unquote, h]

namespace Phrase

theorem formed_string {lexeme : String} (h : (Token.bare .string lexeme).Lexical) (g : Bool) :
    Expr.Formed ⟨.string (Expr.unquote lexeme), g⟩ := by
  obtain ⟨content, hc, heq⟩ := h
  change lexeme.toList = _ at heq
  rw [Expr.unquote_quoted heq]
  exact .string (by rwa [String.toList_ofList]) g

/-- Every tree that is read from a phrase of lexemes is well formed. -/
theorem formed_meaning : ∀ {c : Category} (p : Phrase c), (∀ t ∈ p.tokens, t.Lexical) →
    c.Fits p.meaning
  | _, assign x v, h => by
    have hv := formed_meaning v fun t ht => h t (by simp [ht])
    have hx : IsName x := h (.bare .name x) (by simp)
    exact .assign ⟨hx, x.2⟩ hv false
  | _, plain e, h => (formed_meaning e h).1
  | _, sum l op r, h => by
    obtain ⟨hl, htl⟩ := formed_meaning l fun t ht => h t (by simp [ht])
    obtain ⟨hr, htr⟩ := formed_meaning r fun t ht => h t (by simp [ht])
    exact ⟨.binary hl hr (op.2.le.trans htl) (op.2.trans_lt htr) false, op.2.ge⟩
  | _, ofFactor e, h => by
    obtain ⟨he, ht⟩ := formed_meaning e h
    exact ⟨he, Nat.le_of_succ_le ht⟩
  | _, product l op r, h => by
    obtain ⟨hl, htl⟩ := formed_meaning l fun t ht => h t (by simp [ht])
    obtain ⟨hr, htr⟩ := formed_meaning r fun t ht => h t (by simp [ht])
    exact ⟨.binary hl hr (op.2.le.trans htl) (op.2.trans_lt htr) false, op.2.ge⟩
  | _, ofUnary e, h => by
    obtain ⟨he, ht⟩ := formed_meaning e h
    exact ⟨he, Nat.le_of_succ_le ht⟩
  | _, signed op e, h => by
    obtain ⟨he, ht⟩ := formed_meaning e fun t ht => h t (by simp [ht])
    exact ⟨.unary op he ht false, le_refl 3⟩
  | _, ofApplied e, h => by
    obtain ⟨he, ht⟩ := formed_meaning e h
    exact ⟨he, Nat.le_of_succ_le ht⟩
  | _, call c args, h => by
    obtain ⟨hc, ht⟩ := formed_meaning c fun t ht => h t (by simp [ht])
    have hargs := formed_meaning args fun t ht => h t (by simp [ht])
    exact ⟨.call hc ht hargs false, le_refl 4⟩
  | _, index v i, h => by
    obtain ⟨hv, ht⟩ := formed_meaning v fun t ht => h t (by simp [ht])
    have hi := formed_meaning i fun t ht => h t (by simp [ht])
    exact ⟨.index hv ht hi false, le_refl 4⟩
  | _, member v x, h => by
    obtain ⟨hv, ht⟩ := formed_meaning v fun t ht => h t (by simp [ht])
    have hx : IsName x := h (.bare .name x) (by simp)
    exact ⟨.member hv ht hx false, le_refl 4⟩
  | _, ofPrimary e, h => formed_meaning e h
  | _, number text, h => ⟨.number (h (.bare .number text) (by simp)) false, le_refl 4⟩
  | _, string lexeme, h => ⟨formed_string (h (.bare .string lexeme) (by simp)) false, le_refl 4⟩
  | _, word x, h => Expr.formed_ofWord (h (.bare .name x) (by simp))
  | _, group e, h => by
    have he := formed_meaning e fun t ht => h t (by simp [ht])
    exact ⟨Expr.Formed.regroup he true, le_refl 4⟩
  | _, list es, h => by
    have hes := formed_meaning es fun t ht => h t (by simp [ht])
    exact ⟨.list hes false, le_refl 4⟩
  | _, dict es, h => by
    have hes := formed_meaning es fun t ht => h t (by simp [ht])
    exact ⟨.dict (fun n hn => (hes n hn).1) (fun n hn => (hes n hn).2) false, le_refl 4⟩
  | _, noItems, _ => by simp [Category.Fits]
  | _, someItems es, h => formed_meaning es h
  | _, lastItem e, h => by
    have he := formed_meaning e h
    simpa [Category.Fits] using he
  | _, nextItem e es, h => by
    have he := formed_meaning e fun t ht => h t (by simp [ht])
    have hes := formed_meaning es fun t ht => h t (by simp [ht])
    exact List.forall_mem_cons.2 ⟨he, hes⟩
  | _, noEntries, _ => by simp [Category.Fits]
  | _, lastEntry n, h => by
    have hn := formed_meaning n h
    simpa [Category.Fits] using hn
  | _, nextEntry n es, h => by
    have hn := formed_meaning n fun t ht => h t (by simp [ht])
    have hes := formed_meaning es fun t ht => h t (by simp [ht])
    exact List.forall_mem_cons.2 ⟨hn, hes⟩
  | _, alone k, h => by
    have hk := formed_meaning k h
    exact ⟨Expr.formed_asKey hk, hk⟩
  | _, colon k v, h => by
    have hk := formed_meaning k fun t ht => h t (by simp [ht])
    have hv := formed_meaning v fun t ht => h t (by simp [ht])
    exact ⟨Expr.formed_asKey hk, hv⟩
  | _, walrus k v, h => by
    have hk := formed_meaning k fun t ht => h t (by simp [ht])
    have hv := formed_meaning v fun t ht => h t (by simp [ht])
    exact ⟨hk, hv⟩
  | _, nameKey x, h => .name ⟨h (.bare .name x) (by simp), x.2⟩ false
  | _, groupKey k, h => by
    have hk := formed_meaning k fun t ht => h t (by simp [ht])
    exact Expr.Formed.regroup hk true
  | _, cond c body, h => by
    have hc := formed_meaning c fun t ht => h t (by simp [ht])
    have hb := formed_meaning body fun t ht => h t (by simp [ht])
    exact .cond hc hb
  | _, condElse c body other, h => by
    have hc := formed_meaning c fun t ht => h t (by simp [ht])
    have hb := formed_meaning body fun t ht => h t (by simp [ht])
    have ho := formed_meaning other fun t ht => h t (by simp [ht])
    exact .condElse hc hb ho
  | _, comment text, _ => .comment text
  | _, expr e, h => .expr (formed_meaning e h)
  | _, braces ss, h => formed_meaning ss fun t ht => h t (by simp [ht])
  | _, single s, h => by
    have hs := formed_meaning s h
    simpa [Category.Fits] using hs
  | _, noStatements, _ => by simp [Category.Fits]
  | _, nextStatement s ss, h => by
    have hs := formed_meaning s fun t ht => h t (by simp [ht])
    have hss := formed_meaning ss fun t ht => h t (by simp [ht])
    exact List.forall_mem_cons.2 ⟨hs, hss⟩

end Phrase

/-! ## Levels of nesting -/

mutual

/-- The levels that the expression opens as an operand; as a whole expression it is one more. -/
def Expr.depth : Expr → Nat
  | ⟨form, grouped⟩ => form.depth + (if grouped then 1 else 0)

def Form.depth : Form → Nat
  | .assign _ value => value.depth + 1
  | .binary _ left right => max left.depth right.depth
  | .unary _ operand => operand.depth + 1
  | .call callee args => max callee.depth (depthAll args)
  | .index value index => max value.depth (index.depth + 1)
  | .member value _ => value.depth
  | .dict entries => depthEntries entries
  | .list elements => depthAll elements
  | _ => 0

/-- The levels that whole expressions open. -/
def depthAll : List Expr → Nat
  | [] => 0
  | e :: es => max (e.depth + 1) (depthAll es)

def depthEntries : List Entry → Nat
  | [] => 0
  | ⟨key, value⟩ :: es => max (max (key.depth + 1) (value.depth + 1)) (depthEntries es)

end

theorem depthEntries_cons (n : Entry) (es : List Entry) : depthEntries (n :: es) =
    max (max (n.key.depth + 1) (n.value.depth + 1)) (depthEntries es) := by
  obtain ⟨key, value⟩ := n
  rw [depthEntries]

theorem Expr.depth_form_le (e : Expr) : e.form.depth ≤ e.depth := by
  obtain ⟨form, grouped⟩ := e
  rw [Expr.depth]
  exact Nat.le_add_right _ _

theorem Expr.depth_group (e : Expr) : e.group.depth = e.form.depth + 1 := by
  rw [Expr.group, Expr.depth, if_pos rfl]

theorem Form.depth_bare (f : Form) : f.bare.depth = f.depth := by
  rw [Form.bare, Expr.depth]
  simp

theorem Expr.depth_asKey_le (e : Expr) : e.asKey.depth ≤ e.depth := by
  unfold Expr.asKey
  cases e.name? with
  | none => exact le_refl _
  | some x => simp [Form.depth_bare, Form.depth]

theorem Expr.depth_ofWord (x : String) : (Expr.ofWord x).depth = 0 := by
  unfold Expr.ofWord
  split
  · simp [Form.depth_bare, Form.depth]
  · split <;> simp [Form.depth_bare, Form.depth]

/-- What a phrase of the category stands for opens at most `d` levels. -/
def Category.DepthLe (d : Nat) : (c : Category) → c.Meaning → Prop
  | .expression, e => Expr.depth e + 1 ≤ d
  | .binary, e => Expr.depth e ≤ d
  | .factor, e => Expr.depth e ≤ d
  | .unary, e => Expr.depth e ≤ d
  | .applied, e => Expr.depth e ≤ d
  | .primary, e => Expr.depth e ≤ d
  | .arguments, es => depthAll es ≤ d
  | .items, es => depthAll es ≤ d
  | .entries, es => depthEntries es ≤ d
  | .entry, n => n.key.depth + 1 ≤ d ∧ n.value.depth + 1 ≤ d
  | .key, e => Expr.depth e + 1 ≤ d
  | .statement, _ => True
  | .block, _ => True
  | .statements, _ => True

namespace Phrase

/-- A tree needs no more levels of nesting than the phrase it was read from opens. -/
theorem depth_meaning : ∀ {c : Category} (p : Phrase c), c.DepthLe p.depth p.meaning
  | _, assign _ v => by
    have hv := depth_meaning v
    simp only [Category.DepthLe, meaning, depth, Form.depth_bare, Form.depth] at hv ⊢
    omega
  | _, plain e => by
    have he := depth_meaning e
    simp only [Category.DepthLe, meaning, depth] at he ⊢
    omega
  | _, sum l _ r => by
    have hl := depth_meaning l
    have hr := depth_meaning r
    simp only [Category.DepthLe, meaning, depth, Form.depth_bare, Form.depth] at hl hr ⊢
    omega
  | _, ofFactor e => depth_meaning e
  | _, product l _ r => by
    have hl := depth_meaning l
    have hr := depth_meaning r
    simp only [Category.DepthLe, meaning, depth, Form.depth_bare, Form.depth] at hl hr ⊢
    omega
  | _, ofUnary e => depth_meaning e
  | _, signed _ e => by
    have he := depth_meaning e
    simp only [Category.DepthLe, meaning, depth, Form.depth_bare, Form.depth] at he ⊢
    omega
  | _, ofApplied e => depth_meaning e
  | _, call c args => by
    have hc := depth_meaning c
    have hargs := depth_meaning args
    simp only [Category.DepthLe, meaning, depth, Form.depth_bare, Form.depth] at hc hargs ⊢
    omega
  | _, index v i => by
    have hv := depth_meaning v
    have hi := depth_meaning i
    simp only [Category.DepthLe, meaning, depth, Form.depth_bare, Form.depth] at hv hi ⊢
    omega
  | _, member v _ => by
    have hv := depth_meaning v
    simp only [Category.DepthLe, meaning, depth, Form.depth_bare, Form.depth] at hv ⊢
    exact hv
  | _, ofPrimary e => depth_meaning e
  | _, number _ => by simp [Category.DepthLe, Form.depth_bare, Form.depth]
  | _, string _ => by simp [Category.DepthLe, Form.depth_bare, Form.depth]
  | _, word x => by simp [Category.DepthLe, Expr.depth_ofWord]
  | _, group e => by
    have he := depth_meaning e
    have hform := Expr.depth_form_le e.meaning
    simp only [Category.DepthLe, meaning, depth, Expr.depth_group] at he ⊢
    omega
  | _, list es => by
    have hes := depth_meaning es
    simp only [Category.DepthLe, meaning, depth, Form.depth_bare, Form.depth] at hes ⊢
    exact hes
  | _, dict es => by
    have hes := depth_meaning es
    simp only [Category.DepthLe, meaning, depth, Form.depth_bare, Form.depth] at hes ⊢
    exact hes
  | _, noItems => by simp [Category.DepthLe, depthAll]
  | _, someItems es => depth_meaning es
  | _, lastItem e => by
    have he := depth_meaning e
    simp only [Category.DepthLe, meaning, depth, depthAll] at he ⊢
    omega
  | _, nextItem e es => by
    have he := depth_meaning e
    have hes := depth_meaning es
    simp only [Category.DepthLe, meaning, depth, depthAll] at he hes ⊢
    omega
  | _, noEntries => by simp [Category.DepthLe, depthEntries]
  | _, lastEntry n => by
    have hn := depth_meaning n
    simp only [Category.DepthLe, meaning, depth, depthEntries_cons, depthEntries] at hn ⊢
    omega
  | _, nextEntry n es => by
    have hn := depth_meaning n
    have hes := depth_meaning es
    simp only [Category.DepthLe, meaning, depth, depthEntries_cons] at hn hes ⊢
    omega
  | _, alone k => by
    have hk := depth_meaning k
    have hkey := Expr.depth_asKey_le k.meaning
    simp only [Category.DepthLe, meaning, depth] at hk ⊢
    omega
  | _, colon k v => by
    have hk := depth_meaning k
    have hv := depth_meaning v
    have hkey := Expr.depth_asKey_le k.meaning
    simp only [Category.DepthLe, meaning, depth] at hk hv ⊢
    omega
  | _, walrus k v => by
    have hk := depth_meaning k
    have hv := depth_meaning v
    simp only [Category.DepthLe, meaning, depth] at hk hv ⊢
    omega
  | _, nameKey _ => by simp [Category.DepthLe, Form.depth_bare, Form.depth]
  | _, groupKey k => by
    have hk := depth_meaning k
    have hform := Expr.depth_form_le k.meaning
    simp only [Category.DepthLe, meaning, depth, Expr.depth_group] at hk ⊢
    omega
  | .statement, _ | .block, _ | .statements, _ => trivial

end Phrase

end Offside
