import Offside.Journal
import Offside.Proofs.Accepted
import Offside.Proofs.Written.Stmt

/-!
# The tokens that rendering keeps

The rendering of a program without comments and dictionaries has the tokens of the program, in
order, up to the way some of them are spelled: parentheses, braces and colons come and go, some
operators become words, and `else` and `if` together become one word. `normalize` removes these
differences.

The tree lies in between. Every phrase has the tokens of what it stands for (`Phrase.keeps`), and so
has every rendering (`Expr.Formed.normalize_seen`).
-/

namespace Offside

/-! ## Spellings -/

def Mark.normal : Mark → List Token
  | .openParen | .closeParen | .openBrace | .closeBrace | .colon => []
  | .and => [.bare .name "and"]
  | .or => [.bare .name "or"]
  | .exclamation => [.bare .name "not"]
  | .walrus => [Mark.equal.token]
  | m => [m.token]

/-- The tokens that a token stands for in any spelling, without its place. -/
def Token.normal (t : Token) : List Token :=
  match t.kind with
  | .mark m => m.normal
  | .name =>
    if t.lexeme = "T" then [.bare .name "True"]
    else if t.lexeme = "F" then [.bare .name "False"]
    else if t.lexeme = "elif" then [Keyword.elseWord.token, Keyword.ifWord.token]
    else [t.unplaced]
  | _ => [t.unplaced]

def normalize (ts : List Token) : List Token := ts.flatMap Token.normal

@[simp]
theorem normalize_nil : normalize [] = [] := rfl

@[simp]
theorem normalize_cons (t : Token) (ts : List Token) :
    normalize (t :: ts) = t.normal ++ normalize ts := List.flatMap_cons

@[simp]
theorem normalize_append (ts us : List Token) :
    normalize (ts ++ us) = normalize ts ++ normalize us := List.flatMap_append

@[simp]
theorem Token.normal_mark (m : Mark) : m.token.normal = m.normal := rfl

theorem normalize_unplaced (ts : List Token) :
    normalize (ts.map Token.unplaced) = normalize ts := by
  rw [normalize, List.flatMap_map]
  rfl

theorem normalize_commaTokens : ∀ tss : List (List Token),
    normalize (commaTokens tss) = commaTokens (tss.map normalize)
  | [] => rfl
  | [ts] => rfl
  | ts :: us :: tss => by
    rw [commaTokens, normalize_append, normalize_cons, normalize_commaTokens (us :: tss)]
    rfl

/-- Parentheses around an expression are not kept. -/
theorem Expr.normalize_tokens (e : Expr) :
    normalize (e.tokens .keyed) = normalize (e.form.tokens .keyed) := by
  obtain ⟨form, grouped⟩ := e
  cases grouped with
  | false => rfl
  | true => simp [Expr.tokens, Mark.normal]

theorem normalize_tokensAll (es : List Expr) : normalize (tokensAll .keyed es) =
    commaTokens (es.map fun e => normalize (e.form.tokens .keyed)) := by
  rw [tokensAll_eq, normalize_commaTokens, List.map_map]
  exact congrArg commaTokens (List.map_congr_left fun e _ => e.normalize_tokens)

/-! ## What is rendered -/

def Form.isDict : Form → Bool
  | .dict _ => true
  | _ => false

def Expr.isPlain (e : Expr) : Bool := !e.form.isDict

theorem normalize_seen_paren (ps : List Part) :
    normalize ((parenParts ps).flatMap Part.seen) = normalize (ps.flatMap Part.seen) := by
  simp [parenParts, Mark.normal]

theorem Expr.normalize_seen_operand (e : Expr) :
    normalize ((e.parts .operand).flatMap Part.seen) =
      normalize (e.form.parts.flatMap Part.seen) := by
  obtain ⟨form, grouped⟩ := e
  rw [Expr.parts]
  · split
    · exact normalize_seen_paren form.parts
    · rfl
  · simp

theorem BinaryOp.normalize_seen (op : BinaryOp) : normalize op.part.seen = op.mark.normal := by
  cases op <;> rfl

theorem UnaryOp.normalize_seen (op : UnaryOp) :
    normalize (op.parts.flatMap Part.seen) = op.mark.normal := by
  cases op <;> rfl

/-- The renderings of an expression have the tokens of its form. -/
structure Expr.Traced (e : Expr) : Prop where
  form : normalize (e.form.parts.flatMap Part.seen) = normalize (e.form.tokens .keyed)
  statement : normalize ((e.parts .statement).flatMap Part.seen) = normalize (e.form.tokens .keyed)

namespace Expr.Traced

theorem operand {e : Expr} (h : e.Traced) :
    normalize ((e.parts .operand).flatMap Part.seen) = normalize (e.form.tokens .keyed) :=
  e.normalize_seen_operand.trans h.form

theorem role {e : Expr} (h : e.Traced) (role : Role) :
    normalize ((e.parts role).flatMap Part.seen) = normalize (e.form.tokens .keyed) := by
  cases role with
  | statement => exact h.statement
  | operand => exact h.operand

theorem of_form {e : Expr}
    (h : normalize (e.form.parts.flatMap Part.seen) = normalize (e.form.tokens .keyed))
    (hn : e.form.isAssign = false) : e.Traced := by
  refine ⟨h, ?_⟩
  rw [Expr.parts_statement hn]
  exact e.normalize_seen_operand.trans h

end Expr.Traced

theorem normalize_seen_all {es : List Expr} (h : ∀ e ∈ es, e.Traced) :
    normalize ((commaParts (partsAll es)).flatMap Part.seen) = normalize (tokensAll .keyed es) := by
  rw [flatMap_commaParts (fun m _ _ => Part.seen_mark m) rfl, normalize_commaTokens,
    normalize_tokensAll, partsAll_eq_map, List.map_map, List.map_map]
  exact congrArg commaTokens (List.map_congr_left fun e he => (h e he).operand)

theorem Expr.Formed.normalize_seen {e : Expr} (h : e.Formed)
    (hp : e.every Expr.isPlain = true) : e.Traced := by
  induction h with
  | name hx g => exact .of_form rfl rfl
  | number ht g => exact .of_form rfl rfl
  | string hc g => exact .of_form rfl rfl
  | truth b g => cases b <;> exact .of_form rfl rfl
  | @assign x v hx hv g ih =>
    simp only [Expr.every, Form.every, Bool.and_eq_true] at hp
    have htv := ih hp.2
    constructor
    · rw [Form.parts, normalize_seen_paren, Form.tokens]
      simp [htv.operand, v.normalize_tokens, Mark.normal]
    · rw [Expr.parts, Form.tokens]
      simp [htv.role, v.normalize_tokens, Mark.normal]
  | @binary op l r hl hr htl htr g ihl ihr =>
    simp only [Expr.every, Form.every, Bool.and_eq_true] at hp
    refine .of_form ?_ rfl
    rw [Form.parts, Form.tokens]
    simp [(ihl hp.2.1).operand, (ihr hp.2.2).operand, l.normalize_tokens, r.normalize_tokens,
      op.normalize_seen]
  | @unary op e he ht g ih =>
    simp only [Expr.every, Form.every, Bool.and_eq_true] at hp
    refine .of_form ?_ rfl
    rw [Form.parts, Form.tokens]
    simp [(ih hp.2).operand, e.normalize_tokens, op.normalize_seen]
  | @call c args hc ht hargs g ihc ihargs =>
    simp only [Expr.every, Form.every, Bool.and_eq_true, everyAll_iff] at hp
    refine .of_form ?_ rfl
    have hall := normalize_seen_all fun a ha => ihargs a ha (hp.2.2 a ha)
    rw [Form.parts, Form.tokens]
    simp [(ihc hp.2.1).operand, c.normalize_tokens, normalize_seen_paren, hall, Mark.normal]
  | @index v i hv ht hi g ihv ihi =>
    simp only [Expr.every, Form.every, Bool.and_eq_true] at hp
    refine .of_form ?_ rfl
    rw [Form.parts, Form.tokens]
    simp [(ihv hp.2.1).operand, (ihi hp.2.2).operand, v.normalize_tokens, i.normalize_tokens]
  | @member v x hv ht hx g ih =>
    simp only [Expr.every, Form.every, Bool.and_eq_true] at hp
    refine .of_form ?_ rfl
    have hform := (ih hp.2).form
    have htokens := v.normalize_tokens
    obtain ⟨form, grouped⟩ := v
    have hvalue : normalize ((if form.isAssign then form.parts else parenParts form.parts).flatMap
        Part.seen) = normalize (form.parts.flatMap Part.seen) := by
      split
      · rfl
      · exact normalize_seen_paren form.parts
    rw [Form.parts, Form.tokens]
    simp [hvalue, hform, htokens]
  | dict hk hv g => exact absurd hp (by simp [Expr.every, Expr.isPlain, Form.isDict])
  | @list es hes g ih =>
    simp only [Expr.every, Form.every, Bool.and_eq_true, everyAll_iff] at hp
    refine .of_form ?_ rfl
    have hall := normalize_seen_all fun a ha => ih a ha (hp.2 a ha)
    rw [Form.parts, Form.tokens]
    simp [hall]

/-- What is kept of the items of a block. -/
def kept (is : List Item) : List Token := normalize ((partsOf is).flatMap Part.seen)

theorem kept_cons (i : Item) (is : List Item) :
    kept (i :: is) = normalize (i.parts.flatMap Part.seen) ++ kept is := by
  simp [kept, partsOf_cons]

theorem kept_append (is js : List Item) : kept (is ++ js) = kept is ++ kept js := by
  simp [kept, partsOf_append]

theorem kept_line (level : Nat) (is : List Item) : kept (.line level :: is) = kept is := by
  simp [kept_cons]

theorem kept_stackItems (level : Nat) (iss : List (List Item)) :
    kept (stackItems level iss) = iss.flatMap kept := by
  induction iss with
  | nil => rfl
  | cons is iss ih =>
    rw [stackItems, List.flatMap_cons, kept_append, kept_line, ← stackItems, ih, List.flatMap_cons]

theorem kept_hangItems (level : Nat) (iss : List (List Item)) :
    kept (hangItems level iss) = iss.flatMap kept := by
  match iss with
  | [] => rfl
  | [is] => simp [hangItems, kept_cons, Item.parts]
  | is :: is' :: iss => exact kept_stackItems level (is :: is' :: iss)

/-- The words before a condition. -/
theorem kept_head (chained : Bool) (c : Expr) (is : List Item) : kept (.head chained c :: is) =
    (if chained then [Keyword.elseWord.token] else []) ++ Keyword.ifWord.token ::
      (normalize ((c.parts .operand).flatMap Part.seen) ++ kept is) := by
  have hif : Keyword.ifWord.token.normal = [Keyword.ifWord.token] := rfl
  have helif : (Token.bare .name "elif").normal =
      [Keyword.elseWord.token, Keyword.ifWord.token] := rfl
  cases chained <;> simp [kept_cons, Item.parts, Mark.normal, hif, helif]

theorem kept_otherwise (is : List Item) :
    kept (.otherwise :: is) = Keyword.elseWord.token :: kept is := by
  have helse : Keyword.elseWord.token.normal = [Keyword.elseWord.token] := rfl
  simp [kept_cons, Item.parts, Mark.normal, helse]

/-- In a chain the `else` is part of the first word. -/
theorem kept_chained {s : Stmt} (h : s.isCond = true) (level : Nat) :
    kept (s.items level true) = Keyword.elseWord.token :: kept (s.items level false) := by
  cases s with
  | cond c body other => simp [Stmt.items, kept_head]
  | expr | comment => exact absurd h (by simp [Stmt.isCond])

/-- An `else` and its block. -/
theorem kept_else {b : Block} {ts : List Token}
    (h : ∀ level, ts = (itemsAll level b).flatMap kept) (level : Nat) :
    kept (itemsElse level (some b)) = Keyword.elseWord.token :: ts := by
  rcases itemsElse_cases level b with ⟨s, rfl, hs, heq⟩ | ⟨-, heq⟩
  · rw [heq, kept_line, kept_chained hs, h level]
    simp [itemsAll]
  · rw [heq, kept_line, kept_otherwise, kept_hangItems, ← h]

/-! ## What is read -/

/-- No comment, and no dictionary in the expressions. -/
def Stmt.isPlain : Stmt → Bool
  | .expr e => e.every Expr.isPlain
  | .comment _ => false
  | .cond condition _ _ => condition.every Expr.isPlain

/-- The tokens are those of the expression, if it is plain. -/
def Expr.Keeps (ts : List Token) (e : Expr) : Prop :=
  e.every Expr.isPlain = true → normalize ts = normalize (e.form.tokens .keyed)

def Block.Keeps (ts : List Token) (b : Block) : Prop :=
  everyStmt Stmt.isPlain b = true → ∀ level, normalize ts = (itemsAll level b).flatMap kept

namespace Expr.Keeps

variable {ts us : List Token} {e e' : Expr}

theorem assign (x : String) (h : Keeps ts e) :
    Keeps (.bare .name x :: Mark.equal.token :: ts) (Form.assign x e).bare := by
  intro hp
  simp only [Form.bare, Expr.every, Form.every, Bool.and_eq_true] at hp
  simp [Form.bare, Form.tokens, e.normalize_tokens, h hp.2]

theorem binary (op : BinaryOp) (hl : Keeps ts e) (hr : Keeps us e') :
    Keeps (ts ++ op.mark.token :: us) (Form.binary op e e').bare := by
  intro hp
  simp only [Form.bare, Expr.every, Form.every, Bool.and_eq_true] at hp
  simp [Form.bare, Form.tokens, e.normalize_tokens, e'.normalize_tokens, hl hp.2.1, hr hp.2.2]

theorem unary (op : UnaryOp) (h : Keeps ts e) :
    Keeps (op.mark.token :: ts) (Form.unary op e).bare := by
  intro hp
  simp only [Form.bare, Expr.every, Form.every, Bool.and_eq_true] at hp
  simp [Form.bare, Form.tokens, e.normalize_tokens, h hp.2]

theorem call {args : List Expr} (hc : Keeps ts e)
    (ha : everyAll Expr.isPlain args = true → normalize us = normalize (tokensAll .keyed args)) :
    Keeps (ts ++ Mark.openParen.token :: (us ++ [Mark.closeParen.token]))
      (Form.call e args).bare := by
  intro hp
  simp only [Form.bare, Expr.every, Form.every, Bool.and_eq_true] at hp
  simp [Form.bare, Form.tokens, e.normalize_tokens, hc hp.2.1, ha hp.2.2]

theorem index (hv : Keeps ts e) (hi : Keeps us e') :
    Keeps (ts ++ Mark.openBracket.token :: (us ++ [Mark.closeBracket.token]))
      (Form.index e e').bare := by
  intro hp
  simp only [Form.bare, Expr.every, Form.every, Bool.and_eq_true] at hp
  simp [Form.bare, Form.tokens, e.normalize_tokens, e'.normalize_tokens, hv hp.2.1, hi hp.2.2]

theorem member (x : String) (h : Keeps ts e) :
    Keeps (ts ++ [Mark.dot.token, .bare .name x]) (Form.member e x).bare := by
  intro hp
  simp only [Form.bare, Expr.every, Form.every, Bool.and_eq_true] at hp
  simp [Form.bare, Form.tokens, e.normalize_tokens, h hp.2]

theorem group (h : Keeps ts e) :
    Keeps (Mark.openParen.token :: (ts ++ [Mark.closeParen.token])) e.group := by
  intro hp
  obtain ⟨form, grouped⟩ := e
  have := h hp
  simp [Expr.group, this, Mark.normal]

theorem list {es : List Expr}
    (h : everyAll Expr.isPlain es = true → normalize ts = normalize (tokensAll .keyed es)) :
    Keeps (Mark.openBracket.token :: (ts ++ [Mark.closeBracket.token])) (Form.list es).bare := by
  intro hp
  simp only [Form.bare, Expr.every, Form.every, Bool.and_eq_true] at hp
  simp [Form.bare, Form.tokens, h hp.2]

theorem string {lexeme : String} (h : (Token.bare .string lexeme).Lexical) :
    Keeps [.bare .string lexeme] (Form.string (Expr.unquote lexeme)).bare := by
  intro _
  obtain ⟨content, -, heq⟩ := h
  change lexeme.toList = _ at heq
  have hquoted : "\"" ++ Expr.unquote lexeme ++ "\"" = lexeme := by
    apply String.toList_injective
    rw [Expr.unquote_quoted heq]
    exact (by simp : _ = '"' :: content ++ ['"']).trans heq.symm
  rw [Form.bare, Form.tokens, hquoted]

theorem word (x : String) : Keeps [.bare .name x] (Expr.ofWord x) := by
  intro _
  unfold Expr.ofWord
  split
  · rename_i hx
    rw [hx]
    rfl
  · split
    · rename_i hx
      rw [hx]
      rfl
    · rfl

end Expr.Keeps

namespace Block.Keeps

variable {ts us vs : List Token} {c e : Expr} {body other : Block}

theorem expr (he : e.Formed) (h : Expr.Keeps ts e) : Keeps ts [.expr e] := by
  intro hp level
  simp only [everyStmt, Stmt.every, Stmt.isPlain, Bool.and_true] at hp
  rw [h hp, ← (he.normalize_seen hp).statement]
  simp [itemsAll, Stmt.items, kept, partsOf, Item.parts]

/-- A conditional, given what is kept of what follows its body. -/
theorem cond (hf : c.Formed) (hc : Expr.Keeps ts c) (hb : Keeps us body) {otherwise : Option Block}
    (ho : everyElse Stmt.isPlain otherwise = true →
      ∀ level, normalize vs = kept (itemsElse level otherwise)) :
    Keeps (Keyword.ifWord.token :: Mark.openParen.token ::
      (ts ++ Mark.closeParen.token :: (us ++ vs))) [.cond c body otherwise] := by
  intro hp level
  simp only [everyStmt, Stmt.every, Stmt.isPlain, Bool.and_true, Bool.and_eq_true] at hp
  have hif : Keyword.ifWord.token.normal = [Keyword.ifWord.token] := rfl
  simp [itemsAll, Stmt.items, kept_head, kept_append, kept_hangItems, hif, Mark.normal,
    (hf.normalize_seen hp.1.1).operand, hc hp.1.1, ← hb hp.1.2, ← ho hp.2]

theorem next {s : Stmt} (hs : Keeps ts [s]) (h : Keeps us body) : Keeps (ts ++ us) (s :: body) := by
  intro hp level
  simp only [everyStmt, Bool.and_eq_true] at hp
  have hfirst := hs (by simp [everyStmt, hp.1]) level
  rw [normalize_append, hfirst, h hp.2 level]
  simp [itemsAll]

end Block.Keeps

/-- The tokens are those of what a phrase of the category stands for. -/
def Category.Keeps (ts : List Token) : (c : Category) → c.Meaning → Prop
  | .expression, e => Expr.Keeps ts e
  | .binary, e => Expr.Keeps ts e
  | .factor, e => Expr.Keeps ts e
  | .unary, e => Expr.Keeps ts e
  | .applied, e => Expr.Keeps ts e
  | .primary, e => Expr.Keeps ts e
  | .arguments, es =>
    everyAll Expr.isPlain es = true → normalize ts = normalize (tokensAll .keyed es)
  | .items, es => everyAll Expr.isPlain es = true → normalize ts = normalize (tokensAll .keyed es)
  | .entries, _ | .entry, _ | .key, _ => True
  | .statement, s => Block.Keeps ts [s]
  | .block, b => Block.Keeps ts b
  | .statements, b => Block.Keeps ts b

namespace Phrase

/-- Every phrase has the tokens of what it stands for. -/
theorem keeps : ∀ {c : Category} (p : Phrase c), (∀ t ∈ p.tokens, t.Lexical) →
    c.Keeps p.tokens p.meaning
  | _, assign x v, h => (keeps v fun t ht => h t (by simp [ht])).assign x
  | _, plain e, h => keeps e h
  | _, sum l op r, h =>
    (keeps l fun t ht => h t (by simp [ht])).binary op (keeps r fun t ht => h t (by simp [ht]))
  | _, ofFactor e, h => keeps e h
  | _, product l op r, h =>
    (keeps l fun t ht => h t (by simp [ht])).binary op (keeps r fun t ht => h t (by simp [ht]))
  | _, ofUnary e, h => keeps e h
  | _, signed op e, h => (keeps e fun t ht => h t (by simp [ht])).unary op
  | _, ofApplied e, h => keeps e h
  | _, call c args, h =>
    (keeps c fun t ht => h t (by simp [ht])).call (keeps args fun t ht => h t (by simp [ht]))
  | _, index v i, h =>
    (keeps v fun t ht => h t (by simp [ht])).index (keeps i fun t ht => h t (by simp [ht]))
  | _, member v x, h => (keeps v fun t ht => h t (by simp [ht])).member x
  | _, ofPrimary e, h => keeps e h
  | _, number _, _ => fun _ => rfl
  | _, string lexeme, h => .string (h (.bare .string lexeme) (by simp))
  | _, word x, _ => .word x
  | _, group e, h => (keeps e fun t ht => h t (by simp [ht])).group
  | _, list es, h => .list (keeps es fun t ht => h t (by simp [ht]))
  | _, dict _, _ => fun hp => absurd hp (by simp [Form.bare, Expr.every, Expr.isPlain, Form.isDict])
  | _, noItems, _ => fun _ => rfl
  | _, someItems es, h => keeps es h
  | _, lastItem e, h => by
    intro hp
    simp only [meaning, everyAll, Bool.and_true] at hp
    rw [tokens, meaning, tokensAll, keeps e h hp, Expr.normalize_tokens]
  | _, nextItem e es, h => by
    intro hp
    simp only [meaning, everyAll, Bool.and_eq_true] at hp
    have hne : es.meaning ≠ [] := by
      cases es with
      | lastItem | nextItem => simp
    rw [tokens, meaning, tokensAll_cons e.meaning hne, normalize_append, normalize_append,
      normalize_cons, normalize_cons, Expr.normalize_tokens]
    rw [keeps e (fun t ht => h t (by simp [ht])) hp.1,
      keeps es (fun t ht => h t (by simp [ht])) hp.2]
  | .entries, _, _ | .entry, _, _ | .key, _, _ => trivial
  | _, cond c body, h => by
    have hc := keeps c fun t ht => h t (by simp [ht])
    have hb := keeps body fun t ht => h t (by simp [ht])
    have hf := formed_meaning c fun t ht => h t (by simp [ht])
    have hnone : everyElse Stmt.isPlain none = true →
      ∀ level, normalize [] = kept (itemsElse level none) := fun _ _ => rfl
    have := Block.Keeps.cond hf hc hb hnone
    rwa [List.append_nil] at this
  | _, condElse c body other, h => by
    have hc := keeps c fun t ht => h t (by simp [ht])
    have hb := keeps body fun t ht => h t (by simp [ht])
    have ho := keeps other fun t ht => h t (by simp [ht])
    have hf := formed_meaning c fun t ht => h t (by simp [ht])
    exact Block.Keeps.cond hf hc hb fun hp level => (kept_else (ho hp) level).symm
  | _, comment _, _ => fun hp => absurd hp (by simp [everyStmt, Stmt.every, Stmt.isPlain])
  | _, expr e, h => .expr (formed_meaning e h) (keeps e h)
  | _, braces ss, h => by
    have hss := keeps ss fun t ht => h t (by simp [ht])
    intro hp level
    rw [tokens, meaning, ← hss hp level]
    simp [Mark.normal]
  | _, single s, h => keeps s h
  | _, noStatements, _ => fun _ _ => rfl
  | _, nextStatement s ss, h =>
    (keeps s fun t ht => h t (by simp [ht])).next (keeps ss fun t ht => h t (by simp [ht]))

end Phrase

/-- The rendering of a program that has no comments and no dictionaries can be scanned, and gives
the tokens of the program up to their spelling, each of them once and in order. -/
theorem normalize_scan_convert {source : String} {b : Block} (h : Block.parse source = .ok b)
    (hp : ∀ s ∈ b, s.every Stmt.isPlain = true) :
    ∃ text ts us, convert source = .ok text ∧ Token.scan source = .ok ts ∧
      Token.scan text = .ok us ∧ normalize us = normalize ts := by
  obtain ⟨ts, hscan, hl, p, hacc, rfl⟩ := Block.exists_phrase_of_parse h
  have hlexical := hacc.lexical hl
  have hsilent : ∀ s ∈ p.meaning, Stmt.Silent s := fun s hs =>
    (p.formed_meaning hlexical s hs).silent (fun _ => rfl) (hp s hs)
  obtain ⟨us, hus, hseen⟩ := Block.scan_renderProgram hsilent
  refine ⟨_, ts, us, by rw [convert, h]; rfl, hscan, hus, ?_⟩
  calc normalize us = kept (stackItems 0 (itemsAll 0 p.meaning)) := by
        rw [← normalize_unplaced, hseen, Block.seen_items, kept]
    _ = (itemsAll 0 p.meaning).flatMap kept := kept_stackItems 0 _
    _ = normalize p.tokens := (p.keeps hlexical ((everyStmt_iff _).2 hp) 0).symm
    _ = normalize ts := by rw [hacc.tokens, normalize_unplaced]

/-- The text `if(a&&!b)x=T else if(c)y(z=1)`: its rendering has words for the operators, a chain,
another spelling of `T`, and an assignment inside of a call. -/
theorem normalize_scan_convert_chain :
    ∃ b : Block, Block.parse "if(a&&!b)x=T else if(c)y(z=1)" = .ok b ∧
      (∀ s ∈ b, s.every Stmt.isPlain = true) ∧
      Block.renderProgram .standard b = "if a and not b: x = True\nelif c: y((z := 1))" ∧
      ∃ text ts us, convert "if(a&&!b)x=T else if(c)y(z=1)" = .ok text ∧
        Token.scan "if(a&&!b)x=T else if(c)y(z=1)" = .ok ts ∧ Token.scan text = .ok us ∧
        normalize us = normalize ts := by
  have hscan : Token.scan "if(a&&!b)x=T else if(c)y(z=1)" = .ok
      [⟨.keyword .ifWord, "if", some ⟨0, 0⟩⟩, ⟨.mark .openParen, "(", some ⟨0, 2⟩⟩,
        ⟨.name, "a", some ⟨0, 3⟩⟩, ⟨.mark .and, "&&", some ⟨0, 4⟩⟩,
        ⟨.mark .exclamation, "!", some ⟨0, 6⟩⟩, ⟨.name, "b", some ⟨0, 7⟩⟩,
        ⟨.mark .closeParen, ")", some ⟨0, 8⟩⟩, ⟨.name, "x", some ⟨0, 9⟩⟩,
        ⟨.mark .equal, "=", some ⟨0, 10⟩⟩, ⟨.name, "T", some ⟨0, 11⟩⟩,
        ⟨.keyword .elseWord, "else", some ⟨0, 13⟩⟩, ⟨.keyword .ifWord, "if", some ⟨0, 18⟩⟩,
        ⟨.mark .openParen, "(", some ⟨0, 20⟩⟩, ⟨.name, "c", some ⟨0, 21⟩⟩,
        ⟨.mark .closeParen, ")", some ⟨0, 22⟩⟩, ⟨.name, "y", some ⟨0, 23⟩⟩,
        ⟨.mark .openParen, "(", some ⟨0, 24⟩⟩, ⟨.name, "z", some ⟨0, 25⟩⟩,
        ⟨.mark .equal, "=", some ⟨0, 26⟩⟩, ⟨.number, "1", some ⟨0, 27⟩⟩,
        ⟨.mark .closeParen, ")", some ⟨0, 28⟩⟩] := rfl
  let a : Phrase .unary := .ofApplied (.ofPrimary (.word "a"))
  let notB : Phrase .unary := .signed .not (.ofApplied (.ofPrimary (.word "b")))
  let both : Phrase .expression :=
    .plain (.sum (.ofFactor (.ofUnary a)) ⟨.and, rfl⟩ (.ofUnary notB))
  let first : Phrase .statement := .expr (.assign ⟨"x", by decide⟩ (.ident "T"))
  let arg : Phrase .expression := .assign ⟨"z", by decide⟩ (.term (.ofPrimary (.number "1")))
  let second : Phrase .statement :=
    .expr (.term (.call (.ofPrimary (.word "y")) (.someItems (.lastItem arg))))
  let p : Phrase .statements := .nextStatement
    (.condElse both (.single first) (.single (.cond (.ident "c") (.single second)))) .noStatements
  have hparse := Block.parse_of_phrase hscan (p := p)
    ⟨⟨⟨⟨Token.ends_cons.2 rfl, trivial⟩, Token.ends_cons.2 rfl, Token.ends_cons.2 rfl, trivial⟩,
      trivial⟩, ⟨⟨trivial, rfl, trivial⟩, fun _ => Token.ends_nil _, trivial⟩, rfl, by decide⟩
  have hplain : ∀ s ∈ p.meaning, Stmt.every Stmt.isPlain s = true := by decide
  exact ⟨p.meaning, hparse, hplain, rfl, normalize_scan_convert hparse hplain⟩

end Offside
