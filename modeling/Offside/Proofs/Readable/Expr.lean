import Offside.Proofs.Phrase

/-!
# Every phrase is read as what it stands for

If no more levels are opened than are left, and what follows cannot be taken for a part of it, a
phrase is read whole and as its meaning: `reads` says so for each category. The rules for chains of
operators and for calls, indices and members collect what follows the first operand, so for these
categories the statement is about a phrase and the chain that is read behind it.

So two phrases with the same tokens mean the same (`tokens_unique`).
-/

namespace Offside

open Token (Ends)

theorem Token.ends_nil (p : Kind → Bool) : Ends p [] := by simp [Ends]

theorem Token.ends_cons {p : Kind → Bool} {t : Token} {ts : List Token} :
    Ends p (t :: ts) ↔ p t.kind = false := by simp [Ends]

theorem Token.Ends.mono {p q : Kind → Bool} {ts : List Token} (h : Ends q ts)
    (hpq : ∀ k, p k = true → q k = true) : Ends p ts := by
  intro t ht
  have := h t ht
  cases hp : p t.kind with
  | false => rfl
  | true => rw [hpq _ hp] at this; exact this

theorem Kind.multiplies_of_applies {k : Kind} (h : k.applies = true) : k.multiplies = true := by
  simp [multiplies, h]

theorem Kind.operates_of_multiplies {k : Kind} (h : k.multiplies = true) : k.operates = true := by
  simp only [multiplies, Bool.or_eq_true] at h
  simp only [operates, Bool.or_eq_true]
  rcases h with h | h
  · exact Or.inl h
  · cases hb : Grammar.binaryOp? (some k) with
    | none => simp [hb] at h
    | some op => simp

theorem Kind.continues_of_operates {k : Kind} (h : k.operates = true) : k.continues = true := by
  simp [continues, h]

theorem Token.Ends.operates {ts : List Token} (h : Ends Kind.continues ts) :
    Ends Kind.operates ts :=
  h.mono fun _ => Kind.continues_of_operates

theorem Token.Ends.multiplies {ts : List Token} (h : Ends Kind.operates ts) :
    Ends Kind.multiplies ts := h.mono fun _ => Kind.operates_of_multiplies

theorem Token.Ends.applies {ts : List Token} (h : Ends Kind.multiplies ts) : Ends Kind.applies ts :=
  h.mono fun _ => Kind.multiplies_of_applies

namespace Rule

variable {α β : Type}

theorem bind_eq_done {r : Rule α} {f : α → Rule β} {ts rest : List Token} {b : β} :
    (r >>= f) ts = .done b rest ↔ ∃ a mid, r ts = .done a mid ∧ f a mid = .done b rest := by
  constructor
  · intro h
    rw [bind_apply] at h
    cases hr : r ts with
    | halted e => simp [hr] at h
    | done a mid => rw [hr] at h; exact ⟨a, mid, rfl, h⟩
  · rintro ⟨a, mid, hr, hf⟩
    rw [bind_of_done f hr, hf]

theorem bind_pending (f : List Token → Rule β) (ts : List Token) : (pending >>= f) ts = f ts ts :=
  rfl

theorem bind_take (f : Token → Rule β) (t : Token) (ts : List Token) :
    (take >>= f) (t :: ts) = f t ts := rfl

theorem expect_token (m : Mark) (ts : List Token) : expect m (m.token :: ts) = .done () ts := by
  simp [expect, Mark.kind_token]

theorem nextIs_cons (k : Kind) (t : Token) (ts : List Token) :
    nextIs k (t :: ts) = .done (t.kind == k) (t :: ts) := by
  simp [nextIs]

theorem accept_mark (m : Mark) (ts : List Token) :
    accept (.mark m) (m.token :: ts) = .done true ts := by
  simp [accept, Mark.kind_token]

theorem accept_of_ends {k : Kind} {ts : List Token} (h : Ends (· == k) ts) :
    accept k ts = .done false ts := by
  cases ts with
  | nil => rfl
  | cons t ts =>
    rw [Token.ends_cons, beq_eq_false_iff_ne] at h
    simp [accept, h]

theorem many_of_none {item : Rule (Option α)} {record : α → Block} {ts rest : List Token}
    (h : item ts = .done none rest) : many item record ts = .done [] rest := by
  simp only [many, upTo, bind_apply, h]
  rfl

theorem many_of_some {item : Rule (Option α)} {record : α → Block} (hi : TakesIf (·.isSome) item)
    {ts mid rest : List Token} {a : α} {as : List α} (h : item ts = .done (some a) mid)
    (hm : many item record mid = .done as rest) :
    many item record ts = .done (a :: as) rest := by
  rw [many_eq hi, bind_of_done _ h]
  simp only [bind_apply, recording, hm]
  rfl

end Rule

/-! ## The first token of a phrase -/

/-- The phrases of the category are expressions, or start with one. -/
def Category.isTerm : Category → Bool
  | .expression | .binary | .factor | .unary | .applied | .primary => true
  | .items | .entry | .key => true
  | _ => false

namespace Phrase

theorem opens_tokens_primary :
    ∀ p : Phrase .primary, ∃ t ts, p.tokens = t :: ts ∧ t.kind.opens = true
  | number _ => ⟨_, _, rfl, rfl⟩
  | string _ => ⟨_, _, rfl, rfl⟩
  | word _ => ⟨_, _, rfl, rfl⟩
  | group _ => ⟨_, _, rfl, rfl⟩
  | list _ => ⟨_, _, rfl, rfl⟩
  | dict _ => ⟨_, _, rfl, rfl⟩

theorem opens_tokens_applied :
    ∀ p : Phrase .applied, ∃ t ts, p.tokens = t :: ts ∧ t.kind.opens = true
  | call callee args => by
    obtain ⟨t, ts, h, ht⟩ := opens_tokens_applied callee
    exact ⟨t, _, by rw [tokens, h, List.cons_append], ht⟩
  | index value i => by
    obtain ⟨t, ts, h, ht⟩ := opens_tokens_applied value
    exact ⟨t, _, by rw [tokens, h, List.cons_append], ht⟩
  | member value x => by
    obtain ⟨t, ts, h, ht⟩ := opens_tokens_applied value
    exact ⟨t, _, by rw [tokens, h, List.cons_append], ht⟩
  | ofPrimary e => opens_tokens_primary e

theorem starts_of_opens {k : Kind} (h : k.opens = true) : k.starts = true := by
  simp [Kind.starts, h]

theorem starts_unaryOp (op : UnaryOp) : (Kind.mark op.mark).starts = true := by
  cases op <;> decide

theorem starts_tokens : ∀ {c : Category} (p : Phrase c), c.isTerm = true →
    ∃ t ts, p.tokens = t :: ts ∧ t.kind.starts = true
  | _, assign _ _, _ => ⟨_, _, rfl, rfl⟩
  | _, plain e, _ => starts_tokens e rfl
  | _, sum left _ _, _ => by
    obtain ⟨t, ts, h, ht⟩ := starts_tokens left rfl
    exact ⟨t, _, by rw [tokens, h, List.cons_append], ht⟩
  | _, ofFactor e, _ => starts_tokens e rfl
  | _, product left _ _, _ => by
    obtain ⟨t, ts, h, ht⟩ := starts_tokens left rfl
    exact ⟨t, _, by rw [tokens, h, List.cons_append], ht⟩
  | _, ofUnary e, _ => starts_tokens e rfl
  | _, signed op _, _ => ⟨_, _, rfl, starts_unaryOp op⟩
  | .unary, ofApplied e, _ => by
    obtain ⟨t, ts, h, ht⟩ := opens_tokens_applied e
    exact ⟨t, ts, h, starts_of_opens ht⟩
  | .applied, p, _ => by
    obtain ⟨t, ts, h, ht⟩ := opens_tokens_applied p
    exact ⟨t, ts, h, starts_of_opens ht⟩
  | .primary, p, _ => by
    obtain ⟨t, ts, h, ht⟩ := opens_tokens_primary p
    exact ⟨t, ts, h, starts_of_opens ht⟩
  | _, lastItem e, _ => starts_tokens e rfl
  | _, nextItem e _, _ => by
    obtain ⟨t, ts, h, ht⟩ := starts_tokens e rfl
    exact ⟨t, _, by rw [tokens, h, List.cons_append], ht⟩
  | _, alone key, _ => starts_tokens key rfl
  | _, colon key _, _ => by
    obtain ⟨t, ts, h, ht⟩ := starts_tokens key rfl
    exact ⟨t, _, by rw [tokens, h, List.cons_append], ht⟩
  | _, walrus key _, _ => by
    obtain ⟨t, ts, h, ht⟩ := starts_tokens key rfl
    exact ⟨t, _, by rw [tokens, h, List.cons_append], ht⟩
  | _, nameKey _, _ => ⟨_, _, rfl, rfl⟩
  | _, groupKey _, _ => ⟨_, _, rfl, rfl⟩

theorem begins_tokens : ∀ p : Phrase .statement, ∃ t ts, p.tokens = t :: ts ∧ t.kind.begins = true
  | cond _ _ => ⟨_, _, rfl, rfl⟩
  | condElse _ _ _ => ⟨_, _, rfl, rfl⟩
  | comment _ => ⟨_, _, rfl, rfl⟩
  | expr e => by
    obtain ⟨t, ts, h, ht⟩ := starts_tokens e rfl
    exact ⟨t, ts, h, by simp [Kind.begins, ht]⟩

end Phrase

/-! ## The rules on given tokens -/

namespace Grammar

open Rule

theorem binaryOp?_token (op : BinaryOp) : binaryOp? (some op.mark.token.kind) = some op := by
  simp [binaryOp?, Mark.kind_token, BinaryOp.ofMark?_mark]

theorem unaryOp?_token (op : UnaryOp) : unaryOp? (some op.mark.token.kind) = some op := by
  simp [unaryOp?, Mark.kind_token, UnaryOp.ofMark?_mark]

theorem applies_op (op : BinaryOp) : (Kind.mark op.mark).applies = false := by
  cases op <;> rfl

/-- A factor goes on with the tighter operators only. -/
theorem multiplies_mark_iff {op : BinaryOp} :
    (Kind.mark op.mark).multiplies = false ↔ op.tier = 1 := by
  cases op <;> decide

theorem operation_of_none {accepted : BinaryOp → Bool} {operand : Rule Expr} {ts : List Token}
    (h : (binaryOp? (ts.head?.map Token.kind)).filter accepted = none) :
    operation accepted operand ts = .done none ts := by
  simp only [operation, peek, bind_apply, h]
  rfl

theorem operation_of_operand (accepted : BinaryOp → Bool) (op : BinaryOp) {operand : Rule Expr}
    (ha : accepted op = true) {ts rest : List Token} {e : Expr} (h : operand ts = .done e rest) :
    operation accepted operand (op.mark.token :: ts) = .done (some (op, e)) rest := by
  simp only [operation, peek, bind_apply, List.head?_cons, Option.map_some, binaryOp?_token,
    Option.filter, ha, ↓reduceIte, take, h]
  rfl

/-- A chain ends before a token that is none of its operators. -/
theorem many_operation_nil {accepted : BinaryOp → Bool} {operand : Rule Expr} {ts : List Token}
    (h : Ends (fun k => (binaryOp? (some k)).any accepted) ts) :
    many (operation accepted operand) (fun _ => []) ts = .done [] ts := by
  refine many_of_none (operation_of_none ?_)
  cases ts with
  | nil => rfl
  | cons t ts =>
    rw [Token.ends_cons] at h
    simp only [List.head?_cons, Option.map_some]
    cases hb : binaryOp? (some t.kind) with
    | none => rfl
    | some op =>
      rw [hb, Option.any_some] at h
      simp [Option.filter, h]

theorem suffix_of_ends {inner : Inner} {ts : List Token} (h : Ends Kind.applies ts) :
    suffix inner ts = .done none ts := by
  cases ts with
  | nil => rfl
  | cons t ts =>
    rw [Token.ends_cons] at h
    simp only [suffix, peek, bind_apply, List.head?_cons, Option.map_some]
    generalize hk : some t.kind = k
    split
    · simp only [Option.some.injEq] at hk
      rw [hk] at h
      exact absurd h (by decide)
    · simp only [Option.some.injEq] at hk
      rw [hk] at h
      exact absurd h (by decide)
    · simp only [Option.some.injEq] at hk
      rw [hk] at h
      exact absurd h (by decide)
    · rfl

section Inner

variable {n : Nat} {ts mid rest : List Token}

/-- The first operand of a chain, when no operator follows. -/
theorem factor_of_unary {e : Expr} (h : unary (inner n) ts = .done e rest)
    (hr : Ends Kind.multiplies rest) : factor (inner n) ts = .done e rest := by
  have hm : many (operation BinaryOp.isMultiplicative (unary (inner n))) (fun _ => []) rest
      = .done [] rest :=
    many_operation_nil (hr.mono fun k hk => by simp [Kind.multiplies, hk])
  rw [factor, bind_of_done _ h, bind_of_done _ hm]
  rfl

theorem binary_of_factor {e : Expr} (h : factor (inner n) ts = .done e rest)
    (hr : Ends Kind.operates rest) : binary (inner n) ts = .done e rest := by
  have hm : many (operation (fun _ => true) (factor (inner n))) (fun _ => []) rest
      = .done [] rest := by
    refine many_operation_nil (hr.mono fun k hk => ?_)
    cases hb : binaryOp? (some k) with
    | none => simp [hb] at hk
    | some op => simp [Kind.operates, hb]
  rw [binary, bind_of_done _ h, bind_of_done _ hm]
  rfl

theorem unary_of_applied {e : Expr} (h : applied (inner n) ts = .done e rest)
    (ho : ∀ t ∈ ts.head?, t.kind.opens = true) : unary (inner n) ts = .done e rest := by
  have hu : unaryOp? (ts.head?.map Token.kind) = none := by
    cases ts with
    | nil => rfl
    | cons t ts =>
      have := ho t rfl
      simp only [List.head?_cons, Option.map_some, unaryOp?]
      split
      · rename_i m hm
        simp only [Option.some.injEq] at hm
        rw [hm] at this
        cases m <;> first | rfl | exact absurd this (by decide)
      · rfl
  simp only [unary, peek, bind_apply, hu, h]

theorem applied_of_primary {e : Expr} (h : primary (inner n) ts = .done e rest)
    (hr : Ends Kind.applies rest) : applied (inner n) ts = .done e rest := by
  have hm : many (suffix (inner n)) (fun _ => []) rest = .done [] rest :=
    many_of_none (suffix_of_ends hr)
  rw [applied, bind_of_done _ h, bind_of_done _ hm]
  rfl

/-- A name and an assignment sign make an assignment. -/
theorem binary_of_name (x : Target) (ts : List Token) :
    binary (inner n) (.bare .name x :: Mark.equal.token :: ts)
      = .done (Form.name x).bare (Mark.equal.token :: ts) := by
  have hp : primary (inner n) (.bare .name x :: Mark.equal.token :: ts)
      = .done (Expr.ofWord x) (Mark.equal.token :: ts) := rfl
  have hw : Expr.ofWord x = (Form.name x).bare := by
    simp [Expr.ofWord, x.2.1, x.2.2]
  rw [hw] at hp
  have ha := applied_of_primary hp (Token.ends_cons.2 rfl)
  have hu := unary_of_applied ha (by simp [Token.bare, Kind.opens])
  exact binary_of_factor (factor_of_unary hu (Token.ends_cons.2 rfl)) (Token.ends_cons.2 rfl)

end Inner

/-! ## Expressions -/

/-- The phrase is read, `n` levels of nesting being left, as what it stands for. -/
def Reads : {c : Category} → Phrase c → Prop
  | .expression, p => ∀ n rest, p.depth ≤ n → Ends Kind.continues rest →
      expression n (p.tokens ++ rest) = .done p.meaning rest
  | .binary, p => ∀ n rest tail rest', p.depth ≤ n → Ends Kind.multiplies rest →
      many (operation (fun _ => true) (factor (inner n))) (fun _ => []) rest = .done tail rest' →
      binary (inner n) (p.tokens ++ rest) = .done (Expr.chain p.meaning tail) rest'
  | .factor, p => ∀ n rest tail rest', p.depth ≤ n → Ends Kind.applies rest →
      many (operation BinaryOp.isMultiplicative (unary (inner n))) (fun _ => []) rest
        = .done tail rest' →
      factor (inner n) (p.tokens ++ rest) = .done (Expr.chain p.meaning tail) rest'
  | .unary, p => ∀ n rest, p.depth ≤ n → Ends Kind.applies rest →
      unary (inner n) (p.tokens ++ rest) = .done p.meaning rest
  | .applied, p => ∀ n rest suffixes rest', p.depth ≤ n →
      many (suffix (inner n)) (fun _ => []) rest = .done suffixes rest' →
      applied (inner n) (p.tokens ++ rest) = .done (Expr.attach p.meaning suffixes) rest'
  | .primary, p => ∀ n rest, p.depth ≤ n →
      primary (inner n) (p.tokens ++ rest) = .done p.meaning rest
  | .arguments, p => ∀ (n : Nat) (close : Mark) (rest : List Token), p.depth ≤ n →
      close = .closeParen ∨ close = .closeBracket →
      items (inner n) close (p.tokens ++ close.token :: rest)
        = .done p.meaning (close.token :: rest)
  | .items, p => ∀ (n : Nat) (close : Mark) (rest : List Token), p.depth ≤ n →
      close = .closeParen ∨ close = .closeBracket →
      (do let e ← expression n; let es ← many (nextItem (inner n)); return e :: es : Rule _)
        (p.tokens ++ close.token :: rest) = .done p.meaning (close.token :: rest)
  | .entries, p => ∀ n rest, p.depth ≤ n →
      many (entry (inner n)) (fun _ => []) (p.tokens ++ Mark.closeBrace.token :: rest)
        = .done p.meaning (Mark.closeBrace.token :: rest)
  | .entry, p => ∀ n rest, p.depth ≤ n →
      entry (inner n) (p.tokens ++ Mark.comma.token :: rest) = .done (some p.meaning) rest ∧
      entry (inner n) (p.tokens ++ Mark.closeBrace.token :: rest)
        = .done (some p.meaning) (Mark.closeBrace.token :: rest)
  | .key, p => (∃ x, Expr.name? p.meaning = some x) ∧
      ∀ n rest, p.depth ≤ n → Ends Kind.continues rest →
        expression n (p.tokens ++ rest) = .done p.meaning rest
  | .statement, _ => True
  | .block, _ => True
  | .statements, _ => True

section Steps

variable {n : Nat} {rest : List Token}

theorem expression_of_binary {ts : List Token} {e : Expr} (h : binary (inner n) ts = .done e rest)
    (hr : Ends Kind.continues rest) : expression (n + 1) ts = .done e rest := by
  have hn : nextIs (.mark .equal) rest = .done false rest := by
    cases rest with
    | nil => rfl
    | cons t ts =>
      rw [Token.ends_cons, Kind.continues, Bool.or_eq_false_iff] at hr
      rw [nextIs_cons, hr.2]
  change assignment (inner n) ts = _
  rw [assignment, bind_pending, bind_of_done _ h, bind_of_done _ hn]
  rfl

theorem reads_assign (x : Target) {value : Phrase .expression} (h : Reads value) :
    Reads (.assign x value) := by
  intro n rest hd hr
  obtain ⟨m, rfl⟩ : ∃ m, n = m + 1 := ⟨n - 1, by simp only [Phrase.depth] at hd; omega⟩
  have hv := h m rest (by simp only [Phrase.depth] at hd; omega) hr
  change assignment (inner m) (.bare .name x :: Mark.equal.token :: (value.tokens ++ rest)) = _
  rw [assignment, bind_pending, bind_of_done _ (binary_of_name x _),
    bind_of_done _ (nextIs_cons _ _ _)]
  change (do
    let _ ← take
    let v ← (inner m).expression
    return (Form.assign x v).bare : Rule _) _ = _
  rw [bind_take]
  exact bind_of_done _ hv

theorem reads_plain {e : Phrase .binary} (h : Reads e) : Reads (.plain e) := by
  intro n rest hd hr
  obtain ⟨m, rfl⟩ : ∃ m, n = m + 1 := ⟨n - 1, by simp only [Phrase.depth] at hd; omega⟩
  refine expression_of_binary ?_ hr
  refine h m rest [] rest (by simp only [Phrase.depth] at hd; omega) hr.operates.multiplies ?_
  refine many_operation_nil (hr.operates.mono fun k hk => ?_)
  cases hb : binaryOp? (some k) with
  | none => simp [hb] at hk
  | some op => simp [Kind.operates, hb]

theorem reads_sum {left : Phrase .binary} (op : LooseOp) {right : Phrase .factor} (hl : Reads left)
    (hr : Reads right) : Reads (.sum left op right) := by
  intro n rest tail rest' hd he ht
  simp only [Phrase.depth, Nat.max_le] at hd
  have hright : factor (inner n) (right.tokens ++ rest) = .done right.meaning rest :=
    hr n rest [] rest hd.2 he.applies (many_operation_nil (he.mono fun k hk => by
      simp [Kind.multiplies, hk]))
  have hop := operation_of_operand (fun _ => true) op.1 rfl hright
  have := hl n _ _ rest' hd.1 (Token.ends_cons.2 (multiplies_mark_iff.2 op.2))
    (many_of_some (takesIf_operation _ (keeps_factor (innerOK n))) hop ht)
  rw [Phrase.tokens, List.append_assoc, List.cons_append]
  exact this

theorem reads_ofFactor {e : Phrase .factor} (h : Reads e) : Reads (.ofFactor e) := by
  intro n rest tail rest' hd he ht
  have hf : factor (inner n) (e.tokens ++ rest) = .done e.meaning rest :=
    h n rest [] rest hd he.applies (many_operation_nil (he.mono fun k hk => by
      simp [Kind.multiplies, hk]))
  change binary (inner n) (e.tokens ++ rest) = _
  rw [binary, bind_of_done _ hf, bind_of_done _ ht]
  rfl

theorem reads_product {left : Phrase .factor} (op : TightOp) {right : Phrase .unary}
    (hl : Reads left) (hr : Reads right) : Reads (.product left op right) := by
  intro n rest tail rest' hd he ht
  simp only [Phrase.depth, Nat.max_le] at hd
  have hop := operation_of_operand BinaryOp.isMultiplicative op.1
    (BinaryOp.tier_eq_two_iff.1 op.2) (hr n rest hd.2 he)
  have := hl n _ _ rest' hd.1 (Token.ends_cons.2 (applies_op op))
    (many_of_some (takesIf_operation _ (keeps_unary (innerOK n))) hop ht)
  rw [Phrase.tokens, List.append_assoc, List.cons_append]
  exact this

theorem reads_ofUnary {e : Phrase .unary} (h : Reads e) : Reads (.ofUnary e) := by
  intro n rest tail rest' hd he ht
  change factor (inner n) (e.tokens ++ rest) = _
  rw [factor, bind_of_done _ (h n rest hd he), bind_of_done _ ht]
  rfl

theorem reads_signed (op : UnaryOp) {operand : Phrase .unary} (h : Reads operand) :
    Reads (.signed op operand) := by
  intro n rest hd he
  obtain ⟨m, rfl⟩ : ∃ m, n = m + 1 := ⟨n - 1, by simp only [Phrase.depth] at hd; omega⟩
  have ho : (inner (m + 1)).operand (operand.tokens ++ rest) = .done operand.meaning rest :=
    h m rest (by simp only [Phrase.depth] at hd; omega) he
  simp only [unary, peek, bind_apply, Phrase.tokens, List.cons_append, List.head?_cons,
    Option.map_some, unaryOp?_token, take, ho]
  rfl

theorem reads_ofApplied {e : Phrase .applied} (h : Reads e) : Reads (.ofApplied e) := by
  intro n rest hd he
  have ha := h n rest [] rest hd (many_of_none (suffix_of_ends he))
  refine unary_of_applied ha ?_
  obtain ⟨t, ts, ht, ho⟩ := e.opens_tokens_applied
  intro u hu
  rw [Phrase.tokens, ht] at hu
  simp only [List.cons_append, List.head?_cons, Option.mem_def, Option.some.injEq] at hu
  rw [← hu]
  exact ho

theorem takes_suffixes (n : Nat) : TakesIf (·.isSome) (suffix (inner n)) :=
  takesIf_suffix (innerOK n)

theorem reads_call {callee : Phrase .applied} {args : Phrase .arguments} (hc : Reads callee)
    (ha : Reads args) : Reads (.call callee args) := by
  intro n rest suffixes rest' hd hs
  simp only [Phrase.depth, Nat.max_le] at hd
  have hitems := ha n .closeParen rest hd.2 (Or.inl rfl)
  have hsuffix : suffix (inner n)
      (Mark.openParen.token :: (args.tokens ++ Mark.closeParen.token :: rest))
        = .done (some (.call args.meaning)) rest := by
    change (do
      let es ← items (inner n) .closeParen
      expect .closeParen
      return some (Suffix.call es) : Rule _) (args.tokens ++ Mark.closeParen.token :: rest) = _
    rw [bind_of_done _ hitems, bind_of_done _ (expect_token _ _)]
    rfl
  have := hc n _ _ rest' hd.1 (many_of_some (takes_suffixes n) hsuffix hs)
  simp only [Phrase.tokens, List.append_assoc, List.cons_append, List.nil_append]
  exact this

theorem reads_index {value : Phrase .applied} {i : Phrase .expression} (hv : Reads value)
    (hi : Reads i) : Reads (.index value i) := by
  intro n rest suffixes rest' hd hs
  simp only [Phrase.depth, Nat.max_le] at hd
  have hindex := hi n (Mark.closeBracket.token :: rest) hd.2 (Token.ends_cons.2 rfl)
  have hsuffix : suffix (inner n)
      (Mark.openBracket.token :: (i.tokens ++ Mark.closeBracket.token :: rest))
        = .done (some (.index i.meaning)) rest := by
    change (do
      let e ← expression n
      expect .closeBracket
      return some (Suffix.index e) : Rule _) (i.tokens ++ Mark.closeBracket.token :: rest) = _
    rw [bind_of_done _ hindex, bind_of_done _ (expect_token _ _)]
    rfl
  have := hv n _ _ rest' hd.1 (many_of_some (takes_suffixes n) hsuffix hs)
  simp only [Phrase.tokens, List.append_assoc, List.cons_append, List.nil_append]
  exact this

theorem reads_member {value : Phrase .applied} (x : String) (hv : Reads value) :
    Reads (.member value x) := by
  intro n rest suffixes rest' hd hs
  have hsuffix : suffix (inner n) (Mark.dot.token :: .bare .name x :: rest)
      = .done (some (.member x)) rest := rfl
  have := hv n _ _ rest' hd (many_of_some (takes_suffixes n) hsuffix hs)
  simp only [Phrase.tokens, List.append_assoc, List.cons_append, List.nil_append]
  exact this

theorem reads_ofPrimary {e : Phrase .primary} (h : Reads e) : Reads (.ofPrimary e) := by
  intro n rest suffixes rest' hd hs
  change applied (inner n) (e.tokens ++ rest) = _
  rw [applied, bind_of_done _ (h n rest hd), bind_of_done _ hs]
  rfl

theorem reads_group {e : Phrase .expression} (h : Reads e) : Reads (.group e) := by
  intro n rest hd
  have he := h n (Mark.closeParen.token :: rest) hd (Token.ends_cons.2 rfl)
  simp only [Phrase.tokens, List.cons_append, List.append_assoc, List.nil_append]
  change (do let e ← expression n; expect .closeParen; return e.group : Rule _)
    (e.tokens ++ Mark.closeParen.token :: rest) = _
  rw [bind_of_done _ he, bind_of_done _ (expect_token _ _)]
  rfl

theorem reads_list {elements : Phrase .arguments} (h : Reads elements) :
    Reads (.list elements) := by
  intro n rest hd
  have he := h n .closeBracket rest hd (Or.inr rfl)
  simp only [Phrase.tokens, List.cons_append, List.append_assoc, List.nil_append]
  change (do
    let es ← items (inner n) .closeBracket
    expect .closeBracket
    return (Form.list es).bare : Rule _) (elements.tokens ++ Mark.closeBracket.token :: rest) = _
  rw [bind_of_done _ he, bind_of_done _ (expect_token _ _)]
  rfl

theorem reads_dict {entries : Phrase .entries} (h : Reads entries) : Reads (.dict entries) := by
  intro n rest hd
  have he := h n rest hd
  simp only [Phrase.tokens, List.cons_append, List.append_assoc, List.nil_append]
  change (do
    let es ← many (entry (inner n))
    expect .closeBrace
    return (Form.dict es).bare : Rule _) (entries.tokens ++ Mark.closeBrace.token :: rest) = _
  rw [bind_of_done _ he, bind_of_done _ (expect_token _ _)]
  rfl

/-- No phrase for an expression starts with a closing mark. -/
theorem nextIs_of_starts {t : Token} (ht : t.kind.starts = true) {m : Mark}
    (hm : (Kind.mark m).starts = false) (ts : List Token) :
    nextIs (.mark m) (t :: ts) = .done false (t :: ts) := by
  rw [nextIs_cons]
  have : t.kind ≠ .mark m := by
    intro h
    rw [h, hm] at ht
    exact absurd ht (by decide)
  rw [beq_eq_false_iff_ne.2 this]

theorem starts_close {close : Mark} (h : close = .closeParen ∨ close = .closeBracket) :
    (Kind.mark close).starts = false := by
  rcases h with rfl | rfl <;> decide

theorem continues_close {close : Mark} (h : close = .closeParen ∨ close = .closeBracket) :
    (Kind.mark close).continues = false := by
  rcases h with rfl | rfl <;> decide

theorem reads_noItems : Reads .noItems := by
  intro n close rest hd hc
  have : nextIs (.mark close) (close.token :: rest) = .done true (close.token :: rest) := by
    rw [nextIs_cons, Mark.kind_token, beq_self_eq_true]
  change items (inner n) close (close.token :: rest) = _
  rw [items, bind_of_done _ this]
  rfl

theorem reads_someItems {es : Phrase .items} (h : Reads es) : Reads (.someItems es) := by
  intro n close rest hd hc
  have he := h n close rest hd hc
  obtain ⟨t, ts, hts, hst⟩ := es.starts_tokens rfl
  change items (inner n) close (es.tokens ++ close.token :: rest) = _
  rw [hts, List.cons_append] at he ⊢
  rw [items, bind_of_done _ (nextIs_of_starts hst (starts_close hc) _)]
  exact he

/-- The items behind a first one end before a closing mark. -/
theorem nextItem_of_close {close : Mark} (hc : close = .closeParen ∨ close = .closeBracket)
    (rest : List Token) :
    nextItem (inner n) (close.token :: rest) = .done none (close.token :: rest) := by
  have : accept (.mark .comma) (close.token :: rest) = .done false (close.token :: rest) := by
    refine accept_of_ends (Token.ends_cons.2 ?_)
    rcases hc with rfl | rfl <;> decide
  rw [nextItem, bind_of_done _ this]
  rfl

theorem reads_lastItem {e : Phrase .expression} (h : Reads e) : Reads (.lastItem e) := by
  intro n close rest hd hc
  have he := h n (close.token :: rest) hd (Token.ends_cons.2 (continues_close hc))
  rw [Phrase.tokens, bind_of_done _ he]
  rw [bind_of_done _ (many_of_none (nextItem_of_close hc rest))]
  rfl

theorem reads_nextItem {e : Phrase .expression} {es : Phrase .items} (h : Reads e)
    (hs : Reads es) : Reads (.nextItem e es) := by
  intro n close rest hd hc
  simp only [Phrase.depth, Nat.max_le] at hd
  have he := h n (Mark.comma.token :: (es.tokens ++ close.token :: rest)) hd.1
    (Token.ends_cons.2 rfl)
  have hes := hs n close rest hd.2 hc
  -- the items behind the first one are read as the items are, with a comma in front
  have hm : many (nextItem (inner n)) (fun _ => [])
      (Mark.comma.token :: (es.tokens ++ close.token :: rest))
        = .done es.meaning (close.token :: rest) := by
    obtain ⟨first, mid, hf, hes⟩ := bind_eq_done.1 hes
    obtain ⟨tail, rest', hr, hes⟩ := bind_eq_done.1 hes
    simp only [pure_apply, Outcome.done.injEq] at hes
    have hi : nextItem (inner n) (Mark.comma.token :: (es.tokens ++ close.token :: rest))
        = .done (some first) mid := by
      rw [nextItem, bind_of_done _ (accept_mark _ _)]
      change (expression n >>= fun e => pure (some e)) _ = _
      rw [bind_of_done _ hf]
      rfl
    rw [many_of_some (takesIf_nextItem (innerOK n)) hi hr, ← hes.1, ← hes.2]
  rw [Phrase.tokens, List.append_assoc, List.cons_append, bind_of_done _ he, bind_of_done _ hm]
  rfl

theorem reads_noEntries : Reads .noEntries := by
  intro n rest hd
  refine many_of_none ?_
  change entry (inner n) (Mark.closeBrace.token :: rest) = _
  rw [entry, bind_of_done _ (nextIs_cons _ _ _)]
  rfl

theorem takes_entry (n : Nat) : TakesIf (·.isSome) (entry (inner n)) := takesIf_entry (innerOK n)

theorem reads_lastEntry {e : Phrase .entry} (h : Reads e) : Reads (.lastEntry e) := by
  intro n rest hd
  exact many_of_some (takes_entry n) (h n rest hd).2 (reads_noEntries n rest (Nat.zero_le n))

theorem reads_nextEntry {e : Phrase .entry} {es : Phrase .entries} (h : Reads e) (hs : Reads es) :
    Reads (.nextEntry e es) := by
  intro n rest hd
  simp only [Phrase.depth, Nat.max_le] at hd
  rw [Phrase.tokens, List.append_assoc, List.cons_append]
  exact many_of_some (takes_entry n) (h n _ hd.1).1 (hs n rest hd.2)

/-- An entry starts with its key, and goes on as `after` says behind it. -/
theorem entry_of_key {key : Expr} {ts mid : List Token}
    (hs : ∃ t us, ts = t :: us ∧ t.kind.starts = true)
    (hk : expression n ts = .done key mid) :
    entry (inner n) ts = (do
      if ← accept (.mark .comma) then
        return some ⟨key.asKey, key⟩
      else if ← nextIs (.mark .closeBrace) then
        return some ⟨key.asKey, key⟩
      else
        let entry ← keyed (inner n) ts key
        if ← nextIs (.mark .closeBrace) then
          return some entry
        else
          expect .comma
          return some entry : Rule _) mid := by
  obtain ⟨t, us, rfl, ht⟩ := hs
  have hn : nextIs (.mark .closeBrace) (t :: us) = .done false (t :: us) :=
    nextIs_of_starts ht (by decide) us
  rw [entry, bind_of_done _ hn]
  change (pending >>= fun start => expression n >>= fun key => _) _ = _
  rw [bind_pending, bind_of_done _ hk]

theorem reads_alone {key : Phrase .expression} (h : Reads key) : Reads (.alone key) := by
  intro n rest hd
  have hstart : ∀ us, ∃ t vs, key.tokens ++ us = t :: vs ∧ t.kind.starts = true := by
    intro us
    obtain ⟨t, ts, hts, hst⟩ := key.starts_tokens rfl
    exact ⟨t, ts ++ us, by rw [hts, List.cons_append], hst⟩
  constructor
  · have hk := h n (Mark.comma.token :: rest) hd (Token.ends_cons.2 rfl)
    rw [Phrase.tokens, entry_of_key (hstart _) hk, bind_of_done _ (accept_mark _ _)]
    rfl
  · have hk := h n (Mark.closeBrace.token :: rest) hd (Token.ends_cons.2 rfl)
    have ha : accept (.mark .comma) (Mark.closeBrace.token :: rest)
        = .done false (Mark.closeBrace.token :: rest) := accept_of_ends (Token.ends_cons.2 rfl)
    rw [Phrase.tokens, entry_of_key (hstart _) hk, bind_of_done _ ha]
    rfl

/-- An entry with a separator, behind which a comma or the closing brace follows. -/
theorem entry_of_keyed {key : Expr} {e : Entry} {ts mid : List Token} {separator : Mark}
    (hs : ∃ t us, ts = t :: us ∧ t.kind.starts = true)
    (hk : expression n ts = .done key (separator.token :: mid))
    (hsep : separator = .colon ∨ separator = .walrus) :
    (keyed (inner n) ts key (separator.token :: mid) = .done e (Mark.comma.token :: rest) →
      entry (inner n) ts = .done (some e) rest) ∧
    (keyed (inner n) ts key (separator.token :: mid) = .done e (Mark.closeBrace.token :: rest) →
      entry (inner n) ts = .done (some e) (Mark.closeBrace.token :: rest)) := by
  have ha : accept (.mark .comma) (separator.token :: mid) =
      .done false (separator.token :: mid) := by
    refine accept_of_ends (Token.ends_cons.2 ?_)
    rcases hsep with rfl | rfl <;> decide
  have hn : nextIs (.mark .closeBrace) (separator.token :: mid)
      = .done false (separator.token :: mid) := by
    rw [nextIs_cons]
    rcases hsep with rfl | rfl <;> rfl
  rw [entry_of_key hs hk, bind_of_done _ ha]
  simp only [Bool.false_eq_true, if_false]
  rw [bind_of_done _ hn]
  simp only [Bool.false_eq_true, if_false]
  constructor
  · intro he
    rw [bind_of_done _ he, bind_of_done _ (nextIs_cons _ _ _)]
    rfl
  · intro he
    rw [bind_of_done _ he, bind_of_done _ (nextIs_cons _ _ _)]
    rfl

theorem reads_colon {key value : Phrase .expression} (hk : Reads key) (hv : Reads value) :
    Reads (.colon key value) := by
  intro n rest hd
  simp only [Phrase.depth, Nat.max_le] at hd
  obtain ⟨t, ts, hts, hst⟩ := key.starts_tokens rfl
  have hstart : ∀ us, ∃ t vs, key.tokens ++ us = t :: vs ∧ t.kind.starts = true :=
    fun us => ⟨t, ts ++ us, by rw [hts, List.cons_append], hst⟩
  have hkey := fun us => hk n (Mark.colon.token :: us) hd.1 (Token.ends_cons.2 rfl)
  have hkeyed : ∀ start m, (Kind.mark m).continues = false →
      keyed (inner n) start key.meaning (Mark.colon.token :: (value.tokens ++ m.token :: rest))
        = .done ⟨Expr.asKey key.meaning, value.meaning⟩ (m.token :: rest) := by
    intro start m hm
    exact bind_of_done _ (hv n (m.token :: rest) hd.2 (Token.ends_cons.2 hm))
  rw [Phrase.tokens, List.append_assoc, List.append_assoc, List.cons_append, List.cons_append]
  exact ⟨(entry_of_keyed (hstart _) (hkey _) (Or.inl rfl)).1 (hkeyed _ _ rfl),
    (entry_of_keyed (hstart _) (hkey _) (Or.inl rfl)).2 (hkeyed _ _ rfl)⟩

theorem reads_walrus {key : Phrase .key} {value : Phrase .expression} (hk : Reads key)
    (hv : Reads value) : Reads (.walrus key value) := by
  intro n rest hd
  simp only [Phrase.depth, Nat.max_le] at hd
  obtain ⟨⟨x, hx⟩, hk⟩ := hk
  obtain ⟨t, ts, hts, hst⟩ := key.starts_tokens rfl
  have hstart : ∀ us, ∃ t vs, key.tokens ++ us = t :: vs ∧ t.kind.starts = true :=
    fun us => ⟨t, ts ++ us, by rw [hts, List.cons_append], hst⟩
  have hkey := fun us => hk n (Mark.walrus.token :: us) hd.1 (Token.ends_cons.2 rfl)
  have hkeyed : ∀ start m, (Kind.mark m).continues = false →
      keyed (inner n) start key.meaning (Mark.walrus.token :: (value.tokens ++ m.token :: rest))
        = .done ⟨key.meaning, value.meaning⟩ (m.token :: rest) := by
    intro start m hm
    refine (bind_of_done _ (hv n (m.token :: rest) hd.2 (Token.ends_cons.2 hm))).trans ?_
    rw [hx]
    rfl
  rw [Phrase.tokens, List.append_assoc, List.append_assoc, List.cons_append, List.cons_append]
  exact ⟨(entry_of_keyed (hstart _) (hkey _) (Or.inr rfl)).1 (hkeyed _ _ rfl),
    (entry_of_keyed (hstart _) (hkey _) (Or.inr rfl)).2 (hkeyed _ _ rfl)⟩

theorem reads_nameKey (x : Target) : Reads (.nameKey x) := by
  refine ⟨⟨x, rfl⟩, fun n rest hd hr => ?_⟩
  obtain ⟨m, rfl⟩ : ∃ m, n = m + 1 := ⟨n - 1, by simp only [Phrase.depth] at hd; omega⟩
  have hp : primary (inner m) (.bare .name x :: rest) = .done (Expr.ofWord x) rest := rfl
  have hw : Expr.ofWord x = (Form.name x).bare := by
    simp [Expr.ofWord, x.2.1, x.2.2]
  rw [hw] at hp
  have ha := applied_of_primary hp hr.operates.multiplies.applies
  have hu := unary_of_applied ha (by simp [Token.bare, Kind.opens])
  exact expression_of_binary
    (binary_of_factor (factor_of_unary hu hr.operates.multiplies) hr.operates) hr

theorem reads_groupKey {key : Phrase .key} (h : Reads key) : Reads (.groupKey key) := by
  obtain ⟨⟨x, hx⟩, h⟩ := h
  refine ⟨⟨x, hx⟩, fun n rest hd hr => ?_⟩
  obtain ⟨m, rfl⟩ : ∃ m, n = m + 1 := ⟨n - 1, by simp only [Phrase.depth] at hd; omega⟩
  have he := h m (Mark.closeParen.token :: rest) (by simp only [Phrase.depth] at hd; omega)
    (Token.ends_cons.2 rfl)
  have hp : primary (inner m) ((Phrase.groupKey key).tokens ++ rest)
      = .done (Expr.group key.meaning) rest := by
    simp only [Phrase.tokens, List.cons_append, List.append_assoc, List.nil_append]
    change (do let e ← expression m; expect .closeParen; return e.group : Rule _)
      (key.tokens ++ Mark.closeParen.token :: rest) = _
    rw [bind_of_done _ he, bind_of_done _ (expect_token _ _)]
    rfl
  have ha := applied_of_primary hp hr.operates.multiplies.applies
  have hu := unary_of_applied ha (by simp [Phrase.tokens, Mark.kind_token, Kind.opens])
  exact expression_of_binary
    (binary_of_factor (factor_of_unary hu hr.operates.multiplies) hr.operates) hr

end Steps

theorem reads : ∀ {c : Category} (p : Phrase c), Reads p
  | _, .assign x value => reads_assign x (reads value)
  | _, .plain e => reads_plain (reads e)
  | _, .sum left op right => reads_sum op (reads left) (reads right)
  | _, .ofFactor e => reads_ofFactor (reads e)
  | _, .product left op right => reads_product op (reads left) (reads right)
  | _, .ofUnary e => reads_ofUnary (reads e)
  | _, .signed op operand => reads_signed op (reads operand)
  | _, .ofApplied e => reads_ofApplied (reads e)
  | _, .call callee args => reads_call (reads callee) (reads args)
  | _, .index value i => reads_index (reads value) (reads i)
  | _, .member value x => reads_member x (reads value)
  | _, .ofPrimary e => reads_ofPrimary (reads e)
  | _, .number _ => fun _ _ _ => rfl
  | _, .string _ => fun _ _ _ => rfl
  | _, .word _ => fun _ _ _ => rfl
  | _, .group e => reads_group (reads e)
  | _, .list elements => reads_list (reads elements)
  | _, .dict entries => reads_dict (reads entries)
  | _, .noItems => reads_noItems
  | _, .someItems es => reads_someItems (reads es)
  | _, .lastItem e => reads_lastItem (reads e)
  | _, .nextItem e es => reads_nextItem (reads e) (reads es)
  | _, .noEntries => reads_noEntries
  | _, .lastEntry e => reads_lastEntry (reads e)
  | _, .nextEntry e es => reads_nextEntry (reads e) (reads es)
  | _, .alone key => reads_alone (reads key)
  | _, .colon key value => reads_colon (reads key) (reads value)
  | _, .walrus key value => reads_walrus (reads key) (reads value)
  | _, .nameKey x => reads_nameKey x
  | _, .groupKey key => reads_groupKey (reads key)
  | .statement, _ => trivial
  | .block, _ => trivial
  | .statements, _ => trivial

/-- An expression is read as its meaning, whatever follows that it cannot go on with. -/
theorem expression_tokens (p : Phrase .expression) (rest : List Token) {n : Nat} (hd : p.depth ≤ n)
    (hr : Ends Kind.continues rest) :
    expression n (p.tokens ++ rest) = .done p.meaning rest := reads p n rest hd hr

/-- Tokens start with at most one expression that cannot go on, whatever it stands for. -/
theorem tokens_unique {p q : Phrase .expression} {ts us : List Token} (ht : Ends Kind.continues ts)
    (hu : Ends Kind.continues us) (h : p.tokens ++ ts = q.tokens ++ us) :
    p.meaning = q.meaning ∧ ts = us := by
  have hp := expression_tokens p ts (Nat.le_max_left p.depth q.depth) ht
  have hq := expression_tokens q us (Nat.le_max_right p.depth q.depth) hu
  rw [h, hq] at hp
  simp only [Outcome.done.injEq] at hp
  exact ⟨hp.1.symm, hp.2.symm⟩

end Grammar

end Offside
