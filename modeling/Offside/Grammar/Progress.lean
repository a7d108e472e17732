import Offside.Grammar.Stmt

/-!
# Rules move forward

What a rule leaves, done or halted, is a suffix of what was pending, so a token once taken is never
seen again (`keeps_program`). A rule that is done with an expression or a statement has taken at
least one token (`takes_statement`). Hence an item of a repetition takes a token whenever there is
one, and `many_eq` unfolds a repetition without its bound.

Where a level of nesting is left, even a rule that halts has taken a token, if there was one
(`advances_program`).
-/

namespace Offside

namespace Rule

variable {α β : Type}

/-- Whatever comes of the rule, it leaves a suffix of the pending tokens. -/
def Keeps (r : Rule α) : Prop := ∀ ts, (r ts).rest <:+ ts

/-- The rule takes a token whenever it is done with a value in `p`. -/
def TakesIf (p : α → Prop) (r : Rule α) : Prop :=
  ∀ ts a rest, r ts = .done a rest → p a → rest.length < ts.length

/-- The rule takes a token whenever it is done. -/
abbrev Takes (r : Rule α) : Prop := TakesIf (fun _ => True) r

/-- Whatever comes of the rule, it takes the next token if there is one. -/
def Advances (r : Rule α) : Prop := ∀ t ts, (r (t :: ts)).rest <:+ ts

theorem Keeps.of_done {r : Rule α} (h : Keeps r) {ts rest : List Token} {a : α}
    (hr : r ts = .done a rest) : rest <:+ ts := by
  have := h ts
  rwa [hr] at this

theorem keeps_pure (a : α) : Keeps (pure a : Rule α) := fun _ => List.suffix_rfl

theorem keeps_bind {r : Rule α} {f : α → Rule β} (hr : Keeps r) (hf : ∀ a, Keeps (f a)) :
    Keeps (r >>= f) := by
  intro ts
  have := hr ts
  rw [bind_apply]
  cases h : r ts with
  | done a rest => exact (hf a rest).trans (hr.of_done h)
  | halted e => rwa [h] at this

theorem keeps_pending : Keeps pending := fun _ => List.suffix_rfl

theorem keeps_peek : Keeps peek := fun _ => List.suffix_rfl

theorem keeps_nextIs (k : Kind) : Keeps (nextIs k) := fun _ => List.suffix_rfl

theorem keeps_atEnd : Keeps atEnd := fun _ => List.suffix_rfl

theorem keeps_haltAt (c : Complaint) (site : List Token) : Keeps (haltAt c site : Rule α) :=
  fun _ => List.suffix_rfl

theorem keeps_tooDeep : Keeps (tooDeep : Rule α) := fun _ => List.suffix_rfl

theorem keeps_take : Keeps take
  | [] => List.suffix_rfl
  | t :: ts => List.suffix_cons t ts

theorem keeps_expect (m : Mark) : Keeps (expect m)
  | [] => List.suffix_rfl
  | t :: ts => by
    simp only [expect]
    split <;> exact List.suffix_cons t ts

theorem keeps_accept (k : Kind) : Keeps (accept k)
  | [] => List.suffix_rfl
  | t :: ts => by
    simp only [accept]
    split
    · exact List.suffix_cons t ts
    · exact List.suffix_rfl

theorem rest_recording (before : Block) (r : Rule α) (ts : List Token) :
    (recording before r ts).rest = (r ts).rest := by
  simp only [recording]
  cases r ts <;> rfl

theorem keeps_recording (before : Block) {r : Rule α} (h : Keeps r) : Keeps (recording before r) :=
  fun ts => rest_recording before r ts ▸ h ts

theorem keeps_upTo {item : Rule (Option α)} (h : Keeps item) (record : α → Block) :
    ∀ n, Keeps (upTo item record n)
  | 0 => keeps_pure []
  | n + 1 => by
    refine keeps_bind h fun o => ?_
    split
    · exact keeps_pure []
    · exact keeps_bind (keeps_recording _ (keeps_upTo h record n)) fun _ => keeps_pure _

theorem keeps_many {item : Rule (Option α)} (h : Keeps item) (record : α → Block) :
    Keeps (many item record) := fun ts => keeps_upTo h record _ ts

theorem takes_take : Takes take
  | [], _, _, h, _ => by simp [take] at h
  | t :: ts, _, _, h, _ => by
    simp only [take, Outcome.done.injEq] at h
    simp [← h.2]

theorem takesIf_accept (k : Kind) : TakesIf (· = true) (accept k)
  | [], _, _, h, hb => by simp_all [accept]
  | t :: ts, _, _, h, hb => by
    simp only [accept] at h
    split at h
    · simp only [Outcome.done.injEq] at h
      simp [← h.2]
    · simp only [Outcome.done.injEq] at h
      simp [← h.1] at hb

theorem takesIf_of_halts {p : α → Prop} {r : Rule α} (h : ∀ ts a rest, r ts ≠ .done a rest) :
    TakesIf p r := fun ts a rest hr => absurd hr (h ts a rest)

theorem takesIf_tooDeep {p : α → Prop} : TakesIf p (tooDeep : Rule α) :=
  takesIf_of_halts fun _ _ _ h => by simp [tooDeep] at h

theorem takesIf_pure {p : α → Prop} {a : α} (h : ¬ p a) : TakesIf p (pure a : Rule α) := by
  intro ts b rest hr hp
  simp only [pure_apply, Outcome.done.injEq] at hr
  exact absurd (hr.1 ▸ hp) h

/-- A token taken by the first of two rules stays taken. -/
theorem takesIf_bind_left {p : β → Prop} {q : α → Prop} {r : Rule α} {f : α → Rule β}
    (hr : TakesIf q r) (hf : ∀ a, Keeps (f a)) (hq : ∀ a, ¬ q a → TakesIf p (f a)) (hk : Keeps r) :
    TakesIf p (r >>= f) := by
  intro ts b rest h hp
  rw [bind_apply] at h
  cases ha : r ts with
  | halted e => simp [ha] at h
  | done a mid =>
    simp only [ha] at h
    have hmid := (hk.of_done ha).length_le
    by_cases hqa : q a
    · exact Nat.lt_of_le_of_lt ((hf a).of_done h).length_le (hr ts a mid ha hqa)
    · exact Nat.lt_of_lt_of_le (hq a hqa mid b rest h hp) hmid

theorem takesIf_bind {p : β → Prop} {r : Rule α} {f : α → Rule β} (hr : Takes r)
    (hf : ∀ a, Keeps (f a)) (hk : Keeps r) : TakesIf p (r >>= f) :=
  takesIf_bind_left hr hf (fun _ h => absurd trivial h) hk

theorem takesIf_bind_right {p : β → Prop} {r : Rule α} {f : α → Rule β} (hk : Keeps r)
    (hf : ∀ a, TakesIf p (f a)) : TakesIf p (r >>= f) := by
  intro ts b rest h hp
  rw [bind_apply] at h
  cases ha : r ts with
  | halted e => simp [ha] at h
  | done a mid =>
    simp only [ha] at h
    exact Nat.lt_of_lt_of_le (hf a mid b rest h hp) (hk.of_done ha).length_le

theorem advances_take {f : Token → Rule β} (hf : ∀ t, Keeps (f t)) : Advances (take >>= f) :=
  fun t ts => hf t ts

theorem advances_pending {f : List Token → Rule β} (hf : ∀ site, Advances (f site)) :
    Advances (pending >>= f) := fun t ts => hf (t :: ts) t ts

theorem advances_peek {f : Option Kind → Rule β} (hf : ∀ k, Advances (f k)) :
    Advances (peek >>= f) := fun t ts => hf (some t.kind) t ts

theorem advances_bind {r : Rule α} {f : α → Rule β} (hr : Advances r) (hf : ∀ a, Keeps (f a)) :
    Advances (r >>= f) := by
  intro t ts
  have := hr t ts
  rw [bind_apply]
  cases h : r (t :: ts) with
  | done a rest =>
    rw [h] at this
    exact (hf a rest).trans this
  | halted e => rwa [h] at this

theorem Advances.keeps {r : Rule α} (h : Advances r) (hnil : (r []).rest = []) : Keeps r
  | [] => List.suffix_nil.2 hnil
  | t :: ts => (h t ts).trans (List.suffix_cons t ts)

theorem Advances.takes {r : Rule α} (h : Advances r) (hnil : ∀ a rest, r [] ≠ .done a rest) :
    Takes r
  | [], a, rest, hr, _ => absurd hr (hnil a rest)
  | t :: ts, _, _, hr, _ => by
    have := (h t ts).length_le
    rw [hr] at this
    exact Nat.lt_succ_of_le this

/-- Once there is room for every pending token, more room changes nothing. -/
theorem upTo_eq_of_length_lt {item : Rule (Option α)} (hi : TakesIf (·.isSome) item)
    (record : α → Block) : ∀ (m n : Nat) (ts : List Token), ts.length < m → ts.length < n →
      upTo item record m ts = upTo item record n ts
  | 0, _, _, hm, _ => absurd hm (Nat.not_lt_zero _)
  | _, 0, _, _, hn => absurd hn (Nat.not_lt_zero _)
  | m + 1, n + 1, ts, hm, hn => by
    simp only [upTo, bind_apply]
    cases h : item ts with
    | halted e => rfl
    | done o rest =>
      cases o with
      | none => rfl
      | some a =>
        have hlt := hi ts (some a) rest h rfl
        simp only [bind_apply, recording]
        rw [upTo_eq_of_length_lt hi record m n rest (by omega) (by omega)]

/-- A repetition is an item and a repetition, or nothing. -/
theorem many_eq {item : Rule (Option α)} (hi : TakesIf (·.isSome) item) (record : α → Block) :
    many item record = do
      match ← item with
      | none => return []
      | some a =>
        let as ← recording (record a) (many item record)
        return a :: as := by
  funext ts
  simp only [many, upTo, bind_apply]
  cases h : item ts with
  | halted e => rfl
  | done o rest =>
    cases o with
    | none => rfl
    | some a =>
      have hlt := hi ts (some a) rest h rfl
      simp only [bind_apply, recording]
      rw [upTo_eq_of_length_lt hi record ts.length (rest.length + 1) rest hlt (Nat.lt_succ_self _)]
      rfl

end Rule

namespace Grammar

open Rule

/-- The rules for what is nested further in move forward. -/
structure InnerOK (inner : Inner) : Prop where
  keeps_expression : Keeps inner.expression
  keeps_operand : Keeps inner.operand
  takes_expression : Takes inner.expression

section Inner

variable {inner : Inner} (h : InnerOK inner)
include h

theorem keeps_nextItem : Keeps (nextItem inner) := by
  refine keeps_bind (keeps_accept _) fun b => ?_
  split
  · exact keeps_bind h.keeps_expression fun _ => keeps_pure _
  · exact keeps_pure _

theorem keeps_items (close : Mark) : Keeps (items inner close) := by
  refine keeps_bind (keeps_nextIs _) fun b => ?_
  split
  · exact keeps_pure _
  · exact keeps_bind h.keeps_expression fun _ =>
      keeps_bind (keeps_many (keeps_nextItem h) _) fun _ => keeps_pure _

theorem keeps_keyed (start : List Token) (key : Expr) : Keeps (keyed inner start key) := by
  refine keeps_bind keeps_pending fun site => keeps_bind keeps_take fun t => ?_
  split
  · exact keeps_bind h.keeps_expression fun _ => keeps_pure _
  · refine keeps_bind h.keeps_expression fun _ => ?_
    split
    · exact keeps_pure _
    · exact keeps_haltAt _ _
  · exact keeps_haltAt _ _

theorem keeps_entry : Keeps (entry inner) := by
  refine keeps_bind (keeps_nextIs _) fun b => ?_
  split
  · exact keeps_pure _
  refine keeps_bind keeps_pending fun start => keeps_bind h.keeps_expression fun key =>
    keeps_bind (keeps_accept _) fun b => ?_
  split
  · exact keeps_pure _
  refine keeps_bind (keeps_nextIs _) fun b => ?_
  split
  · exact keeps_pure _
  refine keeps_bind (keeps_keyed h start key) fun e => keeps_bind (keeps_nextIs _) fun b => ?_
  split
  · exact keeps_pure _
  · exact keeps_bind (keeps_expect _) fun _ => keeps_pure _

theorem advances_primary : Advances (primary inner) := by
  refine advances_pending fun site => advances_take fun t => ?_
  split
  · exact keeps_pure _
  · exact keeps_pure _
  · exact keeps_pure _
  · exact keeps_bind h.keeps_expression fun _ => keeps_bind (keeps_expect _) fun _ => keeps_pure _
  · exact keeps_bind (keeps_many (keeps_entry h) _) fun _ =>
      keeps_bind (keeps_expect _) fun _ => keeps_pure _
  · exact keeps_bind (keeps_items h _) fun _ => keeps_bind (keeps_expect _) fun _ => keeps_pure _
  · exact keeps_haltAt _ _
  · exact keeps_haltAt _ _

omit h in
theorem keeps_memberName : Keeps memberName := by
  refine keeps_bind keeps_pending fun site => keeps_bind keeps_take fun t => ?_
  split
  · exact keeps_pure _
  · exact keeps_haltAt _ _

theorem keeps_suffix : Keeps (suffix inner) := by
  refine keeps_bind keeps_peek fun k => ?_
  split
  · exact keeps_bind keeps_take fun _ => keeps_bind (keeps_items h _) fun _ =>
      keeps_bind (keeps_expect _) fun _ => keeps_pure _
  · exact keeps_bind keeps_take fun _ => keeps_bind h.keeps_expression fun _ =>
      keeps_bind (keeps_expect _) fun _ => keeps_pure _
  · exact keeps_bind keeps_take fun _ => keeps_bind keeps_memberName fun _ => keeps_pure _
  · exact keeps_pure _

theorem advances_applied : Advances (applied inner) :=
  advances_bind (advances_primary h) fun _ => keeps_bind (keeps_many (keeps_suffix h) _) fun _ =>
    keeps_pure _

theorem advances_unary : Advances (unary inner) := by
  refine advances_peek fun k => ?_
  split
  · exact advances_take fun _ => keeps_bind h.keeps_operand fun _ => keeps_pure _
  · exact advances_applied h

theorem keeps_unary : Keeps (unary inner) := (advances_unary h).keeps rfl

omit h in
theorem keeps_operation (accepted : BinaryOp → Bool) {operand : Rule Expr} (ho : Keeps operand) :
    Keeps (operation accepted operand) := by
  refine keeps_bind keeps_peek fun k => ?_
  split
  · exact keeps_bind keeps_take fun _ => keeps_bind ho fun _ => keeps_pure _
  · exact keeps_pure _

theorem advances_factor : Advances (factor inner) :=
  advances_bind (advances_unary h) fun _ =>
    keeps_bind (keeps_many (keeps_operation _ (keeps_unary h)) _) fun _ => keeps_pure _

theorem keeps_factor : Keeps (factor inner) := (advances_factor h).keeps rfl

theorem advances_binary : Advances (binary inner) :=
  advances_bind (advances_factor h) fun _ =>
    keeps_bind (keeps_many (keeps_operation _ (keeps_factor h)) _) fun _ => keeps_pure _

theorem advances_assignment : Advances (assignment inner) := by
  refine advances_pending fun site => advances_bind (advances_binary h) fun target =>
    keeps_bind (keeps_nextIs _) fun b => ?_
  split
  · split
    · exact keeps_bind keeps_take fun _ => keeps_bind h.keeps_expression fun _ => keeps_pure _
    · exact keeps_haltAt _ _
  · exact keeps_pure _

theorem keeps_assignment : Keeps (assignment inner) := (advances_assignment h).keeps rfl

theorem takes_assignment : Takes (assignment inner) := (advances_assignment h).takes nofun

/-! ## Items of repetitions -/

theorem takesIf_nextItem : TakesIf (·.isSome) (nextItem inner) := by
  refine takesIf_bind_left (takesIf_accept _) (fun b => ?_) (fun b hb => ?_) (keeps_accept _)
  · split
    · exact keeps_bind h.keeps_expression fun _ => keeps_pure _
    · exact keeps_pure _
  · rw [if_neg hb]
    exact takesIf_pure (by simp)

theorem takesIf_entry : TakesIf (·.isSome) (entry inner) := by
  refine takesIf_bind_right (keeps_nextIs _) fun b => ?_
  split
  · exact takesIf_pure (by simp)
  refine takesIf_bind_right keeps_pending fun start =>
    takesIf_bind h.takes_expression (fun key => ?_) h.keeps_expression
  refine keeps_bind (keeps_accept _) fun b => ?_
  split
  · exact keeps_pure _
  refine keeps_bind (keeps_nextIs _) fun b => ?_
  split
  · exact keeps_pure _
  refine keeps_bind (keeps_keyed h start key) fun e => keeps_bind (keeps_nextIs _) fun b => ?_
  split
  · exact keeps_pure _
  · exact keeps_bind (keeps_expect _) fun _ => keeps_pure _

theorem takesIf_suffix : TakesIf (·.isSome) (suffix inner) := by
  refine takesIf_bind_right keeps_peek fun k => ?_
  split
  · exact takesIf_bind takes_take (fun _ => keeps_bind (keeps_items h _) fun _ =>
      keeps_bind (keeps_expect _) fun _ => keeps_pure _) keeps_take
  · exact takesIf_bind takes_take (fun _ => keeps_bind h.keeps_expression fun _ =>
      keeps_bind (keeps_expect _) fun _ => keeps_pure _) keeps_take
  · exact takesIf_bind takes_take (fun _ => keeps_bind keeps_memberName fun _ => keeps_pure _)
      keeps_take
  · exact takesIf_pure (by simp)

omit h in
theorem takesIf_operation (accepted : BinaryOp → Bool) {operand : Rule Expr}
    (ho : Keeps operand) : TakesIf (·.isSome) (operation accepted operand) := by
  refine takesIf_bind_right keeps_peek fun k => ?_
  split
  · exact takesIf_bind takes_take (fun _ => keeps_bind ho fun _ => keeps_pure _) keeps_take
  · exact takesIf_pure (by simp)

end Inner

theorem innerOK : ∀ n, InnerOK (inner n)
  | 0 => ⟨keeps_tooDeep, keeps_tooDeep, takesIf_tooDeep⟩
  | n + 1 =>
    ⟨keeps_assignment (innerOK n), keeps_unary (innerOK n), takes_assignment (innerOK n)⟩

theorem keeps_expression (n : Nat) : Keeps (expression n) := (innerOK n).keeps_expression

theorem takes_expression (n : Nat) : Takes (expression n) := (innerOK n).takes_expression

/-! ## Statements -/

section Statements

variable {expression : Rule Expr} {conditional statement : Rule Stmt} {stop : Rule Bool}

theorem keeps_oneOf (he : Keeps expression) (hc : Keeps conditional) :
    Keeps (oneOf expression conditional) := by
  refine keeps_bind keeps_peek fun k => ?_
  split
  · exact hc
  · exact keeps_bind keeps_take fun _ => keeps_pure _
  · exact keeps_bind he fun _ => keeps_pure _

theorem takes_oneOf (he : Keeps expression) (te : Takes expression) (tc : Takes conditional) :
    Takes (oneOf expression conditional) := by
  refine takesIf_bind_right keeps_peek fun k => ?_
  split
  · exact tc
  · exact takesIf_bind takes_take (fun _ => keeps_pure _) keeps_take
  · exact takesIf_bind te (fun _ => keeps_pure _) he

theorem keeps_statementUnless (hs : Keeps stop) (hk : Keeps statement) :
    Keeps (statementUnless stop statement) := by
  refine keeps_bind hs fun b => ?_
  split
  · exact keeps_pure _
  · exact keeps_bind hk fun _ => keeps_pure _

theorem takesIf_statementUnless (hs : Keeps stop) (hk : Keeps statement) (ht : Takes statement) :
    TakesIf (·.isSome) (statementUnless stop statement) := by
  refine takesIf_bind_right hs fun b => ?_
  split
  · exact takesIf_pure (by simp)
  · exact takesIf_bind ht (fun _ => keeps_pure _) hk

theorem keeps_statements (hs : Keeps stop) (hk : Keeps statement) :
    Keeps (statements stop statement) := keeps_many (keeps_statementUnless hs hk) _

theorem keeps_block (hk : Keeps statement) : Keeps (block statement) := by
  refine keeps_bind (keeps_accept _) fun b => ?_
  split
  · exact keeps_bind (keeps_statements (keeps_nextIs _) hk) fun _ =>
      keeps_bind (keeps_expect _) fun _ => keeps_pure _
  · exact keeps_bind hk fun _ => keeps_pure _

theorem advances_conditionalOf (he : Keeps expression) (hk : Keeps statement) :
    Advances (conditionalOf expression statement) := by
  refine advances_take fun _ => keeps_bind (keeps_expect _) fun _ => keeps_bind he fun _ =>
    keeps_bind (keeps_expect _) fun _ => keeps_bind (keeps_block hk) fun _ =>
    keeps_bind (keeps_accept _) fun b => ?_
  split
  · exact keeps_bind (keeps_recording _ (keeps_block hk)) fun _ => keeps_pure _
  · exact keeps_pure _

theorem keeps_conditionalOf (he : Keeps expression) (hk : Keeps statement) :
    Keeps (conditionalOf expression statement) := (advances_conditionalOf he hk).keeps rfl

theorem takes_conditionalOf (he : Keeps expression) (hk : Keeps statement) :
    Takes (conditionalOf expression statement) := (advances_conditionalOf he hk).takes nofun

end Statements

theorem keeps_conditional : ∀ n, Keeps (conditional n)
  | 0 => keeps_tooDeep
  | n + 1 =>
    keeps_conditionalOf (keeps_expression n)
      (keeps_oneOf (keeps_expression n) (keeps_conditional n))

theorem takes_conditional : ∀ n, Takes (conditional n)
  | 0 => takesIf_tooDeep
  | n + 1 =>
    takes_conditionalOf (keeps_expression n)
      (keeps_oneOf (keeps_expression n) (keeps_conditional n))

theorem keeps_statement (n : Nat) : Keeps (statement n) :=
  keeps_oneOf (keeps_expression n) (keeps_conditional n)

theorem takes_statement (n : Nat) : Takes (statement n) :=
  takes_oneOf (keeps_expression n) (takes_expression n) (takes_conditional n)

theorem keeps_program (n : Nat) : Keeps (program n) :=
  keeps_statements keeps_atEnd (keeps_statement n)

theorem advances_statement (n : Nat) : Advances (statement (n + 1)) := by
  refine advances_peek fun k => ?_
  split
  · exact advances_conditionalOf (keeps_expression n) (keeps_statement n)
  · exact advances_take fun _ => keeps_pure _
  · exact advances_bind (advances_assignment (innerOK n)) fun _ => keeps_pure _

theorem takesIf_statement (n : Nat) :
    TakesIf (·.isSome) (statementUnless atEnd (statement n)) :=
  takesIf_statementUnless keeps_atEnd (keeps_statement n) (takes_statement n)

theorem advances_program (n : Nat) : Advances (program (n + 1)) := by
  have hitem : Advances (statementUnless atEnd (statement (n + 1))) := fun t ts =>
    advances_bind (advances_statement n) (fun s => keeps_pure (some s)) t ts
  rw [program, statements, many_eq (takesIf_statement (n + 1))]
  refine advances_bind hitem fun o => ?_
  split
  · exact keeps_pure _
  · exact keeps_bind (keeps_recording _ (keeps_program (n + 1))) fun _ => keeps_pure _

end Grammar

end Offside
