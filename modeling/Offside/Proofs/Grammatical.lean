import Offside.Proofs.Readable.Stmt

/-!
# What is read is a phrase

A rule that is done has read a phrase of its category, which means what the rule gives and opens no
more levels of nesting than were left (`Derives`). What it leaves does not go on with the phrase:
this is what ends the repetitions, and it makes the phrase of a program a greedy one
(`program_grammatical`).
-/

namespace Offside

open Token (Ends)

theorem Token.ends_map {f : Token → Token} (hf : ∀ t, (f t).kind = t.kind) {p : Kind → Bool}
    {ts : List Token} : Ends p (ts.map f) ↔ Ends p ts := by
  cases ts with
  | nil => simp [Ends]
  | cons t ts => rw [List.map_cons, ends_cons, ends_cons, hf]

theorem Token.ends_map_face {p : Kind → Bool} {ts : List Token} :
    Ends p (ts.map face) ↔ Ends p ts := ends_map face_kind

theorem Token.Ends.of_append {p : Kind → Bool} {ts us : List Token} (h : Ends p (ts ++ us)) :
    Ends p ts := by
  cases ts with
  | nil => exact ends_nil p
  | cons t ts =>
    rw [List.cons_append, ends_cons] at h
    exact ends_cons.2 h

namespace Rule

variable {α β : Type}

theorem pure_eq_done {a b : α} {ts rest : List Token} :
    (pure a : Rule α) ts = .done b rest ↔ a = b ∧ ts = rest := by
  rw [pure_apply, Outcome.done.injEq]

theorem expect_eq_done {m : Mark} {ts rest : List Token} {u : Unit}
    (h : expect m ts = .done u rest) : ts.map Token.face = m.token :: rest.map Token.face := by
  cases ts with
  | nil => simp [expect] at h
  | cons t ts =>
    simp only [expect] at h
    split at h
    · rename_i hk
      rw [Outcome.done.injEq] at h
      rw [List.map_cons, Token.face_of_mark hk, h.2]
    · simp at h

/-- Something and the mark that closes it. -/
theorem closed_eq_done {r : Rule α} {close : Mark} {f : α → β} {ts rest : List Token} {b : β}
    (h : (do let a ← r; expect close; return f a : Rule β) ts = .done b rest) :
    ∃ a mid, r ts = .done a mid ∧ mid.map Token.face = close.token :: rest.map Token.face ∧
      f a = b := by
  obtain ⟨a, mid, ha, hm⟩ := bind_eq_done.1 h
  obtain ⟨u, rest', hclose, hp⟩ := bind_eq_done.1 hm
  obtain ⟨rfl, rfl⟩ := pure_eq_done.1 hp
  exact ⟨a, mid, ha, expect_eq_done hclose, rfl⟩

theorem accept_eq_true {k : Kind} {ts rest : List Token} (h : accept k ts = .done true rest) :
    ∃ t, t.kind = k ∧ ts = t :: rest := by
  cases ts with
  | nil => simp [accept] at h
  | cons t ts =>
    simp only [accept] at h
    split at h
    · rename_i hk
      rw [Outcome.done.injEq] at h
      exact ⟨t, hk, by rw [h.2]⟩
    · simp at h

theorem accept_eq_false {k : Kind} {ts rest : List Token} (h : accept k ts = .done false rest) :
    rest = ts ∧ Ends (· == k) ts := by
  cases ts with
  | nil =>
    simp only [accept, Outcome.done.injEq, true_and] at h
    exact ⟨h.symm, Token.ends_nil _⟩
  | cons t ts =>
    simp only [accept] at h
    split at h
    · simp at h
    · rename_i hk
      rw [Outcome.done.injEq] at h
      exact ⟨h.2.symm, Token.ends_cons.2 (beq_eq_false_iff_ne.2 hk)⟩

theorem nextIs_eq_done {k : Kind} {ts rest : List Token} {b : Bool}
    (h : nextIs k ts = .done b rest) : rest = ts ∧ (ts.head?.map Token.kind == some k) = b := by
  rw [nextIs, Outcome.done.injEq] at h
  exact ⟨h.2.symm, h.1⟩

theorem ends_of_nextIs {k : Kind} {ts : List Token}
    (h : (ts.head?.map Token.kind == some k) = false) : Ends (· == k) ts := by
  cases ts with
  | nil => exact Token.ends_nil _
  | cons t ts => exact Token.ends_cons.2 (by simpa using h)

theorem many_eq_done {item : Rule (Option α)} {record : α → Block}
    (hi : TakesIf (·.isSome) item) {ts rest : List Token} {as : List α}
    (h : many item record ts = .done as rest) :
    (as = [] ∧ item ts = .done none rest) ∨
      ∃ a mid as', as = a :: as' ∧ item ts = .done (some a) mid ∧
        many item record mid = .done as' rest := by
  rw [many_eq hi, bind_eq_done] at h
  obtain ⟨o, mid, ho, h⟩ := h
  cases o with
  | none =>
    rw [pure_eq_done] at h
    obtain ⟨rfl, rfl⟩ := h
    exact Or.inl ⟨rfl, ho⟩
  | some a =>
    obtain ⟨as', rest', hr, h⟩ := bind_eq_done.1 h
    rw [pure_eq_done] at h
    obtain ⟨rfl, rfl⟩ := h
    refine Or.inr ⟨a, mid, as', rfl, ho, ?_⟩
    simp only [recording] at hr
    split at hr
    · rename_i hm
      rw [hm, hr]
    · simp at hr

/-- What each item of a repetition keeps up is still so at its end. -/
theorem many_foldl {item : Rule (Option α)} {record : α → Block} (hi : TakesIf (·.isSome) item)
    {P : β → List Token → Prop} {f : β → α → β}
    (hstep : ∀ ts a mid b, item ts = .done (some a) mid → P b ts → P (f b a) mid) :
    ∀ (as : List α) (b : β) (ts rest : List Token), many item record ts = .done as rest → P b ts →
      ∃ last, P (as.foldl f b) last ∧ item last = .done none rest
  | [], b, ts, rest, h, hp => by
    rcases many_eq_done hi h with ⟨-, hn⟩ | ⟨a, mid, as, ha, -⟩
    · exact ⟨ts, hp, hn⟩
    · exact absurd ha (by simp)
  | a :: as, b, ts, rest, h, hp => by
    rcases many_eq_done hi h with ⟨ha, -⟩ | ⟨a', mid, as', ha, hs, hm⟩
    · exact absurd ha (by simp)
    · obtain ⟨rfl, rfl⟩ := List.cons.inj ha
      exact many_foldl hi hstep as (f b a) mid rest hm (hstep ts a mid b hs hp)

end Rule

/-! ## Names among the phrases -/

namespace Phrase

/-- An expression that is a name in any number of parentheses can stand before `:=`. -/
theorem exists_key : ∀ p : Phrase .expression, (Expr.name? p.meaning).isSome = true →
    ∃ k : Phrase .key, k.tokens = p.tokens ∧ k.meaning = p.meaning ∧ k.depth = p.depth
  | plain (ofFactor (ofUnary (ofApplied (ofPrimary (word x))))), h => by
    simp only [meaning, Expr.ofWord] at h ⊢
    by_cases ht : x = "T"
    · simp [ht, Expr.name?, Form.bare] at h
    · by_cases hf : x = "F"
      · simp [hf, Expr.name?, Form.bare] at h
      · exact ⟨nameKey ⟨x, ht, hf⟩, by simp, by simp [ht, hf], by simp⟩
  | plain (ofFactor (ofUnary (ofApplied (ofPrimary (group e))))), h => by
    obtain ⟨k, hk, hm, hd⟩ := exists_key e h
    exact ⟨groupKey k, by simp [hk], by simp [hm], by simp [hd]⟩
  | plain (ofFactor (ofUnary (ofApplied (ofPrimary (number _))))), h
  | plain (ofFactor (ofUnary (ofApplied (ofPrimary (string _))))), h
  | plain (ofFactor (ofUnary (ofApplied (ofPrimary (list _))))), h
  | plain (ofFactor (ofUnary (ofApplied (ofPrimary (dict _))))), h
  | plain (ofFactor (ofUnary (ofApplied (call _ _)))), h
  | plain (ofFactor (ofUnary (ofApplied (index _ _)))), h
  | plain (ofFactor (ofUnary (ofApplied (member _ _)))), h
  | plain (ofFactor (ofUnary (signed _ _))), h
  | plain (ofFactor (product _ _ _)), h
  | plain (sum _ _ _), h
  | assign _ _, h => by simp [Expr.name?, Form.bare] at h

/-- What can be assigned to is a single word. -/
theorem tokens_of_target : ∀ (p : Phrase .binary) {x : String}, Expr.target? p.meaning = some x →
    (x ≠ "T" ∧ x ≠ "F") ∧ p.tokens = [.bare .name x]
  | ofFactor (ofUnary (ofApplied (ofPrimary (word y)))), x, h => by
    simp only [meaning, Expr.ofWord] at h
    by_cases ht : y = "T"
    · simp [ht, Expr.target?, Expr.name?, Form.bare] at h
    · by_cases hf : y = "F"
      · simp [hf, Expr.target?, Expr.name?, Form.bare] at h
      · simp only [Expr.target?, Expr.name?, Form.bare, ht, hf, if_false, Bool.false_eq_true,
          Option.some.injEq] at h
        rw [← h]
        exact ⟨⟨ht, hf⟩, rfl⟩
  | ofFactor (ofUnary (ofApplied (ofPrimary (group _)))), _, h => by
    simp [Expr.target?, Expr.group] at h
  | ofFactor (ofUnary (ofApplied (ofPrimary (number _)))), _, h
  | ofFactor (ofUnary (ofApplied (ofPrimary (string _)))), _, h
  | ofFactor (ofUnary (ofApplied (ofPrimary (list _)))), _, h
  | ofFactor (ofUnary (ofApplied (ofPrimary (dict _)))), _, h
  | ofFactor (ofUnary (ofApplied (call _ _))), _, h
  | ofFactor (ofUnary (ofApplied (index _ _))), _, h
  | ofFactor (ofUnary (ofApplied (member _ _))), _, h
  | ofFactor (ofUnary (signed _ _)), _, h
  | ofFactor (product _ _ _), _, h
  | sum _ _ _, _, h => by simp [Expr.target?, Expr.name?, Form.bare] at h

end Phrase

/-! ## Expressions -/

/-- A phrase that means `a` and opens at most `n` levels stands before `rest`. -/
def Derives (c : Category) (n : Nat) (ts : List Token) (a : c.Meaning) (rest : List Token) : Prop :=
  ∃ p : Phrase c, ts.map Token.face = p.tokens ++ rest.map Token.face ∧ p.meaning = a ∧ p.depth ≤ n

namespace Grammar

open Rule

/-- What is read one level further in is a phrase. -/
structure InnerDerives (n : Nat) : Prop where
  expression : ∀ {ts rest : List Token} {e : Expr}, expression n ts = .done e rest →
    Derives .expression n ts e rest ∧ Ends Kind.continues rest
  operand : ∀ {ts rest : List Token} {e : Expr}, (inner n).operand ts = .done e rest →
    ∃ m, n = m + 1 ∧ Derives .unary m ts e rest ∧ Ends Kind.applies rest

theorem nextItem_eq_done {n : Nat} {ts rest : List Token} {o : Option Expr}
    (h : nextItem (inner n) ts = .done o rest) :
    (o = none ∧ rest = ts) ∨
      ∃ e mid, o = some e ∧ ts.map Token.face = Mark.comma.token :: mid.map Token.face ∧
        expression n mid = .done e rest := by
  rw [nextItem, bind_eq_done] at h
  obtain ⟨b, mid, hb, h⟩ := h
  cases b with
  | true =>
    obtain ⟨t, ht, rfl⟩ := accept_eq_true hb
    obtain ⟨e, rest', he, hp⟩ := bind_eq_done.1 h
    obtain ⟨rfl, rfl⟩ := pure_eq_done.1 hp
    exact Or.inr ⟨e, mid, rfl, by rw [List.map_cons, Token.face_of_mark ht], he⟩
  | false =>
    obtain ⟨rfl, -⟩ := accept_eq_false hb
    obtain ⟨rfl, rfl⟩ := pure_eq_done.1 h
    exact Or.inl ⟨rfl, rfl⟩

theorem operation_eq_some {accepted : BinaryOp → Bool} {operand : Rule Expr} {op : BinaryOp}
    {e : Expr} {ts rest : List Token}
    (h : operation accepted operand ts = .done (some (op, e)) rest) :
    accepted op = true ∧ ∃ t mid, ts = t :: mid ∧ t.kind = .mark op.mark ∧
      operand mid = .done e rest := by
  cases ts with
  | nil => simp [operation, peek, bind_apply, binaryOp?, pure_apply] at h
  | cons t ts =>
    simp only [operation, peek, bind_apply, List.head?_cons, Option.map_some] at h
    cases hf : (binaryOp? (some t.kind)).filter accepted with
    | none => simp [hf, pure_apply] at h
    | some op' =>
      simp only [hf] at h
      obtain ⟨t', mid, ht, hm⟩ := bind_eq_done.1 h
      obtain ⟨e', rest', he, hp⟩ := bind_eq_done.1 hm
      obtain ⟨heq, rfl⟩ := pure_eq_done.1 hp
      obtain ⟨rfl, rfl⟩ := Prod.mk.inj (Option.some.inj heq)
      obtain ⟨rfl, rfl⟩ := Outcome.done.inj ht
      obtain ⟨hb, ha⟩ := Option.filter_eq_some_iff.1 hf
      refine ⟨ha, t, ts, rfl, ?_, he⟩
      simp only [binaryOp?] at hb
      split at hb
      · rename_i m hm
        rw [Option.some.inj hm, BinaryOp.ofMark?_eq_some.1 hb]
      · exact absurd hb (by simp)

theorem operation_eq_none {accepted : BinaryOp → Bool} {operand : Rule Expr} {ts rest : List Token}
    (h : operation accepted operand ts = .done none rest) :
    rest = ts ∧ Ends (fun k => (binaryOp? (some k)).any accepted) ts := by
  cases ts with
  | nil =>
    simp only [operation, peek, bind_apply, List.head?_nil, Option.map_none, binaryOp?,
      Option.filter_none, pure_apply, Outcome.done.injEq, true_and] at h
    exact ⟨h.symm, Token.ends_nil _⟩
  | cons t ts =>
    simp only [operation, peek, bind_apply, List.head?_cons, Option.map_some] at h
    cases hf : (binaryOp? (some t.kind)).filter accepted with
    | none =>
      simp only [hf, pure_apply, Outcome.done.injEq, true_and] at h
      refine ⟨h.symm, Token.ends_cons.2 ?_⟩
      cases hb : binaryOp? (some t.kind) with
      | none => rfl
      | some op =>
        rw [hb] at hf
        simpa [Option.filter] using hf
    | some op =>
      simp only [hf] at h
      obtain ⟨_, _, -, hm⟩ := bind_eq_done.1 h
      obtain ⟨_, _, -, hp⟩ := bind_eq_done.1 hm
      exact absurd (pure_eq_done.1 hp).1 (by simp)

section Inner

variable {n : Nat} (hn : InnerDerives n) {ts rest : List Token}
include hn

theorem derives_items : ∀ (es : List Expr) (e : Expr) (ts mid : List Token),
    Derives .expression n ts e mid → many (nextItem (inner n)) (fun _ => []) mid = .done es rest →
      Derives .items n ts (e :: es) rest
  | [], e, ts, mid, ⟨p, hp, hm, hd⟩, h => by
    rcases many_eq_done (takesIf_nextItem (innerOK n)) h with ⟨-, hi⟩ | ⟨_, _, _, ha, -⟩
    · rcases nextItem_eq_done hi with ⟨-, rfl⟩ | ⟨_, _, ha, -⟩
      · exact ⟨.lastItem p, hp, by rw [Phrase.meaning, hm], hd⟩
      · exact absurd ha (by simp)
    · exact absurd ha (by simp)
  | e' :: es, e, ts, mid, ⟨p, hp, hm, hd⟩, h => by
    rcases many_eq_done (takesIf_nextItem (innerOK n)) h with ⟨ha, -⟩ | ⟨_, mid', _, ha, hi, hes⟩
    · exact absurd ha (by simp)
    obtain ⟨rfl, rfl⟩ := List.cons.inj ha
    rcases nextItem_eq_done hi with ⟨ha, -⟩ | ⟨_, mid'', ha, hcomma, he⟩
    · exact absurd ha (by simp)
    obtain rfl := Option.some.inj ha
    obtain ⟨q, hq, hqm, hqd⟩ := derives_items es _ mid'' mid' (hn.expression he).1 hes
    refine ⟨.nextItem p q, ?_, by rw [Phrase.meaning, hm, hqm], Nat.max_le.2 ⟨hd, hqd⟩⟩
    rw [hp, hcomma, hq, Phrase.tokens, List.append_assoc, List.cons_append]

theorem derives_arguments {close : Mark} {es : List Expr}
    (h : items (inner n) close ts = .done es rest) : Derives .arguments n ts es rest := by
  rw [items, bind_eq_done] at h
  obtain ⟨b, mid, hb, h⟩ := h
  obtain ⟨rfl, -⟩ := nextIs_eq_done hb
  cases b with
  | true =>
    obtain ⟨rfl, rfl⟩ := pure_eq_done.1 h
    exact ⟨.noItems, rfl, rfl, Nat.zero_le n⟩
  | false =>
    obtain ⟨e, mid', he, hm⟩ := bind_eq_done.1 h
    obtain ⟨es', rest', hes, hp⟩ := bind_eq_done.1 hm
    obtain ⟨rfl, rfl⟩ := pure_eq_done.1 hp
    obtain ⟨p, hp, hm, hd⟩ := derives_items hn es' e _ mid' (hn.expression he).1 hes
    exact ⟨.someItems p, hp, hm, hd⟩

omit hn in
theorem keyed_eq_done {start : List Token} {key : Expr} {a : Entry}
    (h : keyed (inner n) start key ts = .done a rest) :
    (∃ mid value, ts.map Token.face = Mark.colon.token :: mid.map Token.face ∧
      expression n mid = .done value rest ∧ a = ⟨key.asKey, value⟩) ∨
    (∃ mid value, ts.map Token.face = Mark.walrus.token :: mid.map Token.face ∧
      expression n mid = .done value rest ∧ a = ⟨key, value⟩ ∧ key.name?.isSome = true) := by
  cases ts with
  | nil => simp [keyed, bind_apply, pending, take] at h
  | cons t ts =>
    rw [keyed, bind_pending, bind_take] at h
    generalize hk : t.kind = k at h
    split at h
    · obtain ⟨value, rest', hv, hp⟩ := bind_eq_done.1 h
      obtain ⟨rfl, rfl⟩ := pure_eq_done.1 hp
      exact Or.inl ⟨ts, value, by rw [List.map_cons, Token.face_of_mark hk], hv, rfl⟩
    · obtain ⟨value, rest', hv, hp⟩ := bind_eq_done.1 h
      cases hx : key.name? with
      | none => simp [hx, haltAt] at hp
      | some x =>
        simp only [hx] at hp
        obtain ⟨rfl, rfl⟩ := pure_eq_done.1 hp
        exact Or.inr ⟨ts, value, by rw [List.map_cons, Token.face_of_mark hk], hv, rfl, rfl⟩
    · simp [haltAt] at h

/-- A key that was read makes an entry with what `keyed` reads behind it. -/
theorem derives_keyed {start mid : List Token} {key : Expr} {a : Entry}
    (hkey : Derives .expression n ts key mid) (h : keyed (inner n) start key mid = .done a rest) :
    Derives .entry n ts a rest := by
  obtain ⟨p, hp, rfl, hd⟩ := hkey
  rcases keyed_eq_done h with ⟨mid', value, hsep, hv, rfl⟩ | ⟨mid', value, hsep, hv, rfl, hx⟩
  · obtain ⟨⟨q, hq, rfl, hqd⟩, -⟩ := hn.expression hv
    refine ⟨.colon p q, ?_, rfl, Nat.max_le.2 ⟨hd, hqd⟩⟩
    rw [hp, hsep, hq, Phrase.tokens, List.append_assoc, List.cons_append]
  · obtain ⟨⟨q, hq, rfl, hqd⟩, -⟩ := hn.expression hv
    obtain ⟨k, hkt, hkm, hkd⟩ := p.exists_key hx
    refine ⟨.walrus k q, ?_, by rw [Phrase.meaning, hkm], Nat.max_le.2 ⟨hkd ▸ hd, hqd⟩⟩
    rw [hp, hsep, hq, Phrase.tokens, hkt, List.append_assoc, List.cons_append]

omit hn in
theorem entry_of_closeBrace
    (h : (ts.head?.map Token.kind == some (.mark .closeBrace)) = true) :
    entry (inner n) ts = .done none ts := by
  have hb : nextIs (.mark .closeBrace) ts = .done true ts := by rw [nextIs, h]
  rw [entry, bind_of_done _ hb]
  rfl

/-- Behind an entry stood a comma, which was taken, or there stands the closing brace. -/
theorem derives_entry {o : Option Entry} (h : entry (inner n) ts = .done o rest) :
    (o = none ∧ rest = ts) ∨ ∃ a, o = some a ∧
      ((∃ mid, Derives .entry n ts a mid ∧
        mid.map Token.face = Mark.comma.token :: rest.map Token.face) ∨
      (Derives .entry n ts a rest ∧
        (rest.head?.map Token.kind == some (.mark .closeBrace)) = true)) := by
  rw [entry, bind_eq_done] at h
  obtain ⟨b, mid, hb, h⟩ := h
  obtain ⟨rfl, -⟩ := nextIs_eq_done hb
  cases b with
  | true =>
    obtain ⟨rfl, rfl⟩ := pure_eq_done.1 h
    exact Or.inl ⟨rfl, rfl⟩
  | false =>
    change (pending >>= _) _ = _ at h
    rw [bind_pending, bind_eq_done] at h
    obtain ⟨key, mid', hk, hrest⟩ := h
    obtain ⟨hkey, -⟩ := hn.expression hk
    obtain ⟨c, mid'', hc, hcomma⟩ := bind_eq_done.1 hrest
    cases c with
    | true =>
      obtain ⟨t, ht, rfl⟩ := accept_eq_true hc
      obtain ⟨rfl, rfl⟩ := pure_eq_done.1 hcomma
      obtain ⟨p, hp, rfl, hd⟩ := hkey
      refine Or.inr ⟨_, rfl, Or.inl ⟨_, ⟨.alone p, hp, rfl, hd⟩, ?_⟩⟩
      rw [List.map_cons, Token.face_of_mark ht]
    | false =>
      obtain ⟨rfl, -⟩ := accept_eq_false hc
      obtain ⟨last, mid'', hl, hbrace⟩ := bind_eq_done.1 hcomma
      obtain ⟨rfl, hhead⟩ := nextIs_eq_done hl
      cases last with
      | true =>
        obtain ⟨rfl, rfl⟩ := pure_eq_done.1 hbrace
        obtain ⟨p, hp, rfl, hd⟩ := hkey
        exact Or.inr ⟨_, rfl, Or.inr ⟨⟨.alone p, hp, rfl, hd⟩, hhead⟩⟩
      | false =>
        obtain ⟨a, mid'', hkeyed, hmid⟩ := bind_eq_done.1 hbrace
        have hentry := derives_keyed hn hkey hkeyed
        obtain ⟨last, mid3, hl, hend⟩ := bind_eq_done.1 hmid
        obtain ⟨rfl, hhead⟩ := nextIs_eq_done hl
        cases last with
        | true =>
          obtain ⟨rfl, rfl⟩ := pure_eq_done.1 hend
          exact Or.inr ⟨a, rfl, Or.inr ⟨hentry, hhead⟩⟩
        | false =>
          obtain ⟨_, _, hexpect, hpure⟩ := bind_eq_done.1 hend
          obtain ⟨rfl, rfl⟩ := pure_eq_done.1 hpure
          exact Or.inr ⟨a, rfl, Or.inl ⟨_, hentry, expect_eq_done hexpect⟩⟩

theorem derives_entries : ∀ (es : List Entry) (ts : List Token),
    many (entry (inner n)) (fun _ => []) ts = .done es rest → Derives .entries n ts es rest
  | [], ts, h => by
    rcases many_eq_done (takesIf_entry (innerOK n)) h with ⟨-, hi⟩ | ⟨_, _, _, ha, -⟩
    · rcases derives_entry hn hi with ⟨-, rfl⟩ | ⟨_, ha, -⟩
      · exact ⟨.noEntries, rfl, rfl, Nat.zero_le n⟩
      · exact absurd ha (by simp)
    · exact absurd ha (by simp)
  | e :: es, ts, h => by
    rcases many_eq_done (takesIf_entry (innerOK n)) h with ⟨ha, -⟩ | ⟨_, mid, _, ha, hi, hes⟩
    · exact absurd ha (by simp)
    obtain ⟨rfl, rfl⟩ := List.cons.inj ha
    rcases derives_entry hn hi with ⟨ha, -⟩ | ⟨_, ha, hentry⟩
    · exact absurd ha (by simp)
    obtain rfl := Option.some.inj ha
    rcases hentry with ⟨mid', ⟨p, hp, rfl, hd⟩, hcomma⟩ | ⟨⟨p, hp, rfl, hd⟩, hbrace⟩
    · obtain ⟨q, hq, rfl, hqd⟩ := derives_entries es mid hes
      refine ⟨.nextEntry p q, ?_, rfl, Nat.max_le.2 ⟨hd, hqd⟩⟩
      rw [hp, hcomma, hq, Phrase.tokens, List.append_assoc, List.cons_append]
    · -- Only the last entry lacks the comma: the brace ends the repetition.
      have hnil : many (entry (inner n)) (fun _ => []) mid = .done [] mid :=
        many_of_none (entry_of_closeBrace hbrace)
      rw [hes] at hnil
      obtain ⟨rfl, rfl⟩ := Outcome.done.inj hnil
      exact ⟨.lastEntry p, hp, rfl, hd⟩

theorem derives_primary {e : Expr} (h : primary (inner n) ts = .done e rest) :
    Derives .primary n ts e rest := by
  cases ts with
  | nil => simp [primary, bind_apply, pending, take] at h
  | cons t ts =>
    rw [primary, bind_pending, bind_take] at h
    generalize hk : t.kind = k at h
    split at h
    · obtain ⟨rfl, rfl⟩ := pure_eq_done.1 h
      refine ⟨.number t.lexeme, ?_, rfl, Nat.zero_le n⟩
      rw [List.map_cons, Token.face_of_text (by rw [hk]; rfl), Token.unplaced, hk]
      rfl
    · obtain ⟨rfl, rfl⟩ := pure_eq_done.1 h
      refine ⟨.string t.lexeme, ?_, rfl, Nat.zero_le n⟩
      rw [List.map_cons, Token.face_of_text (by rw [hk]; rfl), Token.unplaced, hk]
      rfl
    · obtain ⟨rfl, rfl⟩ := pure_eq_done.1 h
      refine ⟨.word t.lexeme, ?_, rfl, Nat.zero_le n⟩
      rw [List.map_cons, Token.face_of_text (by rw [hk]; rfl), Token.unplaced, hk]
      rfl
    · obtain ⟨e, mid, he, hclose, rfl⟩ := closed_eq_done h
      obtain ⟨⟨p, hp, rfl, hd⟩, -⟩ := hn.expression he
      refine ⟨.group p, ?_, rfl, hd⟩
      simp [Token.face_of_mark hk, hp, hclose]
    · obtain ⟨es, mid, hes, hclose, rfl⟩ := closed_eq_done h
      obtain ⟨p, hp, rfl, hd⟩ := derives_entries hn es ts hes
      refine ⟨.dict p, ?_, rfl, hd⟩
      simp [Token.face_of_mark hk, hp, hclose]
    · obtain ⟨es, mid, hes, hclose, rfl⟩ := closed_eq_done h
      obtain ⟨p, hp, rfl, hd⟩ := derives_arguments hn hes
      refine ⟨.list p, ?_, rfl, hd⟩
      simp [Token.face_of_mark hk, hp, hclose]
    · simp [haltAt] at h
    · simp [haltAt] at h

/-- What was read makes a longer phrase with a call, an index or a member behind it. -/
theorem derives_suffix {start : List Token} {e : Expr} {s : Suffix}
    (he : Derives .applied n start e ts) (h : suffix (inner n) ts = .done (some s) rest) :
    Derives .applied n start (s.attach e) rest := by
  obtain ⟨p, hp, rfl, hd⟩ := he
  cases ts with
  | nil => simp [suffix, peek, bind_apply, pure_apply] at h
  | cons t ts =>
    simp only [suffix, peek, bind_apply, List.head?_cons, Option.map_some] at h
    generalize hk : some t.kind = k at h
    split at h
    · change (do let args ← items (inner n) .closeParen; expect .closeParen
                 return some (Suffix.call args) : Rule _) ts = _ at h
      obtain ⟨args, mid, hargs, hclose, hs⟩ := closed_eq_done h
      obtain rfl := Option.some.inj hs
      obtain ⟨q, hq, rfl, hqd⟩ := derives_arguments hn hargs
      refine ⟨.call p q, ?_, rfl, Nat.max_le.2 ⟨hd, hqd⟩⟩
      simp [hp, Token.face_of_mark (Option.some.inj hk), hq, hclose]
    · change (do let i ← expression n; expect .closeBracket
                 return some (Suffix.index i) : Rule _) ts = _ at h
      obtain ⟨i, mid, hi, hclose, hs⟩ := closed_eq_done h
      obtain rfl := Option.some.inj hs
      obtain ⟨⟨q, hq, rfl, hqd⟩, -⟩ := hn.expression hi
      refine ⟨.index p q, ?_, rfl, Nat.max_le.2 ⟨hd, hqd⟩⟩
      simp [hp, Token.face_of_mark (Option.some.inj hk), hq, hclose]
    · change (do let x ← memberName; return some (Suffix.member x) : Rule _) ts = _ at h
      obtain ⟨x, mid, hx, hpure⟩ := bind_eq_done.1 h
      obtain ⟨hs, rfl⟩ := pure_eq_done.1 hpure
      obtain rfl := Option.some.inj hs
      cases ts with
      | nil => simp [memberName, pending, take, bind_apply] at hx
      | cons u us =>
        rw [memberName, bind_pending, bind_take] at hx
        split at hx
        · rename_i hu
          obtain ⟨rfl, rfl⟩ := pure_eq_done.1 hx
          refine ⟨.member p u.lexeme, ?_, rfl, hd⟩
          have hface := Token.face_of_text (t := u) (by rw [hu]; rfl)
          simp [hp, Token.face_of_mark (Option.some.inj hk), hface, Token.unplaced, hu]
        · simp [haltAt] at hx
    · simp [pure_apply] at h

omit hn in
theorem suffix_eq_none (h : suffix (inner n) ts = .done none rest) :
    rest = ts ∧ Ends Kind.applies ts := by
  cases ts with
  | nil =>
    simp only [suffix, peek, bind_apply, List.head?_nil, Option.map_none, pure_apply,
      Outcome.done.injEq, true_and] at h
    exact ⟨h.symm, Token.ends_nil _⟩
  | cons t ts =>
    simp only [suffix, peek, bind_apply, List.head?_cons, Option.map_some] at h
    generalize hk : some t.kind = k at h
    split at h
    · change (do let args ← items (inner n) .closeParen; expect .closeParen
                 return some (Suffix.call args) : Rule _) ts = _ at h
      obtain ⟨_, _, -, -, hs⟩ := closed_eq_done h
      exact absurd hs (by simp)
    · change (do let i ← expression n; expect .closeBracket
                 return some (Suffix.index i) : Rule _) ts = _ at h
      obtain ⟨_, _, -, -, hs⟩ := closed_eq_done h
      exact absurd hs (by simp)
    · change (do let x ← memberName; return some (Suffix.member x) : Rule _) ts = _ at h
      obtain ⟨_, _, -, hpure⟩ := bind_eq_done.1 h
      exact absurd (pure_eq_done.1 hpure).1 (by simp)
    · rename_i hparen hbracket hdot
      refine ⟨(pure_eq_done.1 h).2.symm, Token.ends_cons.2 ?_⟩
      unfold Kind.applies
      split
      · rename_i ht
        exact absurd (hk.symm.trans (congrArg some ht)) hparen
      · rename_i ht
        exact absurd (hk.symm.trans (congrArg some ht)) hbracket
      · rename_i ht
        exact absurd (hk.symm.trans (congrArg some ht)) hdot
      · rfl

theorem derives_applied {e : Expr} (h : applied (inner n) ts = .done e rest) :
    Derives .applied n ts e rest ∧ Ends Kind.applies rest := by
  rw [applied, bind_eq_done] at h
  obtain ⟨first, mid, hf, h⟩ := h
  obtain ⟨suffixes, rest', hs, hpure⟩ := bind_eq_done.1 h
  obtain ⟨rfl, rfl⟩ := pure_eq_done.1 hpure
  obtain ⟨p, hp, rfl, hd⟩ := derives_primary hn hf
  obtain ⟨last, hlast, hnone⟩ := many_foldl (takesIf_suffix (innerOK n))
    (P := fun e us => Derives .applied n ts e us) (f := Suffix.attach)
    (fun _ _ _ _ hsome he => derives_suffix hn he hsome)
    suffixes _ mid _ hs ⟨.ofPrimary p, hp, rfl, hd⟩
  obtain ⟨rfl, hends⟩ := suffix_eq_none hnone
  exact ⟨hlast, hends⟩

theorem derives_unary {e : Expr} (h : unary (inner n) ts = .done e rest) :
    Derives .unary n ts e rest ∧ Ends Kind.applies rest := by
  cases ts with
  | nil => simp [unary, peek, bind_apply, unaryOp?, applied, primary, pending, take] at h
  | cons t ts =>
    simp only [unary, peek, bind_apply, List.head?_cons, Option.map_some] at h
    cases ho : unaryOp? (some t.kind) with
    | none =>
      simp only [ho] at h
      obtain ⟨⟨p, hp, rfl, hd⟩, hends⟩ := derives_applied hn h
      exact ⟨⟨.ofApplied p, hp, rfl, hd⟩, hends⟩
    | some op =>
      simp only [ho] at h
      change ((inner n).operand >>= fun v => pure (Form.unary op v).bare) ts = _ at h
      obtain ⟨operand, mid, hv, hpure⟩ := bind_eq_done.1 h
      obtain ⟨rfl, rfl⟩ := pure_eq_done.1 hpure
      obtain ⟨m, rfl, ⟨p, hp, rfl, hd⟩, hends⟩ := hn.operand hv
      have hmark : t.kind = .mark op.mark := by
        unfold unaryOp? at ho
        split at ho
        · rename_i hk
          rw [Option.some.inj hk, UnaryOp.ofMark?_eq_some.1 ho]
        · exact absurd ho (by simp)
      refine ⟨⟨.signed op p, ?_, rfl, Nat.succ_le_succ hd⟩, hends⟩
      simp [Token.face_of_mark hmark, hp]

/-- One operator that binds tightly and its operand make a longer factor. -/
theorem derives_product {start : List Token} {e right : Expr} {op : BinaryOp}
    (he : Derives .factor n start e ts)
    (h : operation BinaryOp.isMultiplicative (unary (inner n)) ts = .done (some (op, right)) rest) :
    Derives .factor n start (Form.binary op e right).bare rest ∧ Ends Kind.applies rest := by
  obtain ⟨p, hp, rfl, hd⟩ := he
  obtain ⟨hop, t, mid, rfl, ht, hr⟩ := operation_eq_some h
  obtain ⟨⟨q, hq, rfl, hqd⟩, hends⟩ := derives_unary hn hr
  have htier : op.tier = 2 := BinaryOp.tier_eq_two_iff.2 hop
  refine ⟨⟨.product p ⟨op, htier⟩ q, ?_, rfl, Nat.max_le.2 ⟨hd, hqd⟩⟩, hends⟩
  simp [hp, Token.face_of_mark ht, hq]

theorem derives_factor {e : Expr} (h : factor (inner n) ts = .done e rest) :
    Derives .factor n ts e rest ∧ Ends Kind.multiplies rest := by
  rw [factor, bind_eq_done] at h
  obtain ⟨first, mid, hf, h⟩ := h
  obtain ⟨tail, rest', hs, hpure⟩ := bind_eq_done.1 h
  obtain ⟨rfl, rfl⟩ := pure_eq_done.1 hpure
  obtain ⟨⟨p, hp, rfl, hd⟩, hends⟩ := derives_unary hn hf
  obtain ⟨last, ⟨hlast, happlies⟩, hnone⟩ :=
    many_foldl (takesIf_operation _ (keeps_unary (innerOK n)))
    (P := fun e us => Derives .factor n ts e us ∧ Ends Kind.applies us)
    (f := fun left r => (Form.binary r.1 left r.2).bare)
    (fun _ _ _ _ hsome he => derives_product hn he.1 hsome)
    tail _ mid _ hs ⟨⟨.ofUnary p, hp, rfl, hd⟩, hends⟩
  obtain ⟨rfl, hop⟩ := operation_eq_none hnone
  refine ⟨hlast, fun t ht => ?_⟩
  simp only [Kind.multiplies, happlies t ht, hop t ht, Bool.or_self]

/-- After a factor an operator is one of the others, and makes a longer chain with its operand. -/
theorem derives_sum {start : List Token} {e right : Expr} {op : BinaryOp}
    (he : Derives .binary n start e ts) (hends : Ends Kind.multiplies ts)
    (h : operation (fun _ => true) (factor (inner n)) ts = .done (some (op, right)) rest) :
    Derives .binary n start (Form.binary op e right).bare rest ∧ Ends Kind.multiplies rest := by
  obtain ⟨p, hp, rfl, hd⟩ := he
  obtain ⟨-, t, mid, rfl, ht, hr⟩ := operation_eq_some h
  rw [Token.ends_cons, ht, multiplies_mark_iff] at hends
  obtain ⟨⟨q, hq, rfl, hqd⟩, hends'⟩ := derives_factor hn hr
  refine ⟨⟨.sum p ⟨op, hends⟩ q, ?_, rfl, Nat.max_le.2 ⟨hd, hqd⟩⟩, hends'⟩
  simp [hp, Token.face_of_mark ht, hq]

theorem derives_binary {e : Expr} (h : binary (inner n) ts = .done e rest) :
    Derives .binary n ts e rest ∧ Ends Kind.operates rest := by
  rw [binary, bind_eq_done] at h
  obtain ⟨first, mid, hf, h⟩ := h
  obtain ⟨tail, rest', hs, hpure⟩ := bind_eq_done.1 h
  obtain ⟨rfl, rfl⟩ := pure_eq_done.1 hpure
  obtain ⟨⟨p, hp, rfl, hd⟩, hends⟩ := derives_factor hn hf
  obtain ⟨last, ⟨hlast, hmult⟩, hnone⟩ :=
    many_foldl (takesIf_operation _ (keeps_factor (innerOK n)))
    (P := fun e us => Derives .binary n ts e us ∧ Ends Kind.multiplies us)
    (f := fun left r => (Form.binary r.1 left r.2).bare)
    (fun _ _ _ _ hsome he => derives_sum hn he.1 he.2 hsome)
    tail _ mid _ hs ⟨⟨.ofFactor p, hp, rfl, hd⟩, hends⟩
  obtain ⟨rfl, hop⟩ := operation_eq_none hnone
  refine ⟨hlast, fun t ht => ?_⟩
  have hb : (binaryOp? (some t.kind)).any (fun _ => true) = false := hop t ht
  cases hbin : binaryOp? (some t.kind) with
  | some op => rw [hbin] at hb; exact absurd hb (by simp)
  | none => simp [Kind.operates, hmult.applies t ht, hbin]

theorem derives_assignment {e : Expr} (h : assignment (inner n) ts = .done e rest) :
    Derives .expression (n + 1) ts e rest ∧ Ends Kind.continues rest := by
  rw [assignment, bind_pending, bind_eq_done] at h
  obtain ⟨target, mid, ht, h⟩ := h
  obtain ⟨⟨p, hp, rfl, hd⟩, hends⟩ := derives_binary hn ht
  obtain ⟨b, mid', hb, h'⟩ := bind_eq_done.1 h
  obtain ⟨rfl, hhead⟩ := nextIs_eq_done hb
  cases b with
  | true =>
    cases hx : Expr.target? p.meaning with
    | none => simp [hx, haltAt] at h'
    | some x =>
      simp only [hx, if_true] at h'
      obtain ⟨t, us, htake, h2⟩ := bind_eq_done.1 h'
      obtain ⟨value, rest', hv, hpure⟩ := bind_eq_done.1 h2
      obtain ⟨rfl, rfl⟩ := pure_eq_done.1 hpure
      obtain ⟨⟨q, hq, rfl, hqd⟩, hends'⟩ := hn.expression hv
      obtain ⟨hword, htokens⟩ := p.tokens_of_target hx
      refine ⟨⟨.assign ⟨x, hword⟩ q, ?_, rfl, Nat.succ_le_succ hqd⟩, hends'⟩
      cases mid' with
      | nil => simp [take] at htake
      | cons u us' =>
        obtain ⟨rfl, rfl⟩ := Outcome.done.inj htake
        have hequal : u.kind = .mark .equal := by simpa using hhead
        simp [hp, htokens, Token.face_of_mark hequal, hq]
  | false =>
    obtain ⟨rfl, rfl⟩ := pure_eq_done.1 h'
    refine ⟨⟨.plain p, hp, rfl, Nat.succ_le_succ hd⟩, fun t ht => ?_⟩
    have hequal := ends_of_nextIs hhead t ht
    simp only [Kind.continues, hends t ht, hequal, Bool.or_self]

end Inner

theorem innerDerives : ∀ n, InnerDerives n
  | 0 =>
    ⟨fun h => by simp [expression, inner, tooDeep] at h, fun h => by simp [inner, tooDeep] at h⟩
  | n + 1 =>
    ⟨derives_assignment (innerDerives n), fun h => ⟨n, rfl, derives_unary (innerDerives n) h⟩⟩

theorem derives_expression {n : Nat} {ts rest : List Token} {e : Expr}
    (h : expression n ts = .done e rest) :
    Derives .expression n ts e rest ∧ Ends Kind.continues rest := (innerDerives n).expression h

/-! ## Statements -/

/-- The same for statements, with what `Phrase.Greedy` asks for. -/
def DerivesStmt (c : Category) (n : Nat) (ts : List Token) (a : c.Meaning) (rest : List Token) :
    Prop :=
  ∃ p : Phrase c, ts.map Token.face = p.tokens ++ rest.map Token.face ∧ p.meaning = a ∧
    p.depth ≤ n ∧ p.Unbraced ∧ p.Greedy ∧ Closes p rest

/-- The rule looks whether the statements have ended, and leaves all tokens. -/
def Looks (stop : Rule Bool) : Prop := ∀ ts b rest, stop ts = .done b rest → rest = ts

theorem looks_nextIs (k : Kind) : Looks (nextIs k) := fun _ _ _ h => (nextIs_eq_done h).1

theorem looks_atEnd : Looks atEnd := fun _ _ _ h => (Outcome.done.inj h).2.symm

/-- Nothing goes on with a phrase that ends in neither an expression nor a conditional. -/
theorem closes_of_false {c : Category} {p : Phrase c} (he : p.endsInExpr = false)
    (hl : p.lacksElse = false) (rest : List Token) : Closes p rest := by
  refine ⟨fun h => ?_, fun h => ?_⟩
  · rw [he] at h
    exact absurd h Bool.false_ne_true
  · rw [hl] at h
    exact absurd h Bool.false_ne_true

section Statements

variable {n : Nat} {rest : List Token}
  (hstmt : ∀ {ts rest : List Token} {s : Stmt}, statement n ts = .done s rest →
    DerivesStmt .statement n ts s rest)
include hstmt

theorem derives_statements {stop : Rule Bool} (hstop : Looks stop) (hk : Keeps stop) :
    ∀ (ss : Block) (ts : List Token), statements stop (statement n) ts = .done ss rest →
      DerivesStmt .statements n ts ss rest ∧ stop rest = .done true rest := by
  intro ss ts h
  induction ss generalizing ts with
  | nil =>
    rcases many_eq_done (takesIf_statementUnless hk (keeps_statement n) (takes_statement n)) h
      with ⟨-, hi⟩ | ⟨_, _, _, ha, -⟩
    · rw [statementUnless, bind_eq_done] at hi
      obtain ⟨b, mid, hb, hi⟩ := hi
      obtain rfl := hstop _ _ _ hb
      cases b with
      | true =>
        obtain ⟨-, rfl⟩ := pure_eq_done.1 hi
        exact ⟨⟨.noStatements, rfl, rfl, Nat.zero_le n, trivial, trivial,
          closes_of_false rfl rfl _⟩, hb⟩
      | false =>
        obtain ⟨_, _, -, hpure⟩ := bind_eq_done.1 hi
        exact absurd (pure_eq_done.1 hpure).1 (by simp)
    · exact absurd ha (by simp)
  | cons s ss ih =>
    rcases many_eq_done (takesIf_statementUnless hk (keeps_statement n) (takes_statement n)) h
      with ⟨ha, -⟩ | ⟨_, mid, _, ha, hi, hss⟩
    · exact absurd ha (by simp)
    obtain ⟨rfl, rfl⟩ := List.cons.inj ha
    rw [statementUnless, bind_eq_done] at hi
    obtain ⟨b, mid', hb, hi⟩ := hi
    obtain rfl := hstop _ _ _ hb
    cases b with
    | true => exact absurd (pure_eq_done.1 hi).1 (by simp)
    | false =>
      obtain ⟨s', mid'', hs, hpure⟩ := bind_eq_done.1 hi
      obtain ⟨hs', rfl⟩ := pure_eq_done.1 hpure
      obtain rfl := Option.some.inj hs'
      obtain ⟨p, hp, rfl, hd, hu, hg, hc⟩ := hstmt hs
      obtain ⟨⟨q, hq, rfl, hqd, hqu, hqg, -⟩, hend⟩ := ih _ hss
      have hnext : p.endsInExpr = true → Ends Kind.continues q.tokens := by
        intro hexpr
        have hends := Token.ends_map_face.2 (hc.1 hexpr)
        rw [hq] at hends
        exact hends.of_append
      refine ⟨⟨.nextStatement p q, ?_, rfl, Nat.max_le.2 ⟨hd, hqd⟩, ⟨hu, hqu⟩,
        ⟨hg, hnext, hqg⟩, closes_of_false rfl rfl _⟩, hend⟩
      rw [hp, hq, Phrase.tokens, List.append_assoc]

theorem derives_block {ts : List Token} {b : Block}
    (h : block (statement n) ts = .done b rest) : DerivesStmt .block n ts b rest := by
  rw [block, bind_eq_done] at h
  obtain ⟨c, mid, hc, h⟩ := h
  cases c with
  | true =>
    obtain ⟨t, ht, rfl⟩ := accept_eq_true hc
    obtain ⟨ss, mid', hss, hclose, rfl⟩ := closed_eq_done h
    obtain ⟨⟨p, hp, rfl, hd, hu, hg, -⟩, -⟩ :=
      derives_statements hstmt (looks_nextIs _) (keeps_nextIs _) ss mid hss
    refine ⟨.braces p, ?_, rfl, hd, hu, hg, closes_of_false rfl rfl _⟩
    simp [Token.face_of_mark ht, hp, hclose]
  | false =>
    obtain ⟨rfl, hbrace⟩ := accept_eq_false hc
    obtain ⟨s, rest', hs, hpure⟩ := bind_eq_done.1 h
    obtain ⟨rfl, rfl⟩ := pure_eq_done.1 hpure
    obtain ⟨p, hp, rfl, hd, hu, hg, hcl⟩ := hstmt hs
    have hbrace' : Ends (· == .mark .openBrace) p.tokens := by
      rw [← Token.ends_map_face, hp] at hbrace
      exact hbrace.of_append
    exact ⟨.single p, hp, rfl, hd, ⟨hbrace', hu⟩, hg, hcl⟩

theorem derives_conditional {ts : List Token} {s : Stmt}
    (hif : ts.head?.map Token.kind = some (.keyword .ifWord))
    (h : conditional (n + 1) ts = .done s rest) : DerivesStmt .statement (n + 1) ts s rest := by
  cases ts with
  | nil => exact absurd hif (by simp)
  | cons t ts =>
    have ht : t.kind = .keyword .ifWord := by simpa using hif
    change conditionalOf (expression n) (statement n) _ = _ at h
    rw [conditionalOf, bind_take, bind_eq_done] at h
    obtain ⟨_, mid, hopen, h⟩ := h
    obtain ⟨c, mid', hc, h1⟩ := bind_eq_done.1 h
    obtain ⟨_, mid'', hclose, h2⟩ := bind_eq_done.1 h1
    obtain ⟨body, after, hbody, h3⟩ := bind_eq_done.1 h2
    obtain ⟨⟨p, hp, rfl, hd⟩, -⟩ := derives_expression hc
    obtain ⟨q, hq, rfl, hqd, hqu, hqg, hqc⟩ := derives_block hstmt hbody
    obtain ⟨e, after', he, h4⟩ := bind_eq_done.1 h3
    cases e with
    | true =>
      obtain ⟨u, hu, rfl⟩ := accept_eq_true he
      obtain ⟨other, rest', ho, hpure⟩ := bind_eq_done.1 h4
      obtain ⟨rfl, rfl⟩ := pure_eq_done.1 hpure
      have hother : block (statement n) after' = .done other rest' := by
        simp only [recording] at ho
        split at ho
        · rename_i heq
          rw [heq, ho]
        · simp at ho
      obtain ⟨r, hr, rfl, hrd, hru, hrg, hrc⟩ := derives_block hstmt hother
      -- An `else` follows the body, so the body does not lack one.
      have hlacks : q.lacksElse = false := by
        cases hl : q.lacksElse with
        | false => rfl
        | true =>
          have := Token.ends_cons.1 (hqc.2 hl)
          rw [hu] at this
          exact absurd this (by decide)
      refine ⟨.condElse p q r, ?_, rfl,
        Nat.succ_le_succ (Nat.max_le.2 ⟨hd, Nat.max_le.2 ⟨hqd, hrd⟩⟩), ⟨hqu, hru⟩,
        ⟨hqg, hlacks, hrg⟩, hrc⟩
      simp [Token.face_of_keyword ht, expect_eq_done hopen, hp, expect_eq_done hclose, hq,
        Token.face_of_keyword hu, hr]
    | false =>
      obtain ⟨rfl, helse⟩ := accept_eq_false he
      obtain ⟨rfl, rfl⟩ := pure_eq_done.1 h4
      refine ⟨.cond p q, ?_, rfl, Nat.succ_le_succ (Nat.max_le.2 ⟨hd, hqd⟩), hqu, hqg,
        hqc.1, fun _ => helse⟩
      simp [Token.face_of_keyword ht, expect_eq_done hopen, hp, expect_eq_done hclose, hq]

end Statements

/-- A statement that is no conditional. -/
theorem derives_oneOf {n : Nat} {ts rest : List Token} {s : Stmt}
    (hif : ts.head?.map Token.kind ≠ some (.keyword .ifWord))
    (h : statement n ts = .done s rest) : DerivesStmt .statement n ts s rest := by
  cases ts with
  | nil =>
    change (expression n >>= fun e => pure (Stmt.expr e)) [] = _ at h
    obtain ⟨e, mid, he, -⟩ := bind_eq_done.1 h
    obtain ⟨⟨p, hp, -⟩, -⟩ := derives_expression he
    obtain ⟨t, us, ht, -⟩ := p.starts_tokens rfl
    exact absurd hp (by simp [ht])
  | cons t ts =>
    simp only [statement, oneOf, peek, bind_apply, List.head?_cons, Option.map_some] at h
    generalize hk : some t.kind = k at h
    split at h
    · exact absurd hk (by simpa using hif)
    · obtain ⟨rfl, rfl⟩ := Outcome.done.inj h
      have hcomment : t.kind = .comment := by simpa using hk
      refine ⟨.comment t.lexeme, ?_, rfl, Nat.zero_le n, trivial, trivial,
        closes_of_false rfl rfl _⟩
      rw [List.map_cons, Token.face_of_text (by rw [hcomment]; rfl), Token.unplaced, hcomment]
      rfl
    · change (expression n >>= fun e => pure (Stmt.expr e)) (t :: ts) = _ at h
      obtain ⟨e, mid, he, hpure⟩ := bind_eq_done.1 h
      obtain ⟨rfl, rfl⟩ := pure_eq_done.1 hpure
      obtain ⟨⟨p, hp, rfl, hd⟩, hends⟩ := derives_expression he
      exact ⟨.expr p, hp, rfl, hd, trivial, trivial, fun _ => hends,
        fun h => absurd h Bool.false_ne_true⟩

theorem derives_statement : ∀ (n : Nat) {ts rest : List Token} {s : Stmt},
    statement n ts = .done s rest → DerivesStmt .statement n ts s rest := by
  intro n
  induction n with
  | zero =>
    intro ts rest s h
    refine derives_oneOf (fun hif => ?_) h
    cases ts with
    | nil => exact absurd hif (by simp)
    | cons t ts =>
      simp only [statement, oneOf, peek, bind_apply, hif] at h
      exact absurd h (by simp [conditional, tooDeep])
  | succ n ih =>
    intro ts rest s h
    by_cases hif : ts.head?.map Token.kind = some (.keyword .ifWord)
    · refine derives_conditional ih hif ?_
      simp only [statement, oneOf, peek, bind_apply, hif] at h
      exact h
    · exact derives_oneOf hif h

/-- A program that is read is read to the end. -/
theorem rest_of_program_done {n : Nat} {ts rest : List Token} {b : Block}
    (h : program n ts = .done b rest) : rest = [] := by
  have hend := (derives_statements (derives_statement n) looks_atEnd keeps_atEnd b ts h).2
  simpa [atEnd] using hend

/-- A program that is read is a greedy phrase. -/
theorem program_grammatical {n : Nat} {ts rest : List Token} {b : Block}
    (h : program n ts = .done b rest) :
    ∃ p : Phrase .statements, p.Unbraced ∧ p.Greedy ∧ p.tokens = ts.map Token.face ∧
      p.meaning = b ∧ p.depth ≤ n := by
  obtain ⟨⟨p, hp, hm, hd, hu, hg, -⟩, -⟩ :=
    derives_statements (derives_statement n) looks_atEnd keeps_atEnd b ts h
  obtain rfl := rest_of_program_done h
  exact ⟨p, hu, hg, by simp [hp], hm, hd⟩

end Grammar

end Offside
