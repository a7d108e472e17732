import Offside.Grammar.Progress
import Offside.Proofs.Placed
import Offside.Program

/-!
# The limit on nesting

Two readings of the same tokens, with more levels left in the second, go alike until the first one
runs out of levels (`Outcome.Relaxes`). From there on the second can come to anything, but it has
already got as far as the first. At the end of the input it makes no difference which rule is
stopped and why: there is no token to complain about.

A rule opens a level only behind a token that it has taken since it opened the last one, so to run
out of `m` levels at least `m` tokens must have been taken. Both are closed under the combinators
(`Rule.Limited`), and so hold of every rule.
-/

namespace Offside

/-- What came of a rule and what came of it with more levels left: the same, or both stopped at the
end of the input, or the nesting stopped the first, and the second got at least as far. -/
inductive Outcome.Relaxes {α : Type} : Outcome α → Outcome α → Prop where
  | same (o : Outcome α) : Relaxes o o
  | atEnd {h h' : Halt} (hs : h.site = []) (hs' : h'.site = []) : Relaxes (.halted h) (.halted h')
  | deep {h : Halt} {o : Outcome α} (hc : h.complaint = .tooDeep) (hs : h.site ≠ [])
      (hr : o.rest <:+ h.rest) : Relaxes (.halted h) o

namespace Rule

variable {α β : Type} {m : Nat}

/-- The nesting stops the rule only where it stands, with at least `m` tokens taken. -/
def Spends (m : Nat) (r : Rule α) : Prop :=
  ∀ ts h, r ts = .halted h → h.complaint = .tooDeep →
    h.site = h.rest ∧ h.rest.length + m ≤ ts.length

/-- The first rule has `m` levels left. The second is the same rule with at least as many. -/
structure Limited (m : Nat) (r r' : Rule α) : Prop where
  keeps : Keeps r
  keeps' : Keeps r'
  spends : Spends m r
  relaxes : ∀ ts, (r ts).Relaxes (r' ts)

theorem Limited.mono {r r' : Rule α} (h : Limited (m + 1) r r') : Limited m r r' where
  keeps := h.keeps
  keeps' := h.keeps'
  relaxes := h.relaxes
  spends ts e he hc := by
    obtain ⟨hs, hle⟩ := h.spends ts e he hc
    exact ⟨hs, by omega⟩

/-- A rule in which the nesting plays no part. -/
theorem limited_of_spends {r : Rule α} (hk : Keeps r) (hs : ∀ ts h, r ts = .halted h →
    h.complaint ≠ .tooDeep) : Limited m r r where
  keeps := hk
  keeps' := hk
  spends ts h he hc := absurd hc (hs ts h he)
  relaxes _ := .same _

theorem limited_pure (a : α) : Limited m (pure a : Rule α) (pure a) :=
  limited_of_spends (keeps_pure a) (by simp [pure_apply])

theorem limited_pending : Limited m pending pending :=
  limited_of_spends keeps_pending (by simp [pending])

theorem limited_peek : Limited m peek peek := limited_of_spends keeps_peek (by simp [peek])

theorem limited_nextIs (k : Kind) : Limited m (nextIs k) (nextIs k) :=
  limited_of_spends (keeps_nextIs k) (by simp [nextIs])

theorem limited_atEnd : Limited m atEnd atEnd := limited_of_spends keeps_atEnd (by simp [atEnd])

theorem limited_haltAt {c : Complaint} (hc : c ≠ .tooDeep) (site : List Token) :
    Limited m (haltAt c site : Rule α) (haltAt c site) := by
  refine limited_of_spends (keeps_haltAt c site) fun ts h he => ?_
  simp only [haltAt, Outcome.halted.injEq] at he
  rwa [← he]

theorem limited_accept (k : Kind) : Limited m (accept k) (accept k) := by
  refine limited_of_spends (keeps_accept k) fun ts h he => ?_
  cases ts with
  | nil => simp [accept] at he
  | cons t ts =>
    simp only [accept] at he
    split at he <;> simp at he

theorem limited_expect (k : Mark) : Limited m (expect k) (expect k) := by
  refine limited_of_spends (keeps_expect k) fun ts h he => ?_
  cases ts with
  | nil =>
    simp only [expect, Outcome.halted.injEq] at he
    simp [← he]
  | cons t ts =>
    simp only [expect] at he
    split at he
    · simp at he
    · simp only [Outcome.halted.injEq] at he
      simp [← he]

theorem limited_bind {r r' : Rule α} {f f' : α → Rule β} (hr : Limited m r r')
    (hf : ∀ a, Limited m (f a) (f' a)) : Limited m (r >>= f) (r' >>= f') where
  keeps := keeps_bind hr.keeps fun a => (hf a).keeps
  keeps' := keeps_bind hr.keeps' fun a => (hf a).keeps'
  spends ts h he hc := by
    rw [bind_apply] at he
    cases ho : r ts with
    | halted e =>
      simp only [ho, Outcome.halted.injEq] at he
      subst he
      exact hr.spends ts e ho hc
    | done a rest =>
      simp only [ho] at he
      obtain ⟨hs, hle⟩ := (hf a).spends rest h he hc
      exact ⟨hs, hle.trans (hr.keeps.of_done ho).length_le⟩
  relaxes ts := by
    have hrest : ((r' >>= f') ts).rest <:+ (r' ts).rest := by
      rw [bind_apply]
      cases r' ts with
      | halted e => exact List.suffix_rfl
      | done a rest => exact (hf a).keeps' rest
    rw [bind_apply]
    generalize ho : r ts = o
    generalize ho' : r' ts = o'
    have hrel := hr.relaxes ts
    rw [ho, ho'] at hrel
    cases hrel with
    | same =>
      rw [bind_apply, ho']
      cases o with
      | halted e => exact .same _
      | done a rest => exact (hf a).relaxes rest
    | atEnd hs hs' =>
      rw [bind_of_halted _ ho']
      exact .atEnd hs hs'
    | deep hc hs hsuffix => exact .deep hc hs (hrest.trans (ho' ▸ hsuffix))

/-- The token taken first counts for one more level. -/
theorem limited_take {f f' : Token → Rule β} (hf : ∀ t, Limited m (f t) (f' t)) :
    Limited (m + 1) (take >>= f) (take >>= f') where
  keeps := keeps_bind keeps_take fun t => (hf t).keeps
  keeps' := keeps_bind keeps_take fun t => (hf t).keeps'
  spends ts h he hc := by
    cases ts with
    | nil =>
      rw [bind_of_halted f rfl, Outcome.halted.injEq] at he
      rw [← he] at hc
      exact absurd hc nofun
    | cons t ts =>
      obtain ⟨hs, hle⟩ := (hf t).spends ts h he hc
      exact ⟨hs, Nat.succ_le_succ hle⟩
  relaxes ts := by
    cases ts with
    | nil => exact .same _
    | cons t ts => exact (hf t).relaxes ts

theorem limited_recording (before : Block) {r r' : Rule α} (h : Limited m r r') :
    Limited m (recording before r) (recording before r') where
  keeps := keeps_recording before h.keeps
  keeps' := keeps_recording before h.keeps'
  spends ts e he hc := by
    simp only [recording] at he
    cases ho : r ts with
    | done a rest => simp [ho] at he
    | halted e' =>
      simp only [ho, Outcome.halted.injEq] at he
      subst he
      exact h.spends ts e' ho hc
  relaxes ts := by
    have hrest := rest_recording before r' ts
    simp only [recording] at hrest ⊢
    generalize r ts = o, r' ts = o', h.relaxes ts = hrel at hrest
    cases hrel with
    | same => exact .same _
    | atEnd hs hs' => exact .atEnd hs hs'
    | deep hc hs hsuffix => exact .deep hc hs (hrest ▸ hsuffix)

theorem limited_upTo {item item' : Rule (Option α)} (h : Limited m item item')
    (record : α → Block) : ∀ n, Limited m (upTo item record n) (upTo item' record n)
  | 0 => limited_pure []
  | n + 1 => by
    refine limited_bind h fun o => ?_
    split
    · exact limited_pure []
    · exact limited_bind (limited_recording _ (limited_upTo h record n)) fun _ => limited_pure _

theorem limited_many {item item' : Rule (Option α)} (h : Limited m item item')
    (record : α → Block) : Limited m (many item record) (many item' record) where
  keeps := keeps_many h.keeps record
  keeps' := keeps_many h.keeps' record
  spends ts := (limited_upTo h record (ts.length + 1)).spends ts
  relaxes ts := (limited_upTo h record (ts.length + 1)).relaxes ts

/-- With no level left nothing is taken. A rule that has to find a token stops at the end of the
input all the same. -/
theorem limited_tooDeep {r : Rule α} (hk : Keeps r) (hr : ∃ h, r [] = .halted h ∧ h.site = []) :
    Limited 0 tooDeep r where
  keeps := keeps_tooDeep
  keeps' := hk
  spends ts h he _ := by
    simp only [tooDeep, Outcome.halted.injEq] at he
    simp [← he]
  relaxes ts := by
    cases ts with
    | nil =>
      obtain ⟨h, he, hs⟩ := hr
      rw [he]
      exact .atEnd rfl hs
    | cons t ts => exact .deep rfl (List.cons_ne_nil t ts) (hk (t :: ts))

end Rule

namespace Grammar

open Rule

structure InnerLimited (m : Nat) (inner inner' : Inner) : Prop where
  expression : Limited m inner.expression inner'.expression
  operand : Limited m inner.operand inner'.operand

section Inner

variable {m : Nat} {inner inner' : Inner} (h : InnerLimited m inner inner')
include h

theorem limited_nextItem : Limited m (nextItem inner) (nextItem inner') := by
  refine limited_bind (limited_accept _) fun b => ?_
  split
  · exact limited_bind h.expression fun _ => limited_pure _
  · exact limited_pure _

theorem limited_items (close : Mark) : Limited m (items inner close) (items inner' close) := by
  refine limited_bind (limited_nextIs _) fun b => ?_
  split
  · exact limited_pure _
  · exact limited_bind h.expression fun _ =>
      limited_bind (limited_many (limited_nextItem h) _) fun _ => limited_pure _

theorem limited_keyed (start : List Token) (key : Expr) :
    Limited m (keyed inner start key) (keyed inner' start key) := by
  refine limited_bind limited_pending fun site => (limited_take fun t => ?_).mono
  split
  · exact limited_bind h.expression fun _ => limited_pure _
  · refine limited_bind h.expression fun _ => ?_
    split
    · exact limited_pure _
    · exact limited_haltAt (by decide) _
  · exact limited_haltAt (by decide) _

theorem limited_entry : Limited m (entry inner) (entry inner') := by
  refine limited_bind (limited_nextIs _) fun b => ?_
  split
  · exact limited_pure _
  refine limited_bind limited_pending fun start => limited_bind h.expression fun key =>
    limited_bind (limited_accept _) fun b => ?_
  split
  · exact limited_pure _
  refine limited_bind (limited_nextIs _) fun b => ?_
  split
  · exact limited_pure _
  refine limited_bind (limited_keyed h start key) fun e =>
    limited_bind (limited_nextIs _) fun b => ?_
  split
  · exact limited_pure _
  · exact limited_bind (limited_expect _) fun _ => limited_pure _

/-! From here on a token is taken before a level is opened. -/

theorem limited_primary : Limited (m + 1) (primary inner) (primary inner') := by
  refine limited_bind limited_pending fun site => limited_take fun t => ?_
  split
  · exact limited_pure _
  · exact limited_pure _
  · exact limited_pure _
  · exact limited_bind h.expression fun _ =>
      limited_bind (limited_expect _) fun _ => limited_pure _
  · exact limited_bind (limited_many (limited_entry h) _) fun _ =>
      limited_bind (limited_expect _) fun _ => limited_pure _
  · exact limited_bind (limited_items h _) fun _ =>
      limited_bind (limited_expect _) fun _ => limited_pure _
  · exact limited_haltAt (by decide) _
  · exact limited_haltAt (by decide) _

omit h in
theorem limited_memberName : Limited m memberName memberName := by
  refine limited_bind limited_pending fun site => (limited_take fun t => ?_).mono
  split
  · exact limited_pure _
  · exact limited_haltAt (by decide) _

theorem limited_suffix : Limited (m + 1) (suffix inner) (suffix inner') := by
  refine limited_bind limited_peek fun k => ?_
  split
  · exact limited_take fun _ => limited_bind (limited_items h _) fun _ =>
      limited_bind (limited_expect _) fun _ => limited_pure _
  · exact limited_take fun _ => limited_bind h.expression fun _ =>
      limited_bind (limited_expect _) fun _ => limited_pure _
  · exact limited_take fun _ => limited_bind limited_memberName fun _ => limited_pure _
  · exact limited_pure _

theorem limited_applied : Limited (m + 1) (applied inner) (applied inner') :=
  limited_bind (limited_primary h) fun _ =>
    limited_bind (limited_many (limited_suffix h) _) fun _ => limited_pure _

theorem limited_unary : Limited (m + 1) (unary inner) (unary inner') := by
  refine limited_bind limited_peek fun k => ?_
  split
  · exact limited_take fun _ => limited_bind h.operand fun _ => limited_pure _
  · exact limited_applied h

omit h in
theorem limited_operation (accepted : BinaryOp → Bool) {operand operand' : Rule Expr}
    (ho : Limited m operand operand') :
    Limited m (operation accepted operand) (operation accepted operand') := by
  refine limited_bind limited_peek fun k => ?_
  split
  · exact (limited_take fun _ => limited_bind ho fun _ => limited_pure _).mono
  · exact limited_pure _

theorem limited_factor : Limited (m + 1) (factor inner) (factor inner') :=
  limited_bind (limited_unary h) fun _ =>
    limited_bind (limited_many (limited_operation _ (limited_unary h)) _) fun _ => limited_pure _

theorem limited_binary : Limited (m + 1) (binary inner) (binary inner') :=
  limited_bind (limited_factor h) fun _ =>
    limited_bind (limited_many (limited_operation _ (limited_factor h)) _) fun _ => limited_pure _

theorem limited_assignment : Limited (m + 1) (assignment inner) (assignment inner') := by
  refine limited_bind limited_pending fun site => limited_bind (limited_binary h) fun target =>
    limited_bind (limited_nextIs _) fun b => ?_
  split
  · split
    · exact limited_take fun _ => limited_bind h.expression fun _ => limited_pure _
    · exact limited_haltAt (by decide) _
  · exact limited_pure _

end Inner

theorem expression_nil (n : Nat) : ∃ h, (inner n).expression [] = .halted h ∧ h.site = [] := by
  cases n with
  | zero => exact ⟨_, rfl, rfl⟩
  | succ n => exact ⟨_, rfl, rfl⟩

theorem operand_nil (n : Nat) : ∃ h, (inner n).operand [] = .halted h ∧ h.site = [] := by
  cases n with
  | zero => exact ⟨_, rfl, rfl⟩
  | succ n => exact ⟨_, rfl, rfl⟩

theorem innerLimited : ∀ {m n : Nat}, m ≤ n → InnerLimited m (inner m) (inner n)
  | 0, n, _ =>
    ⟨limited_tooDeep (innerOK n).keeps_expression (expression_nil n),
      limited_tooDeep (innerOK n).keeps_operand (operand_nil n)⟩
  | _ + 1, 0, h => absurd h (Nat.not_succ_le_zero _)
  | _ + 1, _ + 1, h =>
    have hi := innerLimited (Nat.le_of_succ_le_succ h)
    ⟨limited_assignment hi, limited_unary hi⟩

theorem limited_expression {m n : Nat} (h : m ≤ n) : Limited m (expression m) (expression n) :=
  (innerLimited h).expression

/-! ## Statements -/

section Statements

variable {m : Nat} {expression expression' : Rule Expr}
  {conditional conditional' statement statement' : Rule Stmt} {stop : Rule Bool}

theorem limited_oneOf (he : Limited m expression expression')
    (hc : Limited m conditional conditional') :
    Limited m (oneOf expression conditional) (oneOf expression' conditional') := by
  refine limited_bind limited_peek fun k => ?_
  split
  · exact hc
  · exact (limited_take fun _ => limited_pure _).mono
  · exact limited_bind he fun _ => limited_pure _

theorem limited_statements (hs : Limited m stop stop) (hk : Limited m statement statement') :
    Limited m (statements stop statement) (statements stop statement') := by
  refine limited_many (limited_bind hs fun b => ?_) _
  split
  · exact limited_pure _
  · exact limited_bind hk fun _ => limited_pure _

theorem limited_block (hk : Limited m statement statement') :
    Limited m (block statement) (block statement') := by
  refine limited_bind (limited_accept _) fun b => ?_
  split
  · exact limited_bind (limited_statements (limited_nextIs _) hk) fun _ =>
      limited_bind (limited_expect _) fun _ => limited_pure _
  · exact limited_bind hk fun _ => limited_pure _

theorem limited_conditionalOf (he : Limited m expression expression')
    (hk : Limited m statement statement') :
    Limited (m + 1) (conditionalOf expression statement)
      (conditionalOf expression' statement') := by
  refine limited_take fun _ => limited_bind (limited_expect _) fun _ => limited_bind he fun _ =>
    limited_bind (limited_expect _) fun _ => limited_bind (limited_block hk) fun _ =>
    limited_bind (limited_accept _) fun b => ?_
  split
  · exact limited_bind (limited_recording _ (limited_block hk)) fun _ => limited_pure _
  · exact limited_pure _

end Statements

theorem conditional_nil (n : Nat) : ∃ h, conditional n [] = .halted h ∧ h.site = [] := by
  cases n with
  | zero => exact ⟨_, rfl, rfl⟩
  | succ n => exact ⟨_, rfl, rfl⟩

theorem limited_conditional : ∀ {m n : Nat}, m ≤ n → Limited m (conditional m) (conditional n)
  | 0, n, _ => limited_tooDeep (keeps_conditional n) (conditional_nil n)
  | _ + 1, 0, h => absurd h (Nat.not_succ_le_zero _)
  | _ + 1, _ + 1, h =>
    have h := Nat.le_of_succ_le_succ h
    limited_conditionalOf (limited_expression h)
      (limited_oneOf (limited_expression h) (limited_conditional h))

theorem limited_program {m n : Nat} (h : m ≤ n) : Limited m (program m) (program n) :=
  limited_statements limited_atEnd (limited_oneOf (limited_expression h) (limited_conditional h))

end Grammar

/-! ## Limits of programs -/

/-- A reading is stopped by the nesting exactly if a rule complains about it at a token that has a
place. -/
theorem Outcome.result_eq_tooDeep {α : Type} {o : Outcome α} {found : String} {p : Place} :
    o.result = .error (.located .tooDeep found p) ↔
      ∃ h t ts, o = .halted h ∧ h.complaint = .tooDeep ∧ h.site = t :: ts ∧ t.lexeme = found ∧
        t.place? = some p := by
  cases o with
  | done a rest => simp [Outcome.result]
  | halted h =>
    simp only [Outcome.result, Halt.fault, Except.error.injEq, Outcome.halted.injEq]
    cases hs : h.site with
    | nil => simp [Complaint.fault, hs]
    | cons t ts =>
      cases hp : t.place? with
      | none => simp [Complaint.fault, hp, hs]
      | some q => simp [Complaint.fault, hp, hs, and_assoc]

/-- At the end of the input every complaint is the same fault. -/
theorem Outcome.result_of_site_nil {α : Type} {h : Halt} (hs : h.site = []) :
    (Outcome.halted h : Outcome α).result = .error .unexpectedEnd := by
  simp [Outcome.result, Halt.fault, hs, Complaint.fault]

namespace Block

/-- Reading the text with the limit stops at the place because of the nesting. -/
def TooDeepAt (limit : Nat) (source : String) (p : Place) : Prop :=
  ∃ found, parseWithin limit source = .error (.located .tooDeep found p)

section Scanned

variable {source : String} {ts : List Token} (hs : Token.scan source = .ok ts)
include hs

theorem parseWithin_of_scan (limit : Nat) :
    parseWithin limit source = (Grammar.program limit ts).result := by
  simp only [parseWithin, hs, readTokens, Token.beforeEnd_of_lexical (Token.lexical_of_scan hs)]

/-- Where the nesting stops a reading, the token that would be nested too deeply is the next one,
and one more token than there are levels is there. -/
theorem TooDeepAt.exists_halt {limit : Nat} {p : Place} (h : TooDeepAt limit source p) :
    ∃ e t us, Grammar.program limit ts = .halted e ∧ e.rest = t :: us ∧ e.site = t :: us ∧
      t.place? = some p ∧ limit < ts.length := by
  obtain ⟨found, h⟩ := h
  rw [parseWithin_of_scan hs] at h
  obtain ⟨e, t, us, he, hc, hsite, -, hp⟩ := Outcome.result_eq_tooDeep.1 h
  obtain ⟨hrest, hle⟩ := (Grammar.limited_program (Nat.le_refl limit)).spends ts e he hc
  rw [← hrest, hsite, List.length_cons] at hle
  exact ⟨e, t, us, he, hrest ▸ hsite, hsite, hp, by omega⟩

/-- With more levels a text is read as before, unless the nesting stopped the reading. -/
theorem parseWithin_eq_of_le {m n : Nat} (hmn : m ≤ n) (h : ∀ p, ¬ TooDeepAt m source p) :
    parseWithin n source = parseWithin m source := by
  rw [parseWithin_of_scan hs, parseWithin_of_scan hs]
  have hlim := Grammar.limited_program hmn
  generalize ho : Grammar.program m ts = o, Grammar.program n ts = o', hlim.relaxes ts = hrel
  cases hrel with
  | same => rfl
  | atEnd hsite hsite' =>
    rw [Outcome.result_of_site_nil hsite, Outcome.result_of_site_nil hsite']
  | @deep e o' hc hne hr =>
    obtain ⟨t, us, hsite⟩ := List.exists_cons_of_ne_nil hne
    have hmem : t ∈ ts := by
      have hsuffix : e.rest <:+ ts := by
        have := hlim.keeps ts
        rwa [ho] at this
      rw [← (hlim.spends ts e ho hc).1, hsite] at hsuffix
      exact hsuffix.subset List.mem_cons_self
    obtain ⟨p, hp⟩ := Token.placed_of_scan hs t hmem
    refine absurd ⟨t.lexeme, ?_⟩ (h p)
    rw [parseWithin_of_scan hs, ho]
    exact Outcome.result_eq_tooDeep.2 ⟨e, t, us, rfl, hc, hsite, rfl, hp⟩

/-- With more levels the nesting does not stop a reading earlier. -/
theorem place_le_of_tooDeepAt {m n : Nat} (hmn : m ≤ n) {p q : Place}
    (hm : TooDeepAt m source p) (hn : TooDeepAt n source q) : p ≤ q := by
  obtain ⟨e, t, us, he, hrest, hsite, hp, -⟩ := hm.exists_halt hs
  obtain ⟨e', t', us', he', hrest', hsite', hq, -⟩ := hn.exists_halt hs
  have hlim := Grammar.limited_program hmn
  have hsuffix : t :: us <:+ ts := by
    have := hlim.keeps ts
    rwa [he, Outcome.rest, hrest] at this
  have hfurther : t' :: us' <:+ t :: us := by
    have hrel := hlim.relaxes ts
    rw [he, he'] at hrel
    rw [← hrest, ← hrest']
    cases hrel with
    | same => exact List.suffix_rfl
    | atEnd hnil => exact absurd (hsite.symm.trans hnil) (List.cons_ne_nil t us)
    | deep hc hne hr => exact hr
  exact Token.place_le_of_suffix ((Token.pairwise_scan hs).sublist hsuffix.sublist) hfurther hp hq

end Scanned

theorem not_tooDeepAt_of_stray {limit : Nat} {source : String} {e : Stray}
    (h : Token.scan source = .error e) (p : Place) : ¬ TooDeepAt limit source p := by
  rintro ⟨found, hparse⟩
  simp [parseWithin, h] at hparse

/-- The limit only ever turns what a text is read as into the fault that it is nested too deeply: a
reading that is not stopped so comes out the same with more levels, one that still is stopped is
stopped no earlier, and with as many levels as the text has tokens none is. -/
theorem parseWithin_limits (source : String) {m n : Nat} (hmn : m ≤ n) :
    ((∀ p, ¬ TooDeepAt m source p) → parseWithin n source = parseWithin m source) ∧
      (∀ p q, TooDeepAt m source p → TooDeepAt n source q → p ≤ q) ∧
      (∀ ts, Token.scan source = .ok ts → ts.length ≤ n → ∀ p, ¬ TooDeepAt n source p) := by
  cases hs : Token.scan source with
  | error e =>
    refine ⟨fun _ => by simp only [parseWithin, hs], fun p _ h => ?_, nofun⟩
    exact absurd h (not_tooDeepAt_of_stray hs p)
  | ok ts =>
    refine ⟨parseWithin_eq_of_le hs hmn, fun p q => place_le_of_tooDeepAt hs hmn, ?_⟩
    rintro us hus hlen p hdeep
    obtain rfl := Except.ok.inj hus
    obtain ⟨-, -, -, -, -, -, -, hlt⟩ := hdeep.exists_halt hs
    omega

/-- The text `(-(a` is nested too deeply for one level and, two tokens further on, for three. With
four levels, as many as there are tokens, it is only unfinished, and it stays so. -/
theorem parseWithin_limits_unfinished :
    TooDeepAt 1 "(-(a" ⟨1, 2⟩ ∧ TooDeepAt 3 "(-(a" ⟨1, 4⟩ ∧ (⟨1, 2⟩ : Place) ≤ ⟨1, 4⟩ ∧
      parseWithin 4 "(-(a" = .error .unexpectedEnd ∧
      parseWithin 7 "(-(a" = parseWithin 4 "(-(a" := by
  have hone : TooDeepAt 1 "(-(a" ⟨1, 2⟩ := ⟨"-", rfl⟩
  have hthree : TooDeepAt 3 "(-(a" ⟨1, 4⟩ := ⟨"a", rfl⟩
  have hfour : parseWithin 4 "(-(a" = .error .unexpectedEnd := rfl
  refine ⟨hone, hthree, (parseWithin_limits _ (by decide)).2.1 _ _ hone hthree, hfour, ?_⟩
  refine (parseWithin_limits _ (by decide)).1 fun p => ?_
  exact (parseWithin_limits _ (Nat.le_refl 4)).2.2 _ rfl (by decide) p

end Block

end Offside
