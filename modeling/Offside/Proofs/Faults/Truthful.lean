import Offside.Proofs.Faults.Due
import Offside.Proofs.Final
import Offside.Proofs.Reader.Calls

/-!
# Complaints are true

A rule that halts complains about a token of the program, or the tokens have run out and none is
left (`Halt.Told`). What a complaint says about its token is `Complaint.HoldsOf`. Some complaints
are about a token that was passed long before, as the start of a key or of a target, so the rules
are followed with what is due where they start (`Rule.Honest`): a key was due where one is
complained about, and the whole of it stands there.
-/

namespace Offside

open Token (Ends)

/-- What the complaint says about the token `t` of a program, with `after` behind it. -/
def Complaint.HoldsOf (base : List Token) (t : Token) (after : List Token) : Complaint → Prop
  | unexpected =>
    Due base .primary (t :: after) ∧ t.kind.opens = false ∨
    ∃ (start : _) (key : Phrase .expression), Due base .entry start ∧ key.Leads start (t :: after) ∧
      t.kind ∉ [.mark .comma, .mark .closeBrace, .mark .colon, .mark .walrus]
  | comment => Due base .primary (t :: after) ∧ t.kind = .comment
  | missing m => t.kind ≠ .mark m
  | noName =>
    (∃ dot, dot.kind = .mark .dot ∧ dot :: t :: after <:+ base ∧ t.kind ≠ .name) ∨
    Due base .entry (t :: after) ∧ ∃ (key : Phrase .expression) (separator : Token) (rest : _),
      key.Leads (t :: after) (separator :: rest) ∧ separator.kind = .mark .walrus ∧
        ∀ x, Expr.form key.meaning ≠ .name x
  | badTarget =>
    Due base .expression (t :: after) ∧ ∃ (target : Phrase .binary) (equal : Token) (rest : _),
      target.Leads (t :: after) (equal :: rest) ∧ equal.kind = .mark .equal ∧
        ∀ x, target.meaning ≠ (Form.name x).bare
  | tooDeep => True

/-- The complaint is about a token of the program, and true, or the tokens have run out. -/
structure Halt.Told (base : List Token) (h : Halt) : Prop where
  suffix : h.site <:+ base
  holds : ∀ t after, h.site = t :: after → h.complaint.HoldsOf base t after
  spent : h.site = [] → h.rest = []

namespace Rule

variable {α β : Type} {base ts : List Token}

/-- If the rule halts on these tokens, its complaint is true. -/
def Honest (base ts : List Token) (r : Rule α) : Prop := ∀ h, r ts = .halted h → h.Told base

theorem honest_of_done {r : Rule α} {a : α} {rest : List Token} (h : r ts = .done a rest) :
    Honest base ts r := by
  intro e he
  rw [h] at he
  exact absurd he (by simp)

theorem honest_pure (a : α) : Honest base ts (pure a : Rule α) := honest_of_done rfl

theorem honest_haltAt {c : Complaint} {t : Token} {after : List Token}
    (hs : t :: after <:+ base) (hc : c.HoldsOf base t after) :
    Honest base ts (haltAt c (t :: after) : Rule α) := by
  intro e he
  obtain rfl := Outcome.halted.inj he
  refine ⟨hs, fun u us hu => ?_, fun hnil => absurd hnil (List.cons_ne_nil t after)⟩
  obtain ⟨rfl, rfl⟩ := List.cons.inj hu
  exact hc

/-- At the end of the tokens there is nothing to complain about, and nothing left. -/
theorem honest_of_nil {r : Rule α} {c : Complaint} {before : Block}
    (h : r ts = .halted ⟨c, [], [], before⟩) : Honest base ts r := by
  intro e he
  obtain rfl := Outcome.halted.inj (h.symm.trans he)
  exact ⟨List.nil_suffix, fun t after hnil => absurd hnil.symm (List.cons_ne_nil t after),
      fun _ => rfl⟩

theorem honest_tooDeep (hs : ts <:+ base) : Honest base ts (tooDeep : Rule α) := by
  intro e he
  obtain rfl := Outcome.halted.inj he
  exact ⟨hs, fun _ _ _ => trivial, id⟩

theorem honest_bind {r : Rule α} {f : α → Rule β} (hr : Honest base ts r)
    (hf : ∀ a mid, r ts = .done a mid → Honest base mid (f a)) : Honest base ts (r >>= f) := by
  intro e he
  rw [bind_apply] at he
  rcases h : r ts with ⟨a, mid⟩ | e'
  · rw [h] at he
    exact hf a mid h e he
  · rw [h] at he
    obtain rfl := Outcome.halted.inj he
    exact hr e' h

theorem honest_take {f : Token → Rule α}
    (hf : ∀ t us, ts = t :: us → Honest base us (f t)) : Honest base ts (take >>= f) := by
  rcases ts with _ | ⟨t, us⟩
  · exact honest_of_nil rfl
  · exact hf t us rfl

theorem honest_nextIs {k : Kind} {f : Bool → Rule α}
    (htrue : ∀ t us, ts = t :: us → t.kind = k → Honest base ts (f true))
    (hfalse : Ends (· == k) ts → Honest base ts (f false)) : Honest base ts (nextIs k >>= f) := by
  refine honest_bind (honest_of_done rfl) fun b mid hb => ?_
  obtain ⟨rfl, hhead⟩ := nextIs_eq_done hb
  rcases b with _ | _
  · exact hfalse (ends_of_nextIs hhead)
  · rcases mid with _ | ⟨t, us⟩
    · exact absurd hhead (by simp)
    · exact htrue t us rfl (by simpa using hhead)

theorem honest_accept {k : Kind} {f : Bool → Rule α}
    (htrue : ∀ t us, ts = t :: us → t.kind = k → Honest base us (f true))
    (hfalse : Ends (· == k) ts → Honest base ts (f false)) : Honest base ts (accept k >>= f) := by
  have hdone : Honest base ts (accept k) := by
    intro e he
    rcases ts with _ | ⟨t, us⟩
    · simp [accept] at he
    · simp only [accept] at he
      split at he <;> exact absurd he (by simp)
  refine honest_bind hdone fun b mid hb => ?_
  rcases b with _ | _
  · obtain ⟨rfl, hends⟩ := accept_eq_false hb
    exact hfalse hends
  · obtain ⟨t, ht, hts⟩ := accept_eq_true hb
    exact htrue t mid hts ht

theorem honest_expect (m : Mark) (hs : ts <:+ base) : Honest base ts (expect m) := by
  rcases ts with _ | ⟨t, us⟩
  · exact honest_of_nil rfl
  · by_cases hk : t.kind = .mark m
    · exact honest_of_done (by simp only [expect, hk, if_true]; rfl)
    · intro e he
      simp only [expect, hk, if_false] at he
      obtain rfl := Outcome.halted.inj he
      refine ⟨hs, fun u us' hu => ?_, fun hnil => absurd hnil (List.cons_ne_nil t us)⟩
      obtain ⟨rfl, rfl⟩ := List.cons.inj hu
      exact hk

theorem exists_mark_of_expect {m : Mark} {u : Unit} {rest : List Token}
    (h : expect m ts = .done u rest) : ∃ t, t.kind = .mark m ∧ ts = t :: rest := by
  rcases ts with _ | ⟨t, us⟩
  · exact absurd h (by simp [expect])
  · simp only [expect] at h
    split at h
    · rename_i hk
      exact ⟨t, hk, by rw [(Outcome.done.inj h).2]⟩
    · exact absurd h (by simp)

/-- Something and the mark that closes it. -/
theorem honest_closed {r : Rule α} (hr : Honest base ts r) (hk : Keeps r) (hs : ts <:+ base)
    (close : Mark) (g : α → β) :
    Honest base ts (do let a ← r; expect close; return g a : Rule β) := by
  refine honest_bind hr fun a mid ha => ?_
  refine honest_bind (honest_expect close ((hk.of_done ha).trans hs)) fun _ _ _ => ?_
  exact honest_pure _

theorem honest_recording {r : Rule α} (before : Block) (hr : Honest base ts r) :
    Honest base ts (recording before r) := by
  intro e he
  simp only [recording] at he
  split at he
  · exact absurd he (by simp)
  · rename_i e' h
    obtain rfl := Outcome.halted.inj he
    have htold := hr e' h
    exact ⟨htold.suffix, htold.holds, htold.spent⟩

/-- A repetition is honest where `P` holds, if its item is and each item keeps `P` up. -/
theorem honest_many {item : Rule (Option α)} {record : α → Block} (hi : TakesIf (·.isSome) item)
    {P : List Token → Prop} (hitem : ∀ us, P us → Honest base us item)
    (hstep : ∀ us a mid, P us → item us = .done (some a) mid → P mid) (hP : P ts) :
    Honest base ts (many item record) := by
  -- The induction is on the number of tokens: an item that was read has taken one.
  generalize hn : ts.length = n
  induction n using Nat.strong_induction_on generalizing ts with
  | _ n ih =>
    rw [many_eq hi]
    refine honest_bind (hitem ts hP) fun o mid ho => ?_
    rcases o with _ | a
    · exact honest_pure _
    · have hlt : mid.length < n := hn ▸ hi ts (some a) mid ho rfl
      have hmid := ih mid.length hlt (hstep ts a mid hP ho) rfl
      exact honest_bind (honest_recording _ hmid) fun _ _ _ => honest_pure _

end Rule

namespace Grammar

open Rule

/-! ## Expressions -/

theorem exists_leads_expression {n : Nat} {ts mid : List Token} {e : Expr}
    (h : expression n ts = .done e mid) :
    ∃ p : Phrase .expression, p.Leads ts mid ∧ p.meaning = e :=
  (derives_expression h).1.exists_leads ((keeps_expression n).of_done h)

/-- The rules for what is nested one level further in are honest. -/
structure InnerHonest (base : List Token) (n : Nat) : Prop where
  expression : ∀ {ts}, Due base .expression ts → Honest base ts (expression n)
  operand : ∀ {ts}, Due base .unary ts → Honest base ts (inner n).operand

section Inner

variable {base : List Token} {n : Nat} (hn : InnerHonest base n) {ts : List Token}
include hn

theorem honest_items {close : Mark} (h : Due base .arguments ts) :
    Honest base ts (items (inner n) close) := by
  refine honest_nextIs (fun _ _ _ _ => honest_pure _) fun _ => ?_
  refine honest_bind (hn.expression h.items.item) fun e mid he => ?_
  obtain ⟨p, hp, -⟩ := exists_leads_expression he
  -- Behind each item stands what is left of the items that were due where it started.
  refine honest_bind (honest_many (takesIf_nextItem (innerOK n))
    (P := fun us => ∃ start, ∃ q : Phrase .expression, Due base .items start ∧ q.Leads start us)
    ?_ ?_ ⟨ts, p, h.items, hp⟩) fun _ _ _ => honest_pure _
  · rintro us ⟨start, q, hdue, hq⟩
    refine honest_accept (fun t vs hus ht => ?_) fun _ => honest_pure _
    rw [hus] at hq
    exact honest_bind (hn.expression (hdue.nextItem hq ht).item) fun _ _ _ => honest_pure _
  · rintro us e' mid' ⟨start, q, hdue, hq⟩ hitem
    rw [nextItem, bind_eq_done] at hitem
    obtain ⟨b, vs, hb, hitem⟩ := hitem
    rcases b with _ | _
    · exact absurd (pure_eq_done.1 hitem).1 (by simp)
    · obtain ⟨t, ht, rfl⟩ := accept_eq_true hb
      obtain ⟨e'', rest, he'', hpure⟩ := bind_eq_done.1 hitem
      obtain ⟨-, rfl⟩ := pure_eq_done.1 hpure
      obtain ⟨r, hr, -⟩ := exists_leads_expression he''
      exact ⟨vs, r, hdue.nextItem hq ht, hr⟩

/-- The separator and the value, where `start` is the key and what follows it. -/
theorem honest_keyed {start : List Token} {key : Phrase .expression} (h : Due base .entry start)
    (hkey : key.Leads start ts) (hcomma : Ends (· == .mark .comma) ts)
    (hbrace : Ends (· == .mark .closeBrace) ts) :
    Honest base ts (keyed (inner n) start key.meaning) := by
  refine honest_take fun t us hts => ?_
  subst hts
  have hs : t :: us <:+ base := hkey.suffix.trans h.suffix
  split
  · rename_i hk
    exact honest_bind (hn.expression (h.keyed hkey (Or.inl hk))) fun _ _ _ => honest_pure _
  · rename_i hk
    refine honest_bind (hn.expression (h.keyed hkey (Or.inr hk))) fun _ _ _ => ?_
    split
    · exact honest_pure _
    · rename_i hname
      obtain ⟨u, after, rfl⟩ := hkey.exists_cons
      exact honest_haltAt h.suffix (Or.inr ⟨h, key, t, us, hkey, hk, Expr.name?_eq_none.1 hname⟩)
  · rename_i hcolon hwalrus
    refine honest_haltAt hs (Or.inr ⟨start, key, h, hkey, ?_⟩)
    rw [Token.ends_cons, beq_eq_false_iff_ne] at hcomma hbrace
    simp only [List.mem_cons, List.not_mem_nil, or_false, not_or]
    exact ⟨hcomma, hbrace, hcolon, hwalrus⟩

theorem honest_entry (h : Due base .entries ts) : Honest base ts (entry (inner n)) := by
  refine honest_nextIs (fun _ _ _ _ => honest_pure _) fun hends => ?_
  have hdue : Due base .entry ts := h.entry hends
  refine honest_bind (honest_of_done rfl) fun start _ hstart => ?_
  obtain ⟨rfl, rfl⟩ := Outcome.done.inj hstart
  refine honest_bind (hn.expression hdue.key) fun key mid hkey => ?_
  obtain ⟨p, hp, rfl⟩ := exists_leads_expression hkey
  refine honest_accept (fun _ _ _ _ => honest_pure _) fun hcomma => ?_
  refine honest_nextIs (fun _ _ _ _ => honest_pure _) fun hbrace => ?_
  refine honest_bind (honest_keyed hn hdue hp hcomma hbrace) fun a mid' ha => ?_
  have hs : mid' <:+ base :=
    ((keeps_keyed (innerOK n) _ _).of_done ha).trans (hp.suffix.trans h.suffix)
  refine honest_nextIs (fun _ _ _ _ => honest_pure _) fun _ => ?_
  exact honest_bind (honest_expect _ hs) fun _ _ _ => honest_pure _

omit hn in
/-- Behind an entry more entries are due, or a closing brace is next. -/
theorem due_of_entry {a : Entry} {rest : List Token} (h : Due base .entries ts)
    (ha : entry (inner n) ts = .done (some a) rest) :
    Due base .entries rest ∨ rest.head?.map Token.kind = some (.mark .closeBrace) := by
  rcases derives_entry (innerDerives n) ha with
    ⟨ho, -⟩ | ⟨_, -, ⟨mid, ⟨p, hp, -, -⟩, hcomma⟩ | ⟨-, hb⟩⟩
  · exact absurd ho (by simp)
  · obtain ⟨taken, rfl⟩ := (keeps_entry (innerOK n)).of_done ha
    rw [hcomma, List.map_append, List.append_cons] at hp
    obtain ⟨before, last, rfl, hbefore, hlast⟩ :=
      List.map_eq_append_iff.1 (List.append_cancel_right hp)
    obtain ⟨t, rfl, ht⟩ := List.map_eq_singleton_iff.1 hlast
    have hk : t.kind = .mark .comma := by rw [← Token.face_kind, ht, Mark.kind_token]
    exact Or.inl (h.nextEntry (p := p) (t := t) ⟨before, by simp, hbefore⟩ hk)
  · exact Or.inr (eq_of_beq hb)

theorem honest_entries (h : Due base .entries ts) :
    Honest base ts (many (entry (inner n)) fun _ => []) := by
  refine honest_many (takesIf_entry (innerOK n)) (P := fun us =>
    Due base .entries us ∨ us.head?.map Token.kind = some (.mark .closeBrace)) ?_ ?_ (Or.inl h)
  · rintro us (hdue | hbrace)
    · exact honest_entry hn hdue
    · exact honest_of_done (entry_of_closeBrace (beq_of_eq hbrace))
  · rintro us a mid (hdue | hbrace) ha
    · exact due_of_entry hdue ha
    · rw [entry_of_closeBrace (beq_of_eq hbrace)] at ha
      exact absurd ha (by simp)

theorem honest_primary (h : Due base .primary ts) : Honest base ts (primary (inner n)) := by
  have hs : ts <:+ base := h.suffix
  refine honest_take fun t us hts => ?_
  subst hts
  have hs' : us <:+ base := (List.suffix_cons t us).trans hs
  split
  · exact honest_pure _
  · exact honest_pure _
  · exact honest_pure _
  · rename_i hk
    exact honest_closed (hn.expression (h.group hk)) (keeps_expression n) hs' _ _
  · rename_i hk
    exact honest_closed (honest_entries hn (h.dict hk)) (keeps_many (keeps_entry (innerOK n)) _)
      hs' _ _
  · rename_i hk
    exact honest_closed (honest_items hn (h.list hk)) (keeps_items (innerOK n) _) hs' _ _
  · rename_i hk
    exact honest_haltAt hs ⟨h, hk⟩
  · refine honest_haltAt hs (Or.inl ⟨h, ?_⟩)
    unfold Kind.opens
    split <;> simp_all

omit hn in
theorem honest_memberName {dot : Token} (hdot : dot.kind = .mark .dot) (hs : dot :: ts <:+ base) :
    Honest base ts memberName := by
  refine honest_take fun t us hts => ?_
  subst hts
  split
  · exact honest_pure _
  · rename_i hk
    exact honest_haltAt ((List.suffix_cons dot _).trans hs) (Or.inl ⟨dot, hdot, hs, hk⟩)

theorem honest_suffix {start : List Token} {p : Phrase .applied} (h : Due base .applied start)
    (hp : p.Leads start ts) : Honest base ts (suffix (inner n)) := by
  have hs : ts <:+ base := hp.suffix.trans h.suffix
  refine honest_bind (honest_of_done rfl) fun k mid hpeek => ?_
  obtain ⟨hk, rfl⟩ := Outcome.done.inj hpeek
  split
  · refine honest_take fun t us hts => ?_
    subst hts
    have ht : t.kind = .mark .openParen := by simpa using hk
    exact honest_closed (honest_items hn (h.call hp ht)) (keeps_items (innerOK n) _)
      ((List.suffix_cons t us).trans hs) _ _
  · refine honest_take fun t us hts => ?_
    subst hts
    have ht : t.kind = .mark .openBracket := by simpa using hk
    exact honest_closed (hn.expression (h.index hp ht)) (keeps_expression n)
      ((List.suffix_cons t us).trans hs) _ _
  · refine honest_take fun t us hts => ?_
    subst hts
    have ht : t.kind = .mark .dot := by simpa using hk
    exact honest_bind (honest_memberName ht hs) fun _ _ _ => honest_pure _
  · exact honest_pure _

theorem honest_applied (h : Due base .applied ts) : Honest base ts (applied (inner n)) := by
  refine honest_bind (honest_primary hn h.primary) fun first mid hfirst => ?_
  obtain ⟨p, hp, rfl, hd⟩ := derives_primary (innerDerives n) hfirst
  have hmid : mid <:+ ts := (advances_primary (innerOK n)).keeps rfl |>.of_done hfirst
  refine honest_bind (honest_many (takesIf_suffix (innerOK n))
    (P := fun us => us <:+ ts ∧ ∃ e, Derives .applied n ts e us) ?_ ?_
    ⟨hmid, _, .ofPrimary p, hp, rfl, hd⟩) fun _ _ _ => honest_pure _
  · rintro us ⟨hus, e, he⟩
    obtain ⟨q, hq, -⟩ := he.exists_leads hus
    exact honest_suffix hn h hq
  · rintro us s mid' ⟨hus, e, he⟩ hsome
    exact ⟨((keeps_suffix (innerOK n)).of_done hsome).trans hus, _,
      derives_suffix (innerDerives n) he hsome⟩

omit hn in
theorem eq_mark_of_unaryOp? {k : Option Kind} {op : UnaryOp} (h : unaryOp? k = some op) :
    k = some (.mark op.mark) := by
  unfold unaryOp? at h
  split at h
  · rw [UnaryOp.ofMark?_eq_some.1 h]
  · exact absurd h (by simp)

theorem honest_unary (h : Due base .unary ts) : Honest base ts (unary (inner n)) := by
  refine honest_bind (honest_of_done rfl) fun k mid hk => ?_
  obtain ⟨rfl, rfl⟩ := Outcome.done.inj hk
  split
  · rename_i op hop
    refine honest_take fun t us hts => ?_
    subst hts
    have ht : t.kind = .mark op.mark := by simpa using eq_mark_of_unaryOp? hop
    exact honest_bind (hn.operand (h.signed ht)) fun _ _ _ => honest_pure _
  · rename_i hop
    refine honest_applied hn (h.applied ?_)
    rcases ts with _ | ⟨t, us⟩
    · exact Token.ends_nil _
    · exact Token.ends_cons.2 (by simpa using hop)

omit hn in
theorem eq_mark_of_binaryOp? {accepted : BinaryOp → Bool} {k : Option Kind} {op : BinaryOp}
    (h : (binaryOp? k).filter accepted = some op) :
    accepted op = true ∧ k = some (.mark op.mark) := by
  obtain ⟨hb, ha⟩ := Option.filter_eq_some_iff.1 h
  refine ⟨ha, ?_⟩
  unfold binaryOp? at hb
  split at hb
  · rw [BinaryOp.ofMark?_eq_some.1 hb]
  · exact absurd hb (by simp)

omit hn in
theorem honest_operation {accepted : BinaryOp → Bool} {operand : Rule Expr}
    (ho : ∀ op t us, ts = t :: us → accepted op = true → t.kind = .mark op.mark →
      Honest base us operand) : Honest base ts (operation accepted operand) := by
  refine honest_bind (honest_of_done rfl) fun k mid hpeek => ?_
  obtain ⟨rfl, rfl⟩ := Outcome.done.inj hpeek
  split
  · rename_i op hop
    obtain ⟨haccepted, hk⟩ := eq_mark_of_binaryOp? hop
    refine honest_take fun t us hts => ?_
    have ht : t.kind = .mark op.mark := by simpa [hts] using hk
    exact honest_bind (ho op t us hts haccepted ht) fun _ _ _ => honest_pure _
  · exact honest_pure _

theorem honest_factor (h : Due base .factor ts) : Honest base ts (factor (inner n)) := by
  refine honest_bind (honest_unary hn h.unary) fun first mid hfirst => ?_
  obtain ⟨⟨p, hp, rfl, hd⟩, -⟩ := derives_unary (innerDerives n) hfirst
  have hmid : mid <:+ ts := (keeps_unary (innerOK n)).of_done hfirst
  have hkeeps := keeps_operation BinaryOp.isMultiplicative (keeps_unary (innerOK n))
  refine honest_bind (honest_many (takesIf_operation _ (keeps_unary (innerOK n)))
    (P := fun us => us <:+ ts ∧ ∃ e, Derives .factor n ts e us) ?_ ?_
    ⟨hmid, _, .ofUnary p, hp, rfl, hd⟩) fun _ _ _ => honest_pure _
  · rintro us ⟨hus, e, he⟩
    obtain ⟨q, hq, -⟩ := he.exists_leads hus
    refine honest_operation fun op t vs hts hop ht => ?_
    subst hts
    have htier : op.tier = 2 := BinaryOp.tier_eq_two_iff.2 hop
    have ht : t.kind = .mark (⟨op, htier⟩ : TightOp).1.mark := ht
    exact honest_unary hn (h.multiplier hq ht)
  · rintro us ⟨op, right⟩ mid' ⟨hus, e, he⟩ hsome
    exact ⟨(hkeeps.of_done hsome).trans hus, _, (derives_product (innerDerives n) he hsome).1⟩

theorem honest_binary (h : Due base .binary ts) : Honest base ts (binary (inner n)) := by
  refine honest_bind (honest_factor hn h.factor) fun first mid hfirst => ?_
  obtain ⟨⟨p, hp, rfl, hd⟩, hends⟩ := derives_factor (innerDerives n) hfirst
  have hmid : mid <:+ ts := (keeps_factor (innerOK n)).of_done hfirst
  have hkeeps := keeps_operation (fun _ => true) (keeps_factor (innerOK n))
  refine honest_bind (honest_many (takesIf_operation _ (keeps_factor (innerOK n)))
    (P := fun us => us <:+ ts ∧ ∃ e, Derives .binary n ts e us ∧ Ends Kind.multiplies us) ?_ ?_
    ⟨hmid, _, ⟨.ofFactor p, hp, rfl, hd⟩, hends⟩) fun _ _ _ => honest_pure _
  · rintro us ⟨hus, e, he, hends⟩
    obtain ⟨q, hq, -⟩ := he.exists_leads hus
    refine honest_operation fun op t vs hts _ ht => ?_
    subst hts
    rw [Token.ends_cons, ht, multiplies_mark_iff] at hends
    have ht : t.kind = .mark (⟨op, hends⟩ : LooseOp).1.mark := ht
    exact honest_factor hn (h.summand hq ht)
  · rintro us ⟨op, right⟩ mid' ⟨hus, e, he, hends⟩ hsome
    exact ⟨(hkeeps.of_done hsome).trans hus, _, derives_sum (innerDerives n) he hends hsome⟩

theorem honest_assignment (h : Due base .expression ts) :
    Honest base ts (assignment (inner n)) := by
  refine honest_bind (honest_of_done rfl) fun site _ hsite => ?_
  obtain ⟨rfl, rfl⟩ := Outcome.done.inj hsite
  refine honest_bind (honest_binary hn h.binary) fun target mid htarget => ?_
  have hmid : mid <:+ ts := ((advances_binary (innerOK n)).keeps rfl).of_done htarget
  obtain ⟨p, hp, rfl⟩ := (derives_binary (innerDerives n) htarget).1.exists_leads hmid
  refine honest_nextIs (fun t us hts ht => ?_) fun _ => honest_pure _
  subst hts
  rw [if_pos rfl]
  split
  · rename_i x hx
    refine honest_take fun t' us' hts => ?_
    obtain ⟨rfl, rfl⟩ := List.cons.inj hts
    have hvalue := h.value hp ht (Expr.target?_eq_some.1 hx)
    exact honest_bind (hn.expression hvalue) fun _ _ _ => honest_pure _
  · rename_i hx
    obtain ⟨u, after, rfl⟩ := hp.exists_cons
    exact honest_haltAt h.suffix ⟨h, p, t, us, hp, ht, Expr.target?_eq_none.1 hx⟩

end Inner

theorem innerHonest (base : List Token) : ∀ n, InnerHonest base n
  | 0 => ⟨fun h => honest_tooDeep h.suffix, fun h => honest_tooDeep h.suffix⟩
  | n + 1 => ⟨honest_assignment (innerHonest base n), honest_unary (innerHonest base n)⟩

theorem honest_expression {base ts : List Token} (n : Nat) (h : Due base .expression ts) :
    Honest base ts (expression n) := (innerHonest base n).expression h

/-! ## Statements -/

section Statements

variable {base ts : List Token} {n : Nat}

/-- A statement, where the rule for those that start with `if` is honest. -/
theorem honest_oneOf (h : Due base .statement ts)
    (hc : ∀ t us, ts = t :: us → t.kind = .keyword .ifWord → Honest base ts (conditional n)) :
    Honest base ts (statement n) := by
  refine honest_bind (honest_of_done rfl) fun k mid hpeek => ?_
  obtain ⟨hk, rfl⟩ := Outcome.done.inj hpeek
  split
  · rcases ts with _ | ⟨t, us⟩
    · exact absurd hk (by simp)
    · exact hc t us rfl (by simpa using hk)
  · exact honest_take fun _ _ _ => honest_pure _
  · rename_i hif hcomment
    refine honest_bind (honest_expression n (h.plain ?_)) fun _ _ _ => honest_pure _
    rcases ts with _ | ⟨t, us⟩
    · exact Token.ends_nil _
    · have hk : some t.kind = k := hk
      rw [Token.ends_cons, Bool.or_eq_false_iff, beq_eq_false_iff_ne, beq_eq_false_iff_ne]
      exact ⟨fun ht => hcomment (hk ▸ congrArg some ht), fun ht => hif (hk ▸ congrArg some ht)⟩

variable (hstmt : ∀ {us}, Due base .statement us → Honest base us (statement n))
include hstmt

theorem honest_statements {stop : Rule Bool} (hlooks : Looks stop) (hkeeps : Keeps stop)
    (hstop : ∀ us, Honest base us stop) (h : Due base .statements ts) :
    Honest base ts (statements stop (statement n)) := by
  refine honest_many
    (takesIf_statementUnless hkeeps (keeps_statement n) (takes_statement n)) ?_ ?_ h
  · intro us hus
    refine honest_bind (hstop us) fun b mid hb => ?_
    obtain rfl := hlooks us b mid hb
    split
    · exact honest_pure _
    · exact honest_bind (hstmt hus.statement) fun _ _ _ => honest_pure _
  · intro us s mid hus hsome
    rw [statementUnless, bind_eq_done] at hsome
    obtain ⟨b, mid', hb, hsome⟩ := hsome
    obtain rfl := hlooks us b mid' hb
    rcases b with _ | _
    · obtain ⟨s', mid'', hs', hpure⟩ := bind_eq_done.1 hsome
      obtain ⟨-, rfl⟩ := pure_eq_done.1 hpure
      obtain ⟨p, hp, -, -, hu, hg, hc⟩ := derives_statement n hs'
      exact hus.nextStatement (p.leads_of_suffix ((keeps_statement n).of_done hs') hp) hu hg hc
    · exact absurd (pure_eq_done.1 hsome).1 (by simp)

theorem honest_block (h : Due base .block ts) : Honest base ts (block (statement n)) := by
  refine honest_accept (fun t us hts ht => ?_) fun hends => ?_
  · subst hts
    exact honest_closed
      (honest_statements hstmt (looks_nextIs _) (keeps_nextIs _) (fun _ => honest_of_done rfl)
        (h.braces ht))
      (keeps_statements (keeps_nextIs _) (keeps_statement n))
      ((List.suffix_cons t us).trans h.suffix) _ _
  · exact honest_bind (hstmt (h.single hends)) fun _ _ _ => honest_pure _

theorem honest_conditional {t : Token} (h : Due base .statement (t :: ts))
    (ht : t.kind = .keyword .ifWord) : Honest base (t :: ts) (conditional (n + 1)) := by
  have hs : ts <:+ base := (List.suffix_cons t ts).trans h.suffix
  refine honest_take fun t' us hts => ?_
  obtain ⟨rfl, rfl⟩ := List.cons.inj hts
  refine honest_bind (honest_expect _ hs) fun _ mid hopen => ?_
  obtain ⟨u, hu, rfl⟩ := exists_mark_of_expect hopen
  refine honest_bind (honest_expression n (h.condition ht hu)) fun c mid' hc => ?_
  obtain ⟨p, hp, -⟩ := exists_leads_expression hc
  have hs' : mid' <:+ base := (hp.suffix.trans (List.suffix_cons u mid)).trans hs
  refine honest_bind (honest_expect _ hs') fun _ mid'' hclose => ?_
  obtain ⟨v, hv, rfl⟩ := exists_mark_of_expect hclose
  refine honest_bind (honest_block hstmt (h.body ht hu hp hv)) fun body after hbody => ?_
  obtain ⟨q, hq, -⟩ := derives_block (derives_statement n) hbody
  have hlead := q.leads_of_suffix ((keeps_block (keeps_statement n)).of_done hbody) hq
  refine honest_accept (fun w us' hts hw => ?_) fun _ => honest_pure _
  subst hts
  refine honest_bind (honest_recording _ ?_) fun _ _ _ => honest_pure _
  exact honest_block hstmt (h.otherwise ht hu hp hv hlead hw)

end Statements

theorem honest_statement {base : List Token} : ∀ (n : Nat) {ts : List Token},
    Due base .statement ts → Honest base ts (statement n)
  | 0, _, h => honest_oneOf h fun _ _ _ _ => honest_tooDeep h.suffix
  | n + 1, _, h => by
    refine honest_oneOf h fun t us hts ht => ?_
    subst hts
    exact honest_conditional (honest_statement n) h ht

/-- Whatever a program is not read for, is so. -/
theorem honest_program (n : Nat) (ts : List Token) : Honest ts ts (program n) :=
  honest_statements (honest_statement n) looks_atEnd keeps_atEnd (fun _ => honest_of_done rfl)
    .program

end Grammar

/-! ## Faults of a text -/

/-- What the fault says about these tokens is so. A complaint is about the only token at the place
that it names, and shows the text of that token. If the input is said to end too early, no token is
left, and reading on finds the empty program. -/
def Fault.TrueOf (ts : List Token) : Fault → Prop
  | stray _ => False
  | unexpectedEnd => (Block.readTokens maxNesting ts).rest = [] ∧
      ∀ calls, Block.readings maxNesting (calls + 1) ts =
        .error .unexpectedEnd :: .replicate calls (.ok [])
  | located complaint found place => ∃ before t after q, ts = before ++ t :: after ∧
      t.position = some q ∧ q.place = place ∧ (∀ u ∈ ts, u.position = some q → u = t) ∧
      t.lexeme = found ∧ complaint.HoldsOf ts t after

theorem Token.Precedes.position_ne {t u : Token} (h : t.Precedes u) : t.position ≠ u.position := by
  obtain ⟨p, q, hp, hq, hlt⟩ := h
  intro heq
  have hpq : p = q := by
    unfold place? at hp hq
    split at hp
    · exact absurd hp (by simp)
    · split at hq
      · exact absurd hq (by simp)
      · rw [heq, hq] at hp
        exact (Option.some.inj hp).symm
  subst hpq
  rcases hlt with hlt | ⟨-, hlt⟩
  · exact Nat.lt_irrefl _ hlt
  · exact Nat.lt_irrefl _ hlt

/-- No two tokens of a text have the same position. -/
theorem Token.eq_of_position {before after : List Token} {t u : Token}
    (hpair : (before ++ t :: after).Pairwise Precedes) (hu : u ∈ before ++ t :: after)
    (heq : u.position = t.position) : u = t := by
  obtain ⟨-, hafter, hbefore⟩ := List.pairwise_append.1 hpair
  rcases List.mem_append.1 hu with hu | hu
  · exact absurd heq (hbefore u hu t List.mem_cons_self).position_ne
  rcases List.mem_cons.1 hu with rfl | hu
  · rfl
  · exact absurd heq.symm ((List.pairwise_cons.1 hafter).1 u hu).position_ne

theorem Token.exists_position {t : Token} {p : Place} (h : t.place? = some p) :
    ∃ q, t.position = some q ∧ q.place = p := by
  unfold place? at h
  split at h
  · exact absurd h (by simp)
  · exact Option.map_eq_some_iff.1 h

namespace Block

/-- A text that has tokens but is no program has a fault, and it is a true one. -/
theorem trueOf_of_parse {s : String} {ts : List Token} {e : Fault} (hscan : Token.scan s = .ok ts)
    (h : parse s = .error e) : e.TrueOf ts := by
  have hend : Token.beforeEnd ts = ts := Token.beforeEnd_of_lexical (Token.lexical_of_scan hscan)
  have hresult : (Grammar.program maxNesting ts).result = .error e :=
    (parseWithin_of_scan hscan maxNesting).symm.trans h
  rcases hp : Grammar.program maxNesting ts with ⟨b, rest⟩ | halt
  · rw [hp] at hresult
    exact absurd hresult (by simp [Outcome.result])
  have htold := Grammar.honest_program maxNesting ts halt hp
  rw [hp] at hresult
  obtain rfl : halt.fault = e := Except.error.inj hresult
  rcases hsite : halt.site with _ | ⟨t, after⟩
  · -- The tokens have run out, and what is read next starts with none.
    have hfault : halt.fault = .unexpectedEnd := by rw [Halt.fault, hsite, Complaint.fault]
    have hrest : (Grammar.program maxNesting ts).rest = [] := by
      rw [hp]
      exact htold.spent hsite
    rw [hfault]
    refine ⟨by rw [readTokens, hend, hrest], fun calls => ?_⟩
    rw [readings, hend, resume, hrest, resume_nil, hp, ← hfault, Outcome.result]
  · obtain ⟨before, hts⟩ := hsite ▸ htold.suffix
    have hmem : t ∈ ts := by
      rw [← hts]
      exact List.mem_append_right before List.mem_cons_self
    obtain ⟨place, hplace⟩ := Token.placed_of_scan hscan t hmem
    obtain ⟨q, hq, hqplace⟩ := Token.exists_position hplace
    have hfault : halt.fault = .located halt.complaint t.lexeme place := by
      simp only [Halt.fault, hsite, Complaint.fault, hplace]
    rw [hfault]
    refine ⟨before, t, after, q, hts.symm, hq, hqplace, fun u hu heq => ?_, rfl,
      htold.holds t after hsite⟩
    have hpair := Token.pairwise_scan hscan
    rw [← hts] at hpair hu
    exact Token.eq_of_position hpair hu (heq.trans hq.symm)

/-- In `-b = 1` what stands before the `=` is not a name. The complaint comes only at the `=`, but
it is about the token that the expression starts with. -/
theorem trueOf_of_parse_negated :
    parse "-b = 1" = .error (.located .badTarget "-" ⟨1, 1⟩) ∧
      Fault.TrueOf
        [⟨.mark .minus, "-", some ⟨0, 0⟩⟩, ⟨.name, "b", some ⟨0, 1⟩⟩,
          ⟨.mark .equal, "=", some ⟨0, 3⟩⟩, ⟨.number, "1", some ⟨0, 5⟩⟩]
        (.located .badTarget "-" ⟨1, 1⟩) := by
  have hparse : parse "-b = 1" = .error (.located .badTarget "-" ⟨1, 1⟩) := rfl
  exact ⟨hparse, trueOf_of_parse rfl hparse⟩

end Block

end Offside
