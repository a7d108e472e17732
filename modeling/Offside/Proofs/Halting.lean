import Offside.Proofs.Grammatical

/-!
# Why a rule halts, and what more tokens would change

A rule that halts complains about a token of the input, or about its end. `Cause` says what the
token and its neighbours are like, for each complaint.

The rules look one token ahead. So what a rule does with a token in sight, it does whatever comes
behind the last token: `Outcome.Prolongs` relates what comes of a rule to what comes of it with more
tokens there. A rule that took all the tokens, or missed one, may go on. So may one that halts
because the key before `:=` is no name, since it complains only when it has read the value; but it
halts in any case. This is closed under the combinators (`Rule.Prolonged`), and so holds of every
rule (`prolonged_program`).
-/

namespace Offside

/-- An entry of a dictionary can start with `site`: a brace that opens or a comma is before it. -/
def Token.EntryAt (base site : List Token) : Prop :=
  ∃ t, (t.kind = .mark .openBrace ∨ t.kind = .mark .comma) ∧ t :: site <:+ base

/-- An entry starts with `site` whose key stands before `:=` and is no name. -/
def Token.NamelessKey (base site : List Token) : Prop :=
  EntryAt base site ∧ ∃ n key separator rest,
    Grammar.expression n site = .done key (separator :: rest) ∧
      separator.kind = .mark .walrus ∧ ∀ x, key.form ≠ .name x

/-- Why there is a complaint about the first token of the last part of `base`. -/
inductive Cause (base : List Token) : Complaint → List Token → Prop where
  | unexpected {site : List Token} (h : site <:+ base) : Cause base .unexpected site
  | comment {t : Token} {ts : List Token} (h : t :: ts <:+ base) (hk : t.kind = .comment) :
      Cause base .comment (t :: ts)
  | missing {m : Mark} {t : Token} {ts : List Token} (h : t :: ts <:+ base)
      (hk : t.kind ≠ .mark m) : Cause base (.missing m) (t :: ts)
  | member {dot t : Token} {ts : List Token} (h : dot :: t :: ts <:+ base)
      (hd : dot.kind = .mark .dot) (hk : t.kind ≠ .name) : Cause base .noName (t :: ts)
  | key {site : List Token} (h : Token.NamelessKey base site) : Cause base .noName site
  | target {n : Nat} {site rest : List Token} {e : Expr} {t : Token} (h : site <:+ base)
      (hr : Grammar.binary (Grammar.inner n) site = .done e (t :: rest))
      (hk : t.kind = .mark .equal) (he : ∀ x, e ≠ (Form.name x).bare) : Cause base .badTarget site
  | tooDeep {site : List Token} (h : site <:+ base) : Cause base .tooDeep site

theorem Token.EntryAt.suffix {base site : List Token} (h : EntryAt base site) : site <:+ base := by
  obtain ⟨t, -, ht⟩ := h
  exact (List.suffix_cons t site).trans ht

theorem Cause.suffix {base site : List Token} {c : Complaint} (h : Cause base c site) :
    site <:+ base := by
  rcases h with h | ⟨h, -⟩ | ⟨h, -⟩ | ⟨h, -, -⟩ | h | ⟨h, -, -, -⟩ | h
  · exact h
  · exact h
  · exact h
  · exact (List.suffix_cons _ _).trans h
  · exact h.1.suffix
  · exact h
  · exact h

/-- The halt, with more tokens behind all the others. -/
def Halt.prolong (us : List Token) (h : Halt) : Halt :=
  { h with site := h.site ++ us, rest := h.rest ++ us }

namespace Outcome

variable {α β : Type} {us base : List Token}

/-- What came of a rule that read tokens of `base`, and what comes of it with `us` behind them. -/
inductive Prolongs (us base : List Token) : Outcome α → Outcome α → Prop where
  | done (a : α) {rest : List Token} (hr : rest ≠ []) :
      Prolongs us base (.done a rest) (.done a (rest ++ us))
  | spent (a : α) (o : Outcome α) : Prolongs us base (.done a []) o
  | ended {h : Halt} (hs : h.site = []) (o : Outcome α) : Prolongs us base (.halted h) o
  | final {h : Halt} (hc : Cause base h.complaint h.site) :
      Prolongs us base (.halted h) (.halted (h.prolong us))
  | key {h h' : Halt} (hc : h.complaint = .noName) (hk : Token.NamelessKey base h.site) :
      Prolongs us base (.halted h) (.halted h')

/-- Nothing is left, or a token is missed at the end of the input. -/
def AtEnd : Outcome α → Prop
  | .done _ rest => rest = []
  | .halted h => h.site = []

theorem AtEnd.prolongs {o : Outcome α} (h : o.AtEnd) (o' : Outcome α) : o.Prolongs us base o' := by
  rcases o with ⟨a, rest⟩ | e
  · obtain rfl : rest = [] := h
    exact .spent a o'
  · exact .ended h o'

theorem prolongs_done (a : α) (rest : List Token) :
    (done a rest).Prolongs us base (.done a (rest ++ us)) := by
  by_cases hr : rest = []
  · subst hr
    exact .spent a _
  · exact .done a hr

/-- What a halt is about is a last part of the tokens. -/
theorem Prolongs.site_suffix {h : Halt} {o : Outcome α} (hp : (halted h).Prolongs us base o) :
    h.site <:+ base := by
  rcases hp with _ | _ | hs | hc | ⟨-, hk⟩
  · rw [hs]
    exact List.nil_suffix
  · exact hc.suffix
  · exact hk.1.suffix

theorem Prolongs.recording {r : Rule α} {ts : List Token} (before : Block)
    (h : (r ts).Prolongs us base (r (ts ++ us))) :
    (Rule.recording before r ts).Prolongs us base (Rule.recording before r (ts ++ us)) := by
  unfold Rule.recording
  generalize r ts = o, r (ts ++ us) = o' at h
  cases h with
  | done a hr => exact .done a hr
  | spent a o' => exact .spent a _
  | @ended e hs o' => exact .ended (h := { e with completed := before ++ e.completed }) hs _
  | final hc => exact .final hc
  | key hc hk => exact .key hc hk

/-- The second of two rules goes on alike behind the first. Where the first took all the tokens, it
is the second that has to miss one. -/
theorem Prolongs.bind {r r' : Rule α} {f f' : α → Rule β} {ts : List Token}
    (h : (r ts).Prolongs us base (r' (ts ++ us)))
    (hf : ∀ a rest, r ts = .done a rest → rest ≠ [] →
      (f a rest).Prolongs us base (f' a (rest ++ us)))
    (he : ∀ a, r ts = .done a [] → (f a []).AtEnd) :
    ((r >>= f) ts).Prolongs us base ((r' >>= f') (ts ++ us)) := by
  rw [Rule.bind_apply, Rule.bind_apply]
  generalize r ts = o, r' (ts ++ us) = o' at h hf he
  rcases h with ⟨a, hr⟩ | ⟨a, o'⟩ | ⟨hs, o'⟩ | hc | ⟨hc, hk⟩
  · exact hf a _ rfl hr
  · exact (he a rfl).prolongs _
  · exact .ended hs _
  · exact .final hc
  · exact .key hc hk

end Outcome

open Outcome (prolongs_done)

namespace Rule

variable {α β : Type} {us base : List Token}

/-- At the end of the input the rule takes nothing, or misses a token. -/
def Patient (r : Rule α) : Prop := (r []).AtEnd

/-- The rule does with `us` behind the tokens what it does without. -/
structure Prolonged (us base : List Token) (r : Rule α) : Prop where
  keeps : Keeps r
  prolongs : ∀ ts, ts <:+ base → (r ts).Prolongs us base (r (ts ++ us))

theorem patient_bind {r : Rule α} {f : α → Rule β} (hr : Patient r) (hf : ∀ a, Patient (f a)) :
    Patient (r >>= f) := by
  unfold Patient at hr ⊢
  rw [bind_apply]
  rcases h : r [] with ⟨a, rest⟩ | e <;> rw [h] at hr
  · obtain rfl : rest = [] := hr
    exact hf a
  · exact hr

theorem patient_peek {f : Option Kind → Rule α} (h : Patient (f none)) : Patient (peek >>= f) := h

theorem patient_nextIs {k : Kind} {f : Bool → Rule α} (h : Patient (f false)) :
    Patient (nextIs k >>= f) := h

theorem patient_accept {k : Kind} {f : Bool → Rule α} (h : Patient (f false)) :
    Patient (accept k >>= f) := h

theorem patient_recording (before : Block) {r : Rule α} (h : Patient r) :
    Patient (recording before r) := by
  unfold Patient recording at *
  rcases ho : r [] with ⟨a, rest⟩ | e <;> rw [ho] at h <;> exact h

theorem patient_upTo {item : Rule (Option α)} (h : Patient item) (record : α → Block) :
    ∀ n, Patient (upTo item record n)
  | 0 => rfl
  | n + 1 => by
    refine patient_bind h fun o => ?_
    split
    · rfl
    · exact patient_bind (patient_recording _ (patient_upTo h record n)) fun _ => rfl

theorem patient_many {item : Rule (Option α)} (h : Patient item) (record : α → Block) :
    Patient (many item record) := patient_upTo h record 1

theorem prolonged_pure (a : α) : Prolonged us base (pure a : Rule α) :=
  ⟨keeps_pure a, fun ts _ => prolongs_done a ts⟩

theorem prolonged_bind {r : Rule α} {f : α → Rule β} (hr : Prolonged us base r)
    (hf : ∀ a, Prolonged us base (f a)) (hp : ∀ a, Patient (f a)) :
    Prolonged us base (r >>= f) where
  keeps := keeps_bind hr.keeps fun a => (hf a).keeps
  prolongs ts hts := by
    refine (hr.prolongs ts hts).bind (fun a rest ha _ => ?_) fun a _ => hp a
    exact (hf a).prolongs rest ((hr.keeps.of_done ha).trans hts)

theorem prolonged_take {f : Token → Rule α} (hf : ∀ t, Prolonged us base (f t)) :
    Prolonged us base (take >>= f) where
  keeps := keeps_bind keeps_take fun t => (hf t).keeps
  prolongs
    | [], _ => .ended rfl _
    | t :: ts, hts => (hf t).prolongs ts ((List.suffix_cons t ts).trans hts)

theorem prolonged_peek {f : Option Kind → Rule α} (hf : ∀ k, Prolonged us base (f k))
    (hp : Patient (f none)) : Prolonged us base (peek >>= f) where
  keeps := keeps_bind keeps_peek fun k => (hf k).keeps
  prolongs
    | [], _ => Outcome.AtEnd.prolongs hp _
    | t :: ts, hts => (hf (some t.kind)).prolongs (t :: ts) hts

theorem prolonged_nextIs (k : Kind) {f : Bool → Rule α}
    (hf : ∀ b, Prolonged us base (f b)) (hp : Patient (f false)) :
    Prolonged us base (nextIs k >>= f) where
  keeps := keeps_bind (keeps_nextIs k) fun b => (hf b).keeps
  prolongs
    | [], _ => Outcome.AtEnd.prolongs hp _
    | t :: ts, hts => (hf (some t.kind == some k)).prolongs (t :: ts) hts

theorem prolonged_atEnd {f : Bool → Rule α} (hf : ∀ b, Prolonged us base (f b))
    (hp : Patient (f true)) : Prolonged us base (atEnd >>= f) where
  keeps := keeps_bind keeps_atEnd fun b => (hf b).keeps
  prolongs
    | [], _ => Outcome.AtEnd.prolongs hp _
    | t :: ts, hts => (hf false).prolongs (t :: ts) hts

theorem prolonged_accept (k : Kind) {f : Bool → Rule α}
    (hf : ∀ b, Prolonged us base (f b)) (hp : Patient (f false)) :
    Prolonged us base (accept k >>= f) where
  keeps := keeps_bind (keeps_accept k) fun b => (hf b).keeps
  prolongs
    | [], _ => Outcome.AtEnd.prolongs hp _
    | t :: ts, hts => by
      rw [bind_apply, bind_apply, List.cons_append, accept, accept]
      by_cases hk : t.kind = k
      · simp only [hk, if_true]
        exact (hf true).prolongs ts ((List.suffix_cons t ts).trans hts)
      · simp only [hk, if_false]
        exact (hf false).prolongs (t :: ts) hts

theorem prolonged_expect (m : Mark) : Prolonged us base (expect m) where
  keeps := keeps_expect m
  prolongs
    | [], _ => .ended rfl _
    | t :: ts, hts => by
      rw [List.cons_append, expect, expect]
      by_cases hk : t.kind = .mark m
      · simp only [hk, if_true]
        exact prolongs_done () ts
      · simp only [hk, if_false]
        exact .final (.missing hts hk)

/-- Something and the mark that closes it. -/
theorem prolonged_closed {r : Rule α} (h : Prolonged us base r) (close : Mark) (g : α → β) :
    Prolonged us base (do let a ← r; expect close; return g a) := by
  refine prolonged_bind h (fun a => ?_) fun a => rfl
  exact prolonged_bind (prolonged_expect close) (fun _ => prolonged_pure (g a)) fun _ => rfl

theorem prolonged_tooDeep : Prolonged us base (tooDeep : Rule α) where
  keeps := keeps_tooDeep
  prolongs _ hts := .final (.tooDeep hts)

theorem prolonged_recording (before : Block) {r : Rule α} (h : Prolonged us base r) :
    Prolonged us base (recording before r) where
  keeps := keeps_recording before h.keeps
  prolongs ts hts := (h.prolongs ts hts).recording before

/-- The items of a repetition may ask for something of the tokens they start with, if it holds of
the first one and each item leaves it so for the next. -/
theorem prolongs_many {item : Rule (Option α)} (record : α → Block)
    (ht : TakesIf (·.isSome) item) (hp : Patient item) {P : List Token → Prop}
    (hi : ∀ ts, P ts → (item ts).Prolongs us base (item (ts ++ us)))
    (hstep : ∀ ts a rest, P ts → item ts = .done (some a) rest → rest ≠ [] → P rest) (n : Nat) :
    ∀ ts, ts.length < n → P ts →
      (many item record ts).Prolongs us base (many item record (ts ++ us)) := by
  induction n with
  | zero => intro ts hn; omega
  | succ n ih =>
    intro ts hn hts
    rw [many_eq ht]
    refine (hi ts hts).bind (fun o rest ho hne => ?_) fun o _ => ?_
    · rcases o with _ | a
      · exact prolongs_done [] rest
      · have hlt := ht ts (some a) rest ho rfl
        have htail := (ih rest (by omega) (hstep ts a rest hts ho hne)).recording (record a)
        exact htail.bind (fun as rest' _ _ => prolongs_done (a :: as) rest') fun _ _ => rfl
    · rcases o with _ | a
      · rfl
      · exact patient_bind (patient_recording _ (patient_many hp record)) fun _ => rfl

theorem prolonged_many {item : Rule (Option α)} (hi : Prolonged us base item)
    (record : α → Block) (ht : TakesIf (·.isSome) item) (hp : Patient item) :
    Prolonged us base (many item record) where
  keeps := keeps_many hi.keeps record
  prolongs ts hts :=
    prolongs_many record ht hp (P := (· <:+ base)) hi.prolongs
      (fun _ _ _ hsub ho _ => (hi.keeps.of_done ho).trans hsub) (ts.length + 1) ts
      (Nat.lt_succ_self _) hts

end Rule

namespace Grammar

open Rule

theorem patient_expression (n : Nat) : Patient (inner n).expression := by
  rcases n with _ | n <;> rfl

structure InnerProlonged (us base : List Token) (n : Nat) : Prop where
  expression : Prolonged us base (inner n).expression
  operand : Prolonged us base (inner n).operand

section Inner

variable {us base : List Token} {n : Nat} (h : InnerProlonged us base n)
include h

theorem prolonged_nextItem : Prolonged us base (nextItem (inner n)) := by
  refine prolonged_accept _ (fun b => ?_) rfl
  split
  · exact prolonged_bind h.expression (fun _ => prolonged_pure _) fun _ => rfl
  · exact prolonged_pure _

theorem prolonged_items (close : Mark) : Prolonged us base (items (inner n) close) := by
  have ht := takesIf_nextItem (innerOK n)
  refine prolonged_nextIs _ (fun b => ?_) (patient_bind (patient_expression n) fun _ => rfl)
  split
  · exact prolonged_pure _
  · refine prolonged_bind h.expression (fun _ => ?_) fun _ => rfl
    exact prolonged_bind (prolonged_many (prolonged_nextItem h) _ ht rfl)
      (fun _ => prolonged_pure _) fun _ => rfl

/-- The separator and the value of an entry, behind a key that was read with a token left. The key
is complained about behind the value, which may go on; there is a halt in any case. -/
theorem prolongs_keyed {start : List Token} {key : Expr} {t : Token} {ts : List Token}
    (hstart : Token.EntryAt base start) (hkey : (inner n).expression start = .done key (t :: ts)) :
    (keyed (inner n) start key (t :: ts)).Prolongs us base
      (keyed (inner n) (start ++ us) key (t :: ts ++ us)) := by
  have hsub : t :: ts <:+ base := ((innerOK n).keeps_expression.of_done hkey).trans hstart.suffix
  have htail : ts <:+ base := (List.suffix_cons t ts).trans hsub
  simp only [keyed, bind_apply, pending, take, List.cons_append]
  generalize hk : t.kind = k
  split
  · exact (prolonged_bind h.expression (fun _ => prolonged_pure _) fun _ => rfl).prolongs ts htail
  · rcases hname : key.name? with _ | x
    · have hcause : Token.NamelessKey base start :=
        ⟨hstart, n, key, t, ts, hkey, hk, Expr.name?_eq_none.1 hname⟩
      have hvalue := h.expression.prolongs ts htail
      rw [bind_apply, bind_apply]
      generalize (inner n).expression ts = o, (inner n).expression (ts ++ us) = o' at hvalue
      rcases hvalue with ⟨v, hr⟩ | ⟨v, o'⟩ | ⟨hs, o'⟩ | hc | ⟨hc, hkey'⟩
      · exact .final (.key hcause)
      · rcases o' with ⟨v', rest⟩ | e
        · exact .key rfl hcause
        · exact .key rfl hcause
      · exact .ended hs _
      · exact .final hc
      · exact .key hc hkey'
    · exact (prolonged_bind h.expression (fun _ => prolonged_pure _) fun _ => rfl).prolongs ts htail
  · exact .final (.unexpected hsub)

omit h in
theorem patient_entry : Patient (entry (inner n)) := by
  refine patient_nextIs (patient_bind (r := pending) rfl fun start => ?_)
  exact patient_bind (patient_expression n) fun key => rfl

/-- An entry, or the closing brace that is there instead. -/
theorem prolongs_entry {ts : List Token}
    (hts : Token.EntryAt base ts ∨ ts.head?.map Token.kind = some (.mark .closeBrace)) :
    (entry (inner n) ts).Prolongs us base (entry (inner n) (ts ++ us)) := by
  rcases ts with _ | ⟨t, ts⟩
  · exact Outcome.AtEnd.prolongs patient_entry _
  rw [entry, bind_apply, bind_apply, List.cons_append, nextIs_cons, nextIs_cons]
  by_cases hclose : t.kind = .mark .closeBrace
  · simp only [hclose, beq_self_eq_true, if_true]
    exact prolongs_done none (t :: ts)
  have hstart : Token.EntryAt base (t :: ts) := hts.resolve_right fun hhead =>
    hclose (Option.some.inj hhead)
  simp only [beq_eq_false_iff_ne.2 hclose, Bool.false_eq_true, if_false]
  -- The key, and what stands behind it.
  refine (h.expression.prolongs _ hstart.suffix).bind (fun key rest hkey hne => ?_) fun _ _ => rfl
  obtain ⟨u, rest, rfl⟩ := List.exists_cons_of_ne_nil hne
  rw [bind_apply, bind_apply, List.cons_append, accept, accept]
  by_cases hcomma : u.kind = .mark .comma
  · simp only [hcomma, if_true]
    exact prolongs_done _ rest
  simp only [hcomma, if_false, Bool.false_eq_true]
  rw [bind_apply, bind_apply, nextIs_cons, nextIs_cons]
  by_cases hclose' : u.kind = .mark .closeBrace
  · simp only [hclose', beq_self_eq_true, if_true]
    exact prolongs_done _ (u :: rest)
  simp only [beq_eq_false_iff_ne.2 hclose', Bool.false_eq_true, if_false]
  refine (prolongs_keyed h hstart hkey).bind (fun e mid hmid _ => ?_) fun _ _ => rfl
  have hsub : mid <:+ base := ((keeps_keyed (innerOK n) _ _).of_done hmid).trans
    (((innerOK n).keeps_expression.of_done hkey).trans hstart.suffix)
  have hcomma : Prolonged us base do
      if ← nextIs (.mark .closeBrace) then return some e else expect .comma; return some e := by
    refine prolonged_nextIs _ (fun b => ?_) rfl
    split
    · exact prolonged_pure _
    · exact prolonged_bind (prolonged_expect _) (fun _ => prolonged_pure _) fun _ => rfl
  exact hcomma.prolongs mid hsub

omit h in
/-- Behind an entry there is a comma that was taken, or a closing brace is next. -/
theorem entry_leaves {ts rest : List Token} {e : Entry}
    (he : entry (inner n) ts = .done (some e) rest) :
    Token.EntryAt ts rest ∨ rest.head?.map Token.kind = some (.mark .closeBrace) := by
  rcases derives_entry (innerDerives n) he with
    ⟨ho, -⟩ | ⟨_, -, ⟨mid, ⟨p, hp, -, -⟩, hcomma⟩ | ⟨-, hb⟩⟩
  · simp at ho
  · obtain ⟨taken, rfl⟩ := (keeps_entry (innerOK n)).of_done he
    rw [hcomma, List.map_append, List.append_cons] at hp
    obtain ⟨before, last, rfl, -, hlast⟩ := List.map_eq_append_iff.1 (List.append_cancel_right hp)
    obtain ⟨t, rfl, ht⟩ := List.map_eq_singleton_iff.1 hlast
    refine Or.inl ⟨t, Or.inr ?_, ⟨before, by rw [List.append_assoc]; rfl⟩⟩
    rw [← Token.face_kind, ht, Mark.kind_token]
  · exact Or.inr (eq_of_beq hb)

/-- The entries of a dictionary, behind the brace that opens it. -/
theorem prolongs_entries {ts : List Token} (hts : Token.EntryAt base ts) :
    (many (entry (inner n)) (fun _ => []) ts).Prolongs us base
      (many (entry (inner n)) (fun _ => []) (ts ++ us)) := by
  have ht := takesIf_entry (innerOK n)
  refine prolongs_many _ ht patient_entry (fun ts hP => prolongs_entry h hP.2)
    (P := fun ts => ts <:+ base ∧ (Token.EntryAt base ts ∨
      ts.head?.map Token.kind = some (.mark .closeBrace)))
    (fun ts e rest hP he _ => ?_) (ts.length + 1) ts (Nat.lt_succ_self _) ⟨hts.suffix, Or.inl hts⟩
  refine ⟨((keeps_entry (innerOK n)).of_done he).trans hP.1, ?_⟩
  rcases entry_leaves he with ⟨t, hk, hsub⟩ | hnext
  · exact Or.inl ⟨t, hk, hsub.trans hP.1⟩
  · exact Or.inr hnext

theorem prolonged_primary : Prolonged us base (primary (inner n)) where
  keeps := (advances_primary (innerOK n)).keeps rfl
  prolongs
    | [], _ => .ended rfl _
    | t :: ts, hts => by
      have htail : ts <:+ base := (List.suffix_cons t ts).trans hts
      simp only [primary, bind_apply, pending, take, List.cons_append]
      generalize hk : t.kind = k
      split
      · exact prolongs_done _ ts
      · exact prolongs_done _ ts
      · exact prolongs_done _ ts
      · exact (prolonged_closed h.expression _ _).prolongs ts htail
      · have hentries := prolongs_entries h ⟨t, Or.inl hk, hts⟩
        refine hentries.bind (fun es rest hes _ => ?_) fun _ _ => rfl
        have hsub := ((keeps_many (keeps_entry (innerOK n)) _).of_done hes).trans htail
        exact (prolonged_bind (prolonged_expect _) (fun _ => prolonged_pure _)
          fun _ => rfl).prolongs rest hsub
      · exact (prolonged_closed (prolonged_items h _) _ _).prolongs ts htail
      · exact .final (.comment hts hk)
      · exact .final (.unexpected hts)

omit h in
/-- The name of a member, behind the dot. -/
theorem prolongs_memberName {dot : Token} {ts : List Token} (hts : dot :: ts <:+ base)
    (hd : dot.kind = .mark .dot) : (memberName ts).Prolongs us base (memberName (ts ++ us)) := by
  rcases ts with _ | ⟨t, ts⟩
  · exact .ended rfl _
  simp only [memberName, bind_apply, pending, take, List.cons_append]
  by_cases hk : t.kind = .name
  · simp only [hk, if_true]
    exact prolongs_done _ ts
  · simp only [hk, if_false]
    exact .final (.member hts hd hk)

theorem prolonged_suffix : Prolonged us base (suffix (inner n)) where
  keeps := keeps_suffix (innerOK n)
  prolongs
    | [], _ => .spent none _
    | t :: ts, hts => by
      have htail : ts <:+ base := (List.suffix_cons t ts).trans hts
      simp only [suffix, bind_apply, peek, List.cons_append, List.head?_cons, Option.map_some]
      generalize hk : some t.kind = k
      split
      · exact (prolonged_closed (prolonged_items h _) _ _).prolongs ts htail
      · exact (prolonged_closed h.expression _ _).prolongs ts htail
      · have hname : (memberName ts).Prolongs us base (memberName (ts ++ us)) :=
          prolongs_memberName hts (Option.some.inj hk)
        exact hname.bind (fun x rest _ _ => prolongs_done _ rest) fun _ _ => rfl
      · exact prolongs_done none (t :: ts)

theorem prolonged_applied : Prolonged us base (applied (inner n)) := by
  have ht := takesIf_suffix (innerOK n)
  refine prolonged_bind (prolonged_primary h) (fun _ => ?_) fun _ => rfl
  exact prolonged_bind (prolonged_many (prolonged_suffix h) _ ht rfl)
    (fun _ => prolonged_pure _) fun _ => rfl

theorem prolonged_unary : Prolonged us base (unary (inner n)) := by
  refine prolonged_peek (fun k => ?_) rfl
  split
  · exact prolonged_take fun _ =>
      prolonged_bind h.operand (fun _ => prolonged_pure _) fun _ => rfl
  · exact prolonged_applied h

omit h in
theorem prolonged_operation (accepted : BinaryOp → Bool) {operand : Rule Expr}
    (ho : Prolonged us base operand) : Prolonged us base (operation accepted operand) := by
  refine prolonged_peek (fun k => ?_) rfl
  split
  · exact prolonged_take fun _ => prolonged_bind ho (fun _ => prolonged_pure _) fun _ => rfl
  · exact prolonged_pure _

omit h in
/-- An operand and a chain of operations on it. -/
theorem prolonged_chain (accepted : BinaryOp → Bool) {operand : Rule Expr}
    (ho : Prolonged us base operand) :
    Prolonged us base
      (do let first ← operand
          let rest ← many (operation accepted operand)
          return first.chain rest) := by
  have ht := takesIf_operation accepted ho.keeps
  refine prolonged_bind ho (fun _ => ?_) fun _ => rfl
  exact prolonged_bind (prolonged_many (prolonged_operation _ ho) _ ht rfl)
    (fun _ => prolonged_pure _) fun _ => rfl

theorem prolonged_factor : Prolonged us base (factor (inner n)) :=
  prolonged_chain _ (prolonged_unary h)

theorem prolonged_binary : Prolonged us base (binary (inner n)) :=
  prolonged_chain _ (prolonged_factor h)

theorem prolonged_assignment : Prolonged us base (assignment (inner n)) where
  keeps := keeps_assignment (innerOK n)
  prolongs ts hts := by
    rw [assignment, bind_pending, bind_pending]
    refine ((prolonged_binary h).prolongs ts hts).bind (fun target rest hr hne => ?_) fun _ _ => rfl
    obtain ⟨t, rest, rfl⟩ := List.exists_cons_of_ne_nil hne
    have hsub : t :: rest <:+ base := ((prolonged_binary h).keeps.of_done hr).trans hts
    rw [bind_apply, bind_apply, List.cons_append, nextIs_cons, nextIs_cons]
    by_cases hk : t.kind = .mark .equal
    · simp only [hk, beq_self_eq_true, if_true]
      rcases hx : target.target? with _ | x
      · exact .final (.target hts hr hk (Expr.target?_eq_none.1 hx))
      · exact (prolonged_take fun _ => prolonged_bind h.expression (fun _ => prolonged_pure _)
          fun _ => rfl).prolongs (t :: rest) hsub
    · simp only [beq_eq_false_iff_ne.2 hk, Bool.false_eq_true, if_false]
      exact prolongs_done target (t :: rest)

end Inner

theorem innerProlonged (us base : List Token) : ∀ n, InnerProlonged us base n
  | 0 => ⟨prolonged_tooDeep, prolonged_tooDeep⟩
  | n + 1 =>
    ⟨prolonged_assignment (innerProlonged us base n), prolonged_unary (innerProlonged us base n)⟩

/-! ## Statements -/

section Statements

variable {us base : List Token} {expression : Rule Expr} {conditional statement : Rule Stmt}

theorem prolonged_oneOf (he : Prolonged us base expression) (hp : Patient expression)
    (hc : Prolonged us base conditional) : Prolonged us base (oneOf expression conditional) := by
  refine prolonged_peek (fun k => ?_) (patient_bind hp fun _ => rfl)
  split
  · exact hc
  · exact prolonged_take fun _ => prolonged_pure _
  · exact prolonged_bind he (fun _ => prolonged_pure _) fun _ => rfl

theorem patient_oneOf (hp : Patient expression) : Patient (oneOf expression conditional) :=
  patient_peek (patient_bind hp fun _ => rfl)

theorem patient_block (hp : Patient statement) : Patient (block statement) :=
  patient_accept (patient_bind hp fun _ => rfl)

theorem prolonged_block (hk : Prolonged us base statement) (ht : Takes statement)
    (hp : Patient statement) : Prolonged us base (block statement) := by
  have htakes := takesIf_statementUnless (keeps_nextIs (.mark .closeBrace)) hk.keeps ht
  have hitem : Prolonged us base (statementUnless (nextIs (.mark .closeBrace)) statement) := by
    refine prolonged_nextIs _ (fun b => ?_) (patient_bind hp fun _ => rfl)
    split
    · exact prolonged_pure _
    · exact prolonged_bind hk (fun _ => prolonged_pure _) fun _ => rfl
  have hpitem : Patient (statementUnless (nextIs (.mark .closeBrace)) statement) :=
    patient_nextIs (patient_bind hp fun _ => rfl)
  refine prolonged_accept _ (fun b => ?_) (patient_bind hp fun _ => rfl)
  split
  · exact prolonged_closed (prolonged_many hitem _ htakes hpitem) _ id
  · exact prolonged_bind hk (fun _ => prolonged_pure _) fun _ => rfl

theorem prolonged_conditionalOf (he : Prolonged us base expression)
    (hep : Patient expression) (hk : Prolonged us base statement) (ht : Takes statement)
    (hp : Patient statement) : Prolonged us base (conditionalOf expression statement) := by
  have hb := prolonged_block hk ht hp
  refine prolonged_take fun _ => prolonged_bind (prolonged_expect _) (fun _ => ?_) fun _ =>
    patient_bind hep fun _ => rfl
  refine prolonged_bind he (fun _ => prolonged_bind (prolonged_expect _) (fun _ => ?_) fun _ =>
    patient_bind (patient_block hp) fun _ => rfl) fun _ => rfl
  refine prolonged_bind hb (fun body => prolonged_accept _ (fun b => ?_) rfl) fun _ => rfl
  split
  · exact prolonged_bind (prolonged_recording _ hb) (fun _ => prolonged_pure _) fun _ => rfl
  · exact prolonged_pure _

end Statements

theorem patient_statement (n : Nat) : Patient (statement n) := patient_oneOf (patient_expression n)

theorem prolonged_conditional (us base : List Token) :
    ∀ n, Prolonged us base (conditional n)
  | 0 => prolonged_tooDeep
  | n + 1 => by
    have he := (innerProlonged us base n).expression
    exact prolonged_conditionalOf he (patient_expression n)
      (prolonged_oneOf he (patient_expression n) (prolonged_conditional us base n))
      (takes_statement n) (patient_statement n)

theorem prolonged_statement (us base : List Token) (n : Nat) : Prolonged us base (statement n) :=
  prolonged_oneOf (innerProlonged us base n).expression (patient_expression n)
    (prolonged_conditional us base n)

theorem prolonged_program (us base : List Token) (n : Nat) : Prolonged us base (program n) := by
  have ht := takesIf_statement n
  have hitem : Prolonged us base (statementUnless atEnd (statement n)) := by
    refine prolonged_atEnd (fun b => ?_) rfl
    split
    · exact prolonged_pure _
    · exact prolonged_bind (prolonged_statement us base n) (fun _ => prolonged_pure _) fun _ => rfl
  exact prolonged_many hitem _ ht rfl

end Grammar

end Offside
