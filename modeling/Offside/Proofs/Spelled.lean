import Offside.Proofs.Formed
import Offside.Proofs.Grammatical
import Offside.Proofs.Traversal

/-!
# The spelling of a tree

`Expr.tokens` writes an expression down with the parentheses that its flags ask for and no others.
If the expression is well formed, there is a phrase with these tokens that opens as many levels as
the expression needs (`spelled`).

The entries of a dictionary are written in one of two ways. Keyed, each is a key and a value, and
the phrase stands for the expression itself. Flat, there is only a list of keys and values, each of
them a key of its own; then the phrase stands for another tree (`Expr.read`), in which no key is
lost.
-/

namespace Offside

/-- How entries are written: as pairs, or as one list of keys and values. -/
inductive Pairing where
  | keyed
  | flat

namespace Pairing

/-- What stands behind the key of an entry. -/
def separator : Pairing → Expr → Mark
  | keyed, key => if key.name?.isSome then .walrus else .colon
  | flat, _ => .comma

/-- The entries that are read where these were written. -/
def entries : Pairing → List Entry → List Entry
  | keyed, es => es
  | flat, es => es.flatMap fun n => [⟨n.key.asKey, n.key⟩, ⟨n.value.asKey, n.value⟩]

/-- One node of what is read. -/
def node (style : Pairing) : Expr → Expr
  | ⟨.dict es, grouped⟩ => ⟨.dict (style.entries es), grouped⟩
  | e => e

end Pairing

/-- What is read where the expression was written. -/
def Expr.read (style : Pairing) : Expr → Expr := Expr.rebuild style.node

section Tokens

variable (style : Pairing)

mutual

def Expr.tokens : Expr → List Token
  | ⟨form, grouped⟩ =>
    if grouped then Mark.openParen.token :: (form.tokens ++ [Mark.closeParen.token])
    else form.tokens

/-- The tokens of a form without the parentheses around it. -/
def Form.tokens : Form → List Token
  | .name x => [.bare .name x]
  | .number text => [.bare .number text]
  | .string content => [.bare .string ("\"" ++ content ++ "\"")]
  | .truth value => [.bare .name (if value then "T" else "F")]
  | .assign x value => .bare .name x :: Mark.equal.token :: value.tokens
  | .binary op left right => left.tokens ++ op.mark.token :: right.tokens
  | .unary op operand => op.mark.token :: operand.tokens
  | .call callee args =>
    callee.tokens ++ Mark.openParen.token :: (tokensAll args ++ [Mark.closeParen.token])
  | .index value index =>
    value.tokens ++ Mark.openBracket.token :: (index.tokens ++ [Mark.closeBracket.token])
  | .member value x => value.tokens ++ [Mark.dot.token, .bare .name x]
  | .dict entries => Mark.openBrace.token :: (tokensEntries entries ++ [Mark.closeBrace.token])
  | .list elements => Mark.openBracket.token :: (tokensAll elements ++ [Mark.closeBracket.token])

def Entry.tokens : Entry → List Token
  | ⟨key, value⟩ => key.tokens ++ (style.separator key).token :: value.tokens

/-- The tokens of expressions with commas between them. -/
def tokensAll : List Expr → List Token
  | [] => []
  | [e] => e.tokens
  | e :: es => e.tokens ++ Mark.comma.token :: tokensAll es

def tokensEntries : List Entry → List Token
  | [] => []
  | [n] => n.tokens
  | n :: es => n.tokens ++ Mark.comma.token :: tokensEntries es

end

end Tokens

/-- There are phrases of each category that an expression of the tier has. -/
structure Spelled (ts : List Token) (tier : Nat) (e : Expr) (d : Nat) : Prop where
  expression : ∃ p : Phrase .expression, p.tokens = ts ∧ p.meaning = e ∧ p.depth ≤ d + 1
  binary : 1 ≤ tier → ∃ p : Phrase .binary, p.tokens = ts ∧ p.meaning = e ∧ p.depth ≤ d
  factor : 2 ≤ tier → ∃ p : Phrase .factor, p.tokens = ts ∧ p.meaning = e ∧ p.depth ≤ d
  unary : 3 ≤ tier → ∃ p : Phrase .unary, p.tokens = ts ∧ p.meaning = e ∧ p.depth ≤ d
  applied : 4 ≤ tier → ∃ p : Phrase .applied, p.tokens = ts ∧ p.meaning = e ∧ p.depth ≤ d

namespace Spelled

variable {ts : List Token} {tier d : Nat} {e : Expr}

theorem of_binary (p : Phrase .binary) (hts : p.tokens = ts) (he : p.meaning = e) (hd : p.depth ≤ d)
    (ht : tier ≤ 1) : Spelled ts tier e d where
  expression := ⟨.plain p, hts, he, Nat.succ_le_succ hd⟩
  binary _ := ⟨p, hts, he, hd⟩
  factor h := absurd h (by omega)
  unary h := absurd h (by omega)
  applied h := absurd h (by omega)

theorem of_factor (p : Phrase .factor) (hts : p.tokens = ts) (he : p.meaning = e) (hd : p.depth ≤ d)
    (ht : tier ≤ 2) : Spelled ts tier e d where
  expression := ⟨.plain (.ofFactor p), hts, he, Nat.succ_le_succ hd⟩
  binary _ := ⟨.ofFactor p, hts, he, hd⟩
  factor _ := ⟨p, hts, he, hd⟩
  unary h := absurd h (by omega)
  applied h := absurd h (by omega)

theorem of_unary (p : Phrase .unary) (hts : p.tokens = ts) (he : p.meaning = e) (hd : p.depth ≤ d)
    (ht : tier ≤ 3) : Spelled ts tier e d where
  expression := ⟨.plain (.ofFactor (.ofUnary p)), hts, he, Nat.succ_le_succ hd⟩
  binary _ := ⟨.ofFactor (.ofUnary p), hts, he, hd⟩
  factor _ := ⟨.ofUnary p, hts, he, hd⟩
  unary _ := ⟨p, hts, he, hd⟩
  applied h := absurd h (by omega)

theorem of_applied (p : Phrase .applied) (hts : p.tokens = ts) (he : p.meaning = e)
    (hd : p.depth ≤ d) : Spelled ts tier e d where
  expression := ⟨.plain (.ofFactor (.ofUnary (.ofApplied p))), hts, he, Nat.succ_le_succ hd⟩
  binary _ := ⟨.ofFactor (.ofUnary (.ofApplied p)), hts, he, hd⟩
  factor _ := ⟨.ofUnary (.ofApplied p), hts, he, hd⟩
  unary _ := ⟨.ofApplied p, hts, he, hd⟩
  applied _ := ⟨p, hts, he, hd⟩

theorem of_primary (p : Phrase .primary) (hts : p.tokens = ts) (he : p.meaning = e)
    (hd : p.depth ≤ d) : Spelled ts tier e d := of_applied (.ofPrimary p) hts he hd

end Spelled

section Steps

variable {style : Pairing}

/-- A form is spelled with parentheses if it is without. -/
theorem Spelled.regroup (f f' : Form) (h : Spelled (f.tokens style) f.tier f'.bare f.depth)
    (g : Bool) :
    Spelled (Expr.tokens style ⟨f, g⟩) (Expr.tier ⟨f, g⟩) ⟨f', g⟩ (Expr.depth ⟨f, g⟩) := by
  rw [Expr.tokens, Expr.depth]
  cases g with
  | false => exact h
  | true =>
    obtain ⟨p, hts, hm, hd⟩ := h.expression
    refine of_primary (.group p) ?_ ?_ hd
    · rw [Phrase.tokens, hts]
      rfl
    · rw [Phrase.meaning, hm]
      rfl

/-- The tokens with commas between them. -/
def commaTokens : List (List Token) → List Token
  | [] => []
  | [ts] => ts
  | ts :: us :: tss => ts ++ Mark.comma.token :: commaTokens (us :: tss)

theorem tokensAll_cons (e : Expr) {es : List Expr} (h : es ≠ []) :
    tokensAll style (e :: es) = e.tokens style ++ Mark.comma.token :: tokensAll style es := by
  rw [tokensAll]
  exact h

theorem tokensEntries_cons (n : Entry) {es : List Entry} (h : es ≠ []) :
    tokensEntries style (n :: es)
      = n.tokens style ++ Mark.comma.token :: tokensEntries style es := by
  rw [tokensEntries]
  exact h

theorem tokensAll_eq :
    ∀ es : List Expr, tokensAll style es = commaTokens (es.map (Expr.tokens style))
  | [] => by rw [tokensAll, List.map_nil, commaTokens]
  | [e] => by rw [tokensAll, List.map_singleton, commaTokens]
  | e :: e' :: es => by
    rw [tokensAll_cons e (by simp), tokensAll_eq (e' :: es)]
    rfl

theorem tokensEntries_eq : ∀ es : List Entry,
    tokensEntries style es = commaTokens (es.map (Entry.tokens style))
  | [] => by rw [tokensEntries, List.map_nil, commaTokens]
  | [n] => by rw [tokensEntries, List.map_singleton, commaTokens]
  | n :: n' :: es => by
    rw [tokensEntries_cons n (by simp), tokensEntries_eq (n' :: es)]
    rfl

theorem exists_items : ∀ {es : List Expr}, es ≠ [] →
    (∀ e ∈ es, Spelled (e.tokens style) e.tier (e.read style) e.depth) →
      ∃ p : Phrase .items, p.tokens = tokensAll style es ∧ p.meaning = es.map (Expr.read style) ∧
        p.depth ≤ depthAll es
  | [], h, _ => absurd rfl h
  | [e], _, h => by
    obtain ⟨p, hts, hm, hd⟩ := (h e (by simp)).expression
    refine ⟨.lastItem p, ?_, ?_, ?_⟩
    · rw [Phrase.tokens, tokensAll, hts]
    · rw [Phrase.meaning, hm, List.map_singleton]
    · rw [Phrase.depth, depthAll]
      omega
  | e :: e' :: es, _, h => by
    obtain ⟨p, hts, hm, hd⟩ := (h e (by simp)).expression
    obtain ⟨q, hqts, hqm, hqd⟩ := exists_items (by simp) fun a ha => h a (List.mem_cons_of_mem e ha)
    refine ⟨.nextItem p q, ?_, ?_, ?_⟩
    · rw [Phrase.tokens, tokensAll_cons _ (by simp), hts, hqts]
    · rw [Phrase.meaning, hm, hqm, ← List.map_cons]
    · rw [Phrase.depth, depthAll]
      omega

theorem exists_arguments {es : List Expr}
    (h : ∀ e ∈ es, Spelled (e.tokens style) e.tier (e.read style) e.depth) :
    ∃ p : Phrase .arguments, p.tokens = tokensAll style es ∧ p.meaning = es.map (Expr.read style) ∧
      p.depth ≤ depthAll es := by
  by_cases hes : es = []
  · subst hes
    exact ⟨.noItems, by rw [Phrase.tokens, tokensAll], rfl, Nat.zero_le _⟩
  · obtain ⟨p, hts, hm, hd⟩ := exists_items hes h
    exact ⟨.someItems p, hts, hm, hd⟩

theorem Expr.name?_read (e : Expr) : (e.read style).name? = e.name? := by
  obtain ⟨form, grouped⟩ := e
  cases form <;> rfl

theorem exists_entry {n : Entry}
    (hk : Spelled (n.key.tokens .keyed) n.key.tier (n.key.read .keyed) n.key.depth)
    (hv : Spelled (n.value.tokens .keyed) n.value.tier (n.value.read .keyed) n.value.depth) :
    ∃ p : Phrase .entry, p.tokens = n.tokens .keyed ∧
      p.meaning = ⟨n.key.read .keyed, n.value.read .keyed⟩ ∧
      p.depth ≤ max (n.key.depth + 1) (n.value.depth + 1) := by
  obtain ⟨key, value⟩ := n
  obtain ⟨p, hts, hm, hd⟩ := hk.expression
  obtain ⟨q, hqts, hqm, hqd⟩ := hv.expression
  have hname : (Expr.name? p.meaning) = key.name? := by rw [hm, Expr.name?_read]
  rw [Entry.tokens]
  simp only at hts hm hd hqts hqm hqd ⊢
  by_cases hx : key.name?.isSome = true
  · obtain ⟨k, hkts, hkm, hkd⟩ := p.exists_key (hname ▸ hx)
    refine ⟨.walrus k q, ?_, ?_, ?_⟩
    · rw [Phrase.tokens, hkts, hts, hqts, Pairing.separator, if_pos hx]
    · rw [Phrase.meaning, hkm, hm, hqm]
    · rw [Phrase.depth, hkd]
      omega
  · refine ⟨.colon p q, ?_, ?_, ?_⟩
    · rw [Phrase.tokens, hts, hqts, Pairing.separator, if_neg hx]
    · have hkey : Expr.asKey p.meaning = p.meaning := by
        rw [Expr.asKey, hname]
        cases hn : key.name? with
        | none => rfl
        | some x => exact absurd (by rw [hn]; rfl) hx
      rw [Phrase.meaning, hkey, hm, hqm]
    · rw [Phrase.depth]
      omega

/-- The entry of what is read. -/
def Entry.read (style : Pairing) (n : Entry) : Entry := ⟨n.key.read style, n.value.read style⟩

/-- The key and the value of an entry are spelled. -/
def Entry.Spelled (style : Pairing) (n : Entry) : Prop :=
  Offside.Spelled (n.key.tokens style) n.key.tier (n.key.read style) n.key.depth ∧
    Offside.Spelled (n.value.tokens style) n.value.tier (n.value.read style) n.value.depth

theorem Expr.read_call (c : Expr) (args : List Expr) (g : Bool) :
    Expr.read style ⟨.call c args, g⟩ =
      ⟨.call (c.read style) (args.map (Expr.read style)), g⟩ := Expr.rebuild_call _ c args g

theorem Expr.read_list (es : List Expr) (g : Bool) : Expr.read style ⟨.list es, g⟩ =
    ⟨.list (es.map (Expr.read style)), g⟩ := Expr.rebuild_list _ es g

theorem Expr.read_dict (es : List Entry) (g : Bool) : Expr.read style ⟨.dict es, g⟩ =
    ⟨.dict (style.entries (es.map (Entry.read style))), g⟩ := Expr.rebuild_dict _ es g

theorem exists_entries_keyed : ∀ {es : List Entry}, (∀ n ∈ es, n.Spelled .keyed) →
    ∃ p : Phrase .entries, p.tokens = tokensEntries .keyed es ∧
      p.meaning = es.map (Entry.read .keyed) ∧ p.depth ≤ depthEntries es
  | [], _ => ⟨.noEntries, by rw [Phrase.tokens, tokensEntries], rfl, Nat.zero_le _⟩
  | [n], h => by
    obtain ⟨hk, hv⟩ := h n (by simp)
    obtain ⟨p, hts, hm, hd⟩ := exists_entry hk hv
    refine ⟨.lastEntry p, ?_, ?_, ?_⟩
    · rw [Phrase.tokens, tokensEntries, hts]
    · rw [Phrase.meaning, hm, List.map_singleton, Entry.read]
    · rw [Phrase.depth, depthEntries_cons]
      omega
  | n :: n' :: es, h => by
    obtain ⟨hk, hv⟩ := h n (by simp)
    obtain ⟨p, hts, hm, hd⟩ := exists_entry hk hv
    obtain ⟨q, hqts, hqm, hqd⟩ :=
      exists_entries_keyed fun a ha => h a (List.mem_cons_of_mem n ha)
    refine ⟨.nextEntry p q, ?_, ?_, ?_⟩
    · rw [Phrase.tokens, tokensEntries_cons _ (by simp), hts, hqts]
    · rw [Phrase.meaning, hm, hqm, List.map_cons, List.map_cons, Entry.read]
      rfl
    · rw [Phrase.depth, depthEntries_cons n]
      omega

/-- Flat, a key is an entry, and so is a value. -/
theorem exists_entries_flat : ∀ {es : List Entry}, (∀ n ∈ es, n.Spelled .flat) →
    ∃ p : Phrase .entries, p.tokens = tokensEntries .flat es ∧
      p.meaning = Pairing.flat.entries (es.map (Entry.read .flat)) ∧ p.depth ≤ depthEntries es
  | [], _ => ⟨.noEntries, by rw [Phrase.tokens, tokensEntries], rfl, Nat.zero_le _⟩
  | [⟨key, value⟩], h => by
    obtain ⟨hk, hv⟩ := h ⟨key, value⟩ (by simp)
    obtain ⟨p, hts, hm, hd⟩ := hk.expression
    obtain ⟨q, hqts, hqm, hqd⟩ := hv.expression
    simp only at hts hm hd hqts hqm hqd
    refine ⟨.nextEntry (.alone p) (.lastEntry (.alone q)), ?_, ?_, ?_⟩
    · rw [tokensEntries, Entry.tokens, Pairing.separator, ← hts, ← hqts]
      rfl
    · simp only [Phrase.meaning, hm, hqm, Entry.read, Pairing.entries, List.map_cons, List.map_nil,
        List.flatMap_cons, List.flatMap_nil, List.append_nil]
    · simp only [Phrase.depth, depthEntries_cons]
      omega
  | ⟨key, value⟩ :: n' :: es, h => by
    obtain ⟨hk, hv⟩ := h ⟨key, value⟩ (by simp)
    obtain ⟨p, hts, hm, hd⟩ := hk.expression
    obtain ⟨q, hqts, hqm, hqd⟩ := hv.expression
    obtain ⟨r, hrts, hrm, hrd⟩ := exists_entries_flat fun a ha => h a (List.mem_cons_of_mem _ ha)
    simp only at hts hm hd hqts hqm hqd
    refine ⟨.nextEntry (.alone p) (.nextEntry (.alone q) r), ?_, ?_, ?_⟩
    · rw [tokensEntries_cons _ (by simp), Entry.tokens, Pairing.separator, ← hts, ← hqts, ← hrts]
      simp
    · simp only [Phrase.meaning, hm, hqm, hrm, Entry.read, Pairing.entries, List.map_cons,
        List.flatMap_cons, List.cons_append, List.nil_append]
    · simp only [Phrase.depth]
      rw [depthEntries_cons]
      simp only
      omega

theorem exists_entries {es : List Entry} (h : ∀ n ∈ es, n.Spelled style) :
    ∃ p : Phrase .entries, p.tokens = tokensEntries style es ∧
      p.meaning = style.entries (es.map (Entry.read style)) ∧ p.depth ≤ depthEntries es := by
  cases style with
  | keyed => exact exists_entries_keyed h
  | flat => exact exists_entries_flat h

end Steps

/-- A well-formed expression is spelled by its tokens. -/
theorem spelled (style : Pairing) {e : Expr} (h : e.Formed) :
    Spelled (e.tokens style) e.tier (e.read style) e.depth := by
  induction h with
  | @name x hx g =>
    refine Spelled.regroup (.name x) (.name x) ?_ g
    refine .of_primary (.word x) (by rw [Phrase.tokens, Form.tokens]) ?_ (Nat.zero_le _)
    rw [Phrase.meaning, Expr.ofWord, if_neg hx.2.1, if_neg hx.2.2]
  | @number text ht g =>
    refine Spelled.regroup (.number text) (.number text) ?_ g
    exact .of_primary (.number text) (by rw [Phrase.tokens, Form.tokens]) rfl (Nat.zero_le _)
  | @string content hc g =>
    refine Spelled.regroup (.string content) (.string content) ?_ g
    refine .of_primary (.string _) (by rw [Phrase.tokens, Form.tokens]) ?_ (Nat.zero_le _)
    have hquoted : ("\"" ++ content ++ "\"").toList = '"' :: content.toList ++ ['"'] := by simp
    rw [Phrase.meaning, Expr.unquote_quoted hquoted, String.ofList_toList]
  | truth b g =>
    refine Spelled.regroup (.truth b) (.truth b) ?_ g
    refine .of_primary (.word _) (by rw [Phrase.tokens, Form.tokens]) ?_ (Nat.zero_le _)
    cases b <;> rfl
  | @assign x v hx hv g ih =>
    refine Spelled.regroup (.assign x v) (.assign x (v.read style)) ?_ g
    obtain ⟨p, hts, hm, hd⟩ := ih.expression
    refine ⟨⟨.assign ⟨x, hx.2⟩ p, ?_, ?_, ?_⟩, ?_, ?_, ?_, ?_⟩
    · rw [Phrase.tokens, Form.tokens, hts]
    · rw [Phrase.meaning, hm]
    · rw [Phrase.depth, Form.depth]
      omega
    all_goals exact fun ht => absurd ht (by simp [Form.tier])
  | @binary op l r hl hr htl htr g ihl ihr =>
    refine Spelled.regroup (.binary op l r) (.binary op (l.read style) (r.read style)) ?_ g
    rcases op.tier_eq_two_or_one with htier | htier
    · obtain ⟨p, hts, hm, hd⟩ := ihl.factor (by omega)
      obtain ⟨q, hqts, hqm, hqd⟩ := ihr.unary (by omega)
      refine .of_factor (.product p ⟨op, htier⟩ q) ?_ ?_ ?_ htier.le
      · rw [Phrase.tokens, Form.tokens, hts, hqts]
      · rw [Phrase.meaning, hm, hqm]
      · rw [Phrase.depth, Form.depth]
        omega
    · obtain ⟨p, hts, hm, hd⟩ := ihl.binary (by omega)
      obtain ⟨q, hqts, hqm, hqd⟩ := ihr.factor (by omega)
      refine .of_binary (.sum p ⟨op, htier⟩ q) ?_ ?_ ?_ htier.le
      · rw [Phrase.tokens, Form.tokens, hts, hqts]
      · rw [Phrase.meaning, hm, hqm]
      · rw [Phrase.depth, Form.depth]
        omega
  | @unary op e he ht g ih =>
    refine Spelled.regroup (.unary op e) (.unary op (e.read style)) ?_ g
    obtain ⟨p, hts, hm, hd⟩ := ih.unary ht
    refine .of_unary (.signed op p) ?_ ?_ ?_ (le_refl 3)
    · rw [Phrase.tokens, Form.tokens, hts]
    · rw [Phrase.meaning, hm]
    · rw [Phrase.depth, Form.depth]
      omega
  | @call c args hc ht hargs g ihc ihargs =>
    rw [Expr.read_call]
    refine Spelled.regroup (.call c args) (.call (c.read style) (args.map (Expr.read style))) ?_ g
    obtain ⟨p, hts, hm, hd⟩ := ihc.applied ht
    obtain ⟨q, hqts, hqm, hqd⟩ := exists_arguments ihargs
    refine .of_applied (.call p q) ?_ ?_ ?_
    · rw [Phrase.tokens, Form.tokens, hts, hqts]
    · rw [Phrase.meaning, hm, hqm]
    · rw [Phrase.depth, Form.depth]
      omega
  | @index v i hv ht hi g ihv ihi =>
    refine Spelled.regroup (.index v i) (.index (v.read style) (i.read style)) ?_ g
    obtain ⟨p, hts, hm, hd⟩ := ihv.applied ht
    obtain ⟨q, hqts, hqm, hqd⟩ := ihi.expression
    refine .of_applied (.index p q) ?_ ?_ ?_
    · rw [Phrase.tokens, Form.tokens, hts, hqts]
    · rw [Phrase.meaning, hm, hqm]
    · rw [Phrase.depth, Form.depth]
      omega
  | @member v x hv ht hx g ih =>
    refine Spelled.regroup (.member v x) (.member (v.read style) x) ?_ g
    obtain ⟨p, hts, hm, hd⟩ := ih.applied ht
    refine .of_applied (.member p x) ?_ ?_ ?_
    · rw [Phrase.tokens, Form.tokens, hts]
    · rw [Phrase.meaning, hm]
    · rw [Phrase.depth, Form.depth]
      exact hd
  | @dict es hk hv g ihk ihv =>
    rw [Expr.read_dict]
    refine Spelled.regroup (.dict es) _ ?_ g
    obtain ⟨p, hts, hm, hd⟩ := exists_entries fun n hn => ⟨ihk n hn, ihv n hn⟩
    refine .of_primary (.dict p) ?_ ?_ ?_
    · rw [Phrase.tokens, Form.tokens, hts]
    · rw [Phrase.meaning, hm]
    · rw [Phrase.depth, Form.depth]
      exact hd
  | @list es hes g ih =>
    rw [Expr.read_list]
    refine Spelled.regroup (.list es) (.list (es.map (Expr.read style))) ?_ g
    obtain ⟨p, hts, hm, hd⟩ := exists_arguments ih
    refine .of_primary (.list p) ?_ ?_ ?_
    · rw [Phrase.tokens, Form.tokens, hts]
    · rw [Phrase.meaning, hm]
    · rw [Phrase.depth, Form.depth]
      exact hd

/-- Keyed, an expression is read as itself. -/
theorem Expr.Formed.read_keyed {e : Expr} (h : e.Formed) : e.read .keyed = e := by
  induction h with
  | name hx g => rfl
  | number ht g => rfl
  | string hc g => rfl
  | truth b g => rfl
  | @assign x v hx hv g ih => exact congrArg (fun w => (⟨.assign x w, g⟩ : Expr)) ih
  | @binary op l r hl hr htl htr g ihl ihr =>
    exact congrArg₂ (fun a b => (⟨.binary op a b, g⟩ : Expr)) ihl ihr
  | @unary op e he ht g ih => exact congrArg (fun a => (⟨.unary op a, g⟩ : Expr)) ih
  | @call c args hc ht hargs g ihc ihargs =>
    rw [Expr.read_call, ihc, List.map_congr_left ihargs, List.map_id']
  | @index v i hv ht hi g ihv ihi =>
    exact congrArg₂ (fun a b => (⟨.index a b, g⟩ : Expr)) ihv ihi
  | @member v x hv ht hx g ih => exact congrArg (fun a => (⟨.member a x, g⟩ : Expr)) ih
  | @dict es hk hv g ihk ihv =>
    have hes : es.map (Entry.read .keyed) = es := by
      refine (List.map_congr_left fun n hn => ?_).trans (List.map_id' es)
      rw [Entry.read, ihk n hn, ihv n hn]
      cases n
      rfl
    rw [Expr.read_dict, Pairing.entries, hes]
  | @list es hes g ih => rw [Expr.read_list, List.map_congr_left ih, List.map_id']

end Offside
