import Offside.Proofs.Operators.Safe

/-!
# Assignments in a rendered expression

An assignment inside of an expression is written with `:=`, in parentheses that hold nothing else;
one that is a statement with `=`, and so are those that are its whole value, one in the other
(`Expr.targets`). This is said about the tokens that are read in the text: the assignments of an
expression and the signs for them, in their order, correspond to each other (`Token.Assigned`).
Each way to put an expression together keeps this, with the parentheses balanced
(`Token.Embedded`), and so it holds of all of them (`Expr.Formed.embedded_form`).
-/

namespace Offside

mutual

/-- The assignments in an expression, with their names and values, in the order of their signs. -/
def Expr.assigns : Expr → List (String × Expr)
  | ⟨form, _⟩ => form.assigns

def Form.assigns : Form → List (String × Expr)
  | .name _ | .number _ | .string _ | .truth _ => []
  | .assign x value => (x, value) :: value.assigns
  | .binary _ left right => left.assigns ++ right.assigns
  | .unary _ operand => operand.assigns
  | .call callee args => callee.assigns ++ assignsAll args
  | .index value index => value.assigns ++ index.assigns
  | .member value _ => value.assigns
  | .dict entries => assignsEntries entries
  | .list elements => assignsAll elements

def assignsAll : List Expr → List (String × Expr)
  | [] => []
  | e :: es => e.assigns ++ assignsAll es

def assignsEntries : List Entry → List (String × Expr)
  | [] => []
  | ⟨key, value⟩ :: es => key.assigns ++ value.assigns ++ assignsEntries es

end

/-- The names that a statement assigns to one after the other: its own, and those of its value if
that is an assignment and not in parentheses. -/
def Expr.targets : Expr → List String
  | ⟨.assign x value, _⟩ => x :: if value.grouped then [] else value.targets
  | _ => []

/-- What a statement assigns to its names in the end; an expression that is no assignment itself. -/
def Expr.lastValue : Expr → Expr
  | ⟨.assign _ value, _⟩ => if value.grouped then value else value.lastValue
  | e => e

namespace Token

/-- The text is read as these tokens, wherever they stand. -/
def ReadAs (text : String) (ts : List Token) : Prop :=
  ∃ us, scan text = .ok us ∧ us.map unplaced = ts

def walruses (ts : List Token) : Nat := ts.countP fun t => t.kind = .mark .walrus

/-- Between the tokens `before` and `after` is the place of a `:=`. It has its number among the
assignments, its name and an opening parenthesis before it, and its value and the parenthesis that
closes that one behind it. -/
def AssignedAt (as : List (String × Expr)) (before after : List Token) : Prop :=
  ∃ x v front value rest, as[walruses before]? = some (x, v) ∧
    before = front ++ [Mark.openParen.token, .bare .name x] ∧
    after = value ++ Mark.closeParen.token :: rest ∧ Balanced value ∧
    ReadAs (v.render .operand) value

/-- There is no `=` among the tokens, and there are as many `:=` as assignments, each in its
place. -/
structure Assigned (as : List (String × Expr)) (ts : List Token) : Prop where
  no_equal : ∀ t ∈ ts, t.kind ≠ .mark .equal
  count : walruses ts = as.length
  sites : ∀ before t after, ts = before ++ t :: after → t.kind = .mark .walrus →
    AssignedAt as before after

theorem AssignedAt.append {as : List (String × Expr)} {before after : List Token}
    (h : AssignedAt as before after) (as' : List (String × Expr)) (us : List Token) :
    AssignedAt (as ++ as') before (after ++ us) := by
  obtain ⟨x, v, front, value, rest, hget, hbefore, rfl, hbalanced, hread⟩ := h
  refine ⟨x, v, front, value, rest ++ us, ?_, hbefore, by simp, hbalanced, hread⟩
  rw [List.getElem?_append_left (List.getElem?_eq_some_iff.1 hget).1, hget]

theorem AssignedAt.prepend {as : List (String × Expr)} {before after : List Token}
    (h : AssignedAt as before after) {as' : List (String × Expr)} {ts : List Token}
    (hts : walruses ts = as'.length) : AssignedAt (as' ++ as) (ts ++ before) after := by
  obtain ⟨x, v, front, value, rest, hget, rfl, hafter, hbalanced, hread⟩ := h
  refine ⟨x, v, ts ++ front, value, rest, ?_, by simp, hafter, hbalanced, hread⟩
  rw [walruses, List.countP_append, ← walruses, ← walruses, hts,
    List.getElem?_append_right (Nat.le_add_right _ _), Nat.add_sub_cancel_left, hget]

theorem Assigned.append {as as' : List (String × Expr)} {ts us : List Token}
    (h : Assigned as ts) (h' : Assigned as' us) : Assigned (as ++ as') (ts ++ us) where
  no_equal := List.forall_mem_append.2 ⟨h.no_equal, h'.no_equal⟩
  count := by rw [walruses, List.countP_append, ← walruses, ← walruses, h.count, h'.count,
    List.length_append]
  sites before t after heq ht := by
    rcases List.append_eq_append_iff.1 heq with ⟨mid, rfl, hus⟩ | ⟨mid, rfl, hmid⟩
    · exact (h'.sites mid t after hus ht).prepend h.count
    · rcases mid with _ | ⟨t', mid⟩
      · rw [List.append_nil] at h
        have hat := (h'.sites [] t after hmid.symm ht).prepend h.count
        rwa [List.append_nil] at hat
      · obtain ⟨rfl, rfl⟩ := List.cons.inj hmid
        exact (h.sites before t mid rfl ht).append as' us

theorem assigned_singleton {t : Token} (he : t.kind ≠ .mark .equal) (hw : t.kind ≠ .mark .walrus) :
    Assigned [] [t] where
  no_equal := List.forall_mem_singleton.2 he
  count := by simp [walruses, hw]
  sites before u after heq hu := by
    have hmem : u ∈ [t] := heq ▸ List.mem_append_right before List.mem_cons_self
    exact absurd hu (List.mem_singleton.1 hmem ▸ hw)

/-- An assignment in its parentheses, where `ts` is the value. -/
theorem Assigned.assign {as : List (String × Expr)} {ts : List Token} (h : Assigned as ts)
    (hb : Balanced ts) {x : String} {v : Expr} (hv : ReadAs (v.render .operand) ts) :
    Assigned ((x, v) :: as) (Mark.openParen.token :: .bare .name x :: Mark.walrus.token ::
      (ts ++ [Mark.closeParen.token])) := by
  have hclosed : Assigned as (ts ++ [Mark.closeParen.token]) := by
    have hclose := assigned_singleton (t := Mark.closeParen.token) (by decide) (by decide)
    simpa using h.append hclose
  have hopen : Mark.openParen.token.kind ≠ .mark .walrus := by decide
  have hname : (bare .name x).kind ≠ .mark .walrus := nofun
  constructor
  · rw [List.forall_mem_cons, List.forall_mem_cons, List.forall_mem_cons]
    exact ⟨by decide, nofun, by decide, hclosed.no_equal⟩
  · have hcount := hclosed.count
    unfold walruses at hcount ⊢
    rw [List.countP_cons_of_neg (by simpa using hopen),
      List.countP_cons_of_neg (by simpa using hname), List.countP_cons_of_pos (by decide), hcount,
      List.length_cons]
  · intro before t after heq ht
    rcases before with _ | ⟨a, _ | ⟨b, _ | ⟨c, before⟩⟩⟩
    · obtain ⟨rfl, -⟩ := List.cons.inj heq
      exact absurd ht hopen
    · simp only [List.cons_append, List.nil_append, List.cons.injEq] at heq
      obtain ⟨-, rfl, -⟩ := heq
      exact absurd ht hname
    · simp only [List.cons_append, List.nil_append, List.cons.injEq] at heq
      obtain ⟨rfl, rfl, -, rfl⟩ := heq
      exact ⟨x, v, [], ts, [], rfl, rfl, rfl, hb, hv⟩
    · simp only [List.cons_append, List.cons.injEq] at heq
      obtain ⟨rfl, rfl, rfl, heq⟩ := heq
      have hone : walruses [Mark.openParen.token, .bare .name x, Mark.walrus.token] =
          [(x, v)].length := rfl
      exact (hclosed.sites before t after heq ht).prepend hone

/-- The parentheses among the tokens match, and the signs of assignments are in their places. -/
structure Embedded (as : List (String × Expr)) (ts : List Token) : Prop where
  balanced : Balanced ts
  assigned : Assigned as ts

theorem Embedded.append {as as' : List (String × Expr)} {ts us : List Token}
    (h : Embedded as ts) (h' : Embedded as' us) : Embedded (as ++ as') (ts ++ us) :=
  ⟨h.balanced.append h'.balanced, h.assigned.append h'.assigned⟩

/-- A token that is neither a parenthesis nor the sign of an assignment. -/
def Neutral (t : Token) : Prop :=
  t.slope = 0 ∧ t.kind ≠ .mark .equal ∧ t.kind ≠ .mark .walrus

theorem Neutral.embedded {t : Token} (h : t.Neutral) : Embedded [] [t] :=
  ⟨balanced_singleton h.1, assigned_singleton h.2.1 h.2.2⟩

theorem Embedded.cons {as : List (String × Expr)} {t : Token} {ts : List Token} (ht : t.Neutral)
    (h : Embedded as ts) : Embedded as (t :: ts) := ht.embedded.append h

theorem Embedded.concat {as : List (String × Expr)} {t : Token} {ts : List Token}
    (h : Embedded as ts) (ht : t.Neutral) : Embedded as (ts ++ [t]) := by
  have := h.append ht.embedded
  rwa [List.append_nil] at this

theorem Embedded.enclosed {as : List (String × Expr)} {ts : List Token} (h : Embedded as ts) :
    Embedded as (Mark.openParen.token :: (ts ++ [Mark.closeParen.token])) := by
  have hopen := assigned_singleton (t := Mark.openParen.token) (by decide) (by decide)
  have hclose := assigned_singleton (t := Mark.closeParen.token) (by decide) (by decide)
  have hall := hopen.append (h.assigned.append hclose)
  rw [List.nil_append, List.append_nil] at hall
  exact ⟨h.balanced.enclosed, hall⟩

theorem embedded_nil : Embedded [] [] := by
  refine ⟨⟨rfl, fun ps hp => ?_⟩, ⟨by simp, rfl, by simp⟩⟩
  rw [List.prefix_nil.1 hp]
  exact Int.le_refl 0

theorem embedded_commaTokens {α : Type} {f : α → List (String × Expr)} {g : α → List Token} :
    ∀ {l : List α}, (∀ a ∈ l, Embedded (f a) (g a)) →
      Embedded (l.flatMap f) (commaTokens (l.map g))
  | [], _ => embedded_nil
  | [a], h => by
    have := h a List.mem_cons_self
    simpa [commaTokens] using this
  | a :: b :: l, h => by
    rw [List.forall_mem_cons] at h
    have hcomma : Mark.comma.token.Neutral := ⟨rfl, by decide, by decide⟩
    exact h.1.append ((embedded_commaTokens h.2).cons hcomma)

end Token

open Token

/-! ## The tokens of expressions -/

/-- The tokens that are seen in the text of the entry. -/
def Entry.seen (n : Entry) : List Token := n.key.seen ++ Mark.colon.token :: n.value.seen

theorem Entry.seen_parts (n : Entry) : n.parts.flatMap Part.seen = n.seen := by
  obtain ⟨key, value⟩ := n
  simp [Entry.parts, Entry.seen, Expr.seen]

theorem seen_partsAll (es : List Expr) :
    (commaParts (partsAll es)).flatMap Part.seen = commaTokens (es.map Expr.seen) := by
  rw [flatMap_commaParts (fun m _ _ => Part.seen_mark m) Part.seen_space, partsAll_eq_map,
    List.map_map]
  rfl

theorem seen_partsEntries (es : List Entry) :
    (commaParts (partsEntries es)).flatMap Part.seen = commaTokens (es.map Entry.seen) := by
  rw [flatMap_commaParts (fun m _ _ => Part.seen_mark m) Part.seen_space, partsEntries_eq_map,
    List.map_map]
  exact congrArg commaTokens (List.map_congr_left fun n _ => n.seen_parts)

namespace Form

theorem seen_assign (x : String) (v : Expr) : (Form.assign x v).seen =
    Mark.openParen.token :: .bare .name x :: Mark.walrus.token ::
      (v.seen ++ [Mark.closeParen.token]) := by
  simp [seen, parts, parenParts, Expr.seen]

theorem seen_call (callee : Expr) (args : List Expr) : (Form.call callee args).seen =
    callee.seen ++ Mark.openParen.token ::
      (commaTokens (args.map Expr.seen) ++ [Mark.closeParen.token]) := by
  simp [seen, parts, parenParts, Expr.seen, seen_partsAll]

theorem seen_index (v i : Expr) : (Form.index v i).seen =
    v.seen ++ Mark.openBracket.token :: (i.seen ++ [Mark.closeBracket.token]) := by
  simp [seen, parts, Expr.seen]

/-- Before the dot there are always parentheses. -/
theorem seen_member (form : Form) (g : Bool) (x : String) : (Form.member ⟨form, g⟩ x).seen =
    Expr.seen ⟨form, true⟩ ++ [Mark.dot.token, .bare .name x] := by
  rcases h : form.isAssign <;> simp [seen, parts, Expr.seen, Expr.parts, h]

theorem seen_dict (es : List Entry) : (Form.dict es).seen = Mark.openBrace.token ::
    (commaTokens (es.map Entry.seen) ++ [Mark.closeBrace.token]) := by
  rcases es with _ | ⟨n, es⟩
  · rfl
  · rw [← seen_partsEntries, partsEntries]
    simp [seen, parts]

theorem seen_list (es : List Expr) : (Form.list es).seen = Mark.openBracket.token ::
    (commaTokens (es.map Expr.seen) ++ [Mark.closeBracket.token]) := by
  simp [seen, parts, seen_partsAll]

end Form

theorem assignsAll_eq_flatMap (es : List Expr) : assignsAll es = es.flatMap Expr.assigns := by
  induction es with
  | nil => rfl
  | cons e es ih => rw [assignsAll, ih, List.flatMap_cons]

theorem assignsEntries_eq_flatMap (es : List Entry) :
    assignsEntries es = es.flatMap fun n => n.key.assigns ++ n.value.assigns := by
  induction es with
  | nil => rfl
  | cons n es ih =>
    obtain ⟨key, value⟩ := n
    rw [assignsEntries, ih, List.flatMap_cons]

/-- Parentheses around an expression change nothing about the assignments inside. -/
theorem Token.Embedded.operand {e : Expr} (h : Embedded e.form.assigns e.form.seen) :
    Embedded e.assigns e.seen := by
  obtain ⟨form, g⟩ := e
  rw [Expr.assigns]
  by_cases hg : g = true ∧ form.isAssign = false
  · obtain ⟨rfl, hn⟩ := hg
    rw [Expr.seen_group hn]
    exact h.enclosed
  · have hparts : Expr.parts .operand ⟨form, g⟩ = form.parts := by
      rw [Expr.parts, if_neg (by simpa using hg)]
      simp
    rwa [Expr.seen, hparts]

theorem Token.neutral_bare_name (x : String) : (bare .name x).Neutral := ⟨rfl, nofun, nofun⟩

theorem BinaryOp.neutral_sign (op : BinaryOp) : op.sign.Neutral :=
  ⟨op.slope_sign, by cases op <;> decide, by cases op <;> decide⟩

theorem UnaryOp.neutral_sign (op : UnaryOp) : op.sign.Neutral :=
  ⟨op.slope_sign, by cases op <;> decide, by cases op <;> decide⟩

theorem Expr.Formed.embedded_form {e : Expr} (h : e.Formed) :
    Embedded e.form.assigns e.form.seen := by
  have hbracket : Mark.openBracket.token.Neutral ∧ Mark.closeBracket.token.Neutral :=
    ⟨⟨rfl, nofun, nofun⟩, ⟨rfl, nofun, nofun⟩⟩
  have hbrace : Mark.openBrace.token.Neutral ∧ Mark.closeBrace.token.Neutral :=
    ⟨⟨rfl, nofun, nofun⟩, ⟨rfl, nofun, nofun⟩⟩
  induction h with
  | name hx g => exact (neutral_bare_name _).embedded
  | number ht g => exact Neutral.embedded ⟨rfl, nofun, nofun⟩
  | string hc g => exact Neutral.embedded ⟨rfl, nofun, nofun⟩
  | truth b g => cases b <;> exact (neutral_bare_name _).embedded
  | @assign x v hx hv g ih =>
    rw [Form.seen_assign, Form.assigns]
    -- A `:=` is not neutral, so the balance is shown apart from the places of the signs.
    have hwalrus : Balanced (Mark.walrus.token :: v.seen) :=
      (balanced_singleton rfl).append ih.operand.balanced
    have hinside : Balanced (.bare .name x :: Mark.walrus.token :: v.seen) :=
      (balanced_singleton rfl).append hwalrus
    exact ⟨hinside.enclosed, ih.operand.assigned.assign ih.operand.balanced hv.scan_render⟩
  | @binary op l r hl hr htl htr g ihl ihr =>
    rw [Form.seen_binary, Form.assigns]
    exact ihl.operand.append (ihr.operand.cons op.neutral_sign)
  | @unary op e he ht g ih =>
    rw [Form.seen_unary, Form.assigns]
    exact ih.operand.cons op.neutral_sign
  | @call c args hc ht hargs g ihc ihargs =>
    rw [Form.seen_call, Form.assigns, assignsAll_eq_flatMap]
    exact ihc.operand.append (embedded_commaTokens fun e he => (ihargs e he).operand).enclosed
  | @index v i hv ht hi g ihv ihi =>
    rw [Form.seen_index, Form.assigns]
    exact ihv.operand.append ((ihi.operand.concat hbracket.2).cons hbracket.1)
  | @member v x hv ht hx g ih =>
    obtain ⟨form, grouped⟩ := v
    -- What stands before the dot gets parentheses even if it had none.
    have hreceiver : Embedded (Expr.assigns ⟨form, true⟩) (Expr.seen ⟨form, true⟩) :=
      Embedded.operand ih
    have hdot : Mark.dot.token.Neutral := ⟨rfl, nofun, nofun⟩
    have hmember := (hreceiver.concat hdot).concat (neutral_bare_name x)
    rw [Form.seen_member, Form.assigns]
    simpa [Expr.assigns] using hmember
  | @dict es hk hv g ihk ihv =>
    rw [Form.seen_dict, Form.assigns, assignsEntries_eq_flatMap]
    have hcolon : Mark.colon.token.Neutral := ⟨rfl, nofun, nofun⟩
    have hall := embedded_commaTokens fun n hn =>
      (ihk n hn).operand.append ((ihv n hn).operand.cons hcolon)
    exact (hall.concat hbrace.2).cons hbrace.1
  | @list es hes g ih =>
    rw [Form.seen_list, Form.assigns, assignsAll_eq_flatMap]
    exact ((embedded_commaTokens fun e he => (ih e he).operand).concat hbracket.2).cons hbracket.1

/-! ## Statements -/

/-- The tokens for the names of a statement, each with the sign behind it. -/
def Token.targetTokens (xs : List String) : List Token :=
  xs.flatMap fun x => [.bare .name x, Mark.equal.token]

namespace Expr

theorem targets_of_not_assign {e : Expr} (h : e.form.isAssign = false) : e.targets = [] := by
  obtain ⟨form, g⟩ := e
  cases form with
  | assign x v => exact absurd h (by simp [Form.isAssign])
  | name | number | string | truth | binary | unary | call | index | member | dict | list => rfl

theorem lastValue_of_not_assign {e : Expr} (h : e.form.isAssign = false) : e.lastValue = e := by
  obtain ⟨form, g⟩ := e
  cases form with
  | assign x v => exact absurd h (by simp [Form.isAssign])
  | name | number | string | truth | binary | unary | call | index | member | dict | list => rfl

/-- What a statement assigns to is followed by what the value is written as, which is again a
statement unless the value stands in parentheses. -/
theorem parts_roleAsValue (v : Expr) :
    v.parts v.roleAsValue = if v.grouped then v.parts .operand else v.parts .statement := by
  unfold roleAsValue
  rcases hg : v.grouped
  · rcases hn : v.form.isAssign
    · simp [parts_statement hn]
    · simp
  · simp

/-- Induction along the values of assignments. -/
theorem chain_induct {P : Expr → Prop} (plain : ∀ e : Expr, e.form.isAssign = false → P e)
    (assign : ∀ x v g, P v → P ⟨.assign x v, g⟩) (e : Expr) : P e := by
  fun_induction Expr.targets e with
  | case1 x v g ih => exact assign x v g ih
  | case2 e hne =>
    refine plain e ?_
    obtain ⟨form, g⟩ := e
    cases form with
    | assign x v => exact absurd rfl (hne x v g)
    | name | number | string | truth | binary | unary | call | index | member | dict | list => rfl

/-- A statement is written as its names, and then the last value as inside of an expression. -/
theorem seen_statement (e : Expr) : (e.parts .statement).flatMap Part.seen =
    targetTokens e.targets ++ e.lastValue.seen := by
  induction e using chain_induct with
  | plain e hn =>
    rw [parts_statement hn, targets_of_not_assign hn, lastValue_of_not_assign hn]
    rfl
  | assign x v g ih =>
    unfold targetTokens at ih
    rw [parts, parts_roleAsValue, targets, lastValue, targetTokens]
    rcases hg : v.grouped
    · simp [ih]
    · simp [seen]

/-- The first assignments are those of the statement, and the others are in the last value. -/
theorem exists_assigns_eq_append (e : Expr) : ∃ chain, e.assigns = chain ++ e.lastValue.assigns ∧
    chain.map Prod.fst = e.targets := by
  induction e using chain_induct with
  | plain e hn =>
    rw [targets_of_not_assign hn, lastValue_of_not_assign hn]
    exact ⟨[], rfl, rfl⟩
  | assign x v g ih =>
    rw [assigns, Form.assigns, targets, lastValue]
    rcases hg : v.grouped
    · obtain ⟨chain, hassigns, hnames⟩ := ih
      exact ⟨(x, v) :: chain, by simp [hassigns], by simp [hnames]⟩
    · exact ⟨[(x, v)], rfl, rfl⟩

theorem Formed.lastValue {e : Expr} (h : e.Formed) : e.lastValue.Formed := by
  induction e using chain_induct with
  | plain e hn => rwa [lastValue_of_not_assign hn]
  | assign x v g ih =>
    cases h with
    | assign hx hv =>
      rw [Expr.lastValue]
      split
      · exact hv
      · exact ih hv

/-- Inside of an expression of a program, every assignment is written with `:=`, and in parentheses
of its own. As a statement, the expression starts with its chain of names, with `=` behind each, and
only the assignments of the last value are written with `:=`. -/
theorem assigned_render {source : String} {b : Block} {e : Expr}
    (hp : Block.parse source = .ok b) (he : e.OccursIn b) :
    (∃ ts, ReadAs (e.render .operand) ts ∧ Assigned e.assigns ts) ∧
      ∃ chain others rest, e.assigns = chain ++ others ∧ chain.map Prod.fst = e.targets ∧
        ReadAs (e.render .statement) (targetTokens e.targets ++ rest) ∧ Assigned others rest := by
  obtain ⟨ts, -, hl, p, hacc, rfl⟩ := Block.exists_phrase_of_parse hp
  have hformed : e.Formed := he.formed (Phrase.formed_meaning p (hacc.lexical hl))
  obtain ⟨chain, hassigns, hnames⟩ := e.exists_assigns_eq_append
  refine ⟨⟨e.seen, hformed.scan_render, hformed.embedded_form.operand.assigned⟩,
    chain, e.lastValue.assigns, e.lastValue.seen, hassigns, hnames, ?_, ?_⟩
  · rw [ReadAs, ← seen_statement]
    exact hformed.scan_role .statement
  · exact hformed.lastValue.embedded_form.operand.assigned

/-- The statement `a = b = (c = 1)` goes on with `=` up to the parenthesis. Inside of an expression
there would be three signs `:=`. -/
theorem assigned_render_chain :
    let inner : Expr := ⟨.assign "c" ⟨.number "1", false⟩, true⟩
    let e : Expr := ⟨.assign "a" ⟨.assign "b" inner, false⟩, false⟩
    Block.parse "a = b = (c = 1)" = .ok [.expr e] ∧
      (∃ ts, ReadAs "(a := (b := (c := 1)))" ts ∧ Assigned e.assigns ts ∧ walruses ts = 3) ∧
      ∃ rest, ReadAs "a = b = (c := 1)" (targetTokens ["a", "b"] ++ rest) ∧
        Assigned inner.assigns rest ∧ walruses rest = 1 := by
  intro inner e
  have hscan : Token.scan "a = b = (c = 1)" = .ok [⟨.name, "a", some ⟨0, 0⟩⟩,
      ⟨.mark .equal, "=", some ⟨0, 2⟩⟩, ⟨.name, "b", some ⟨0, 4⟩⟩,
      ⟨.mark .equal, "=", some ⟨0, 6⟩⟩, ⟨.mark .openParen, "(", some ⟨0, 8⟩⟩,
      ⟨.name, "c", some ⟨0, 9⟩⟩, ⟨.mark .equal, "=", some ⟨0, 11⟩⟩,
      ⟨.number, "1", some ⟨0, 13⟩⟩, ⟨.mark .closeParen, ")", some ⟨0, 14⟩⟩] := rfl
  let target (x : String) (h : x ≠ "T" ∧ x ≠ "F") : Phrase .expression → Phrase .expression :=
    .assign ⟨x, h⟩
  let ofPrimary (p : Phrase .primary) : Phrase .expression :=
    .plain (.ofFactor (.ofUnary (.ofApplied (.ofPrimary p))))
  let group := ofPrimary (.group (target "c" (by decide) (ofPrimary (.number "1"))))
  let statement := target "a" (by decide) (target "b" (by decide) group)
  have hparse : Block.parse "a = b = (c = 1)" = .ok [.expr e] := Block.parse_of_phrase hscan
    (p := .nextStatement (.expr statement) .noStatements)
    ⟨⟨trivial, trivial⟩, ⟨trivial, fun _ => Token.ends_nil _, trivial⟩, rfl, by decide⟩
  obtain ⟨⟨ts, hread, hassigned⟩, chain, others, rest, hassigns, hnames, hread', hassigned'⟩ :=
    assigned_render hparse (.expr List.mem_cons_self .self)
  have hothers : others = inner.assigns := by
    have hlength : chain.length = 2 := by rw [← List.length_map, hnames]; rfl
    have hdrop := congrArg (List.drop 2) hassigns
    rw [← hlength, List.drop_left] at hdrop
    rw [← hdrop, hlength]
    rfl
  subst hothers
  exact ⟨hparse, ⟨ts, hread, hassigned, hassigned.count⟩, rest, hread', hassigned',
    hassigned'.count⟩

end Expr

end Offside
