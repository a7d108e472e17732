import Offside.Proofs.Determined.Parts

/-!
# The parts determine the expression

Not all of a tree can be seen in its rendering: an assignment inside of an expression has
parentheses of its own, and so has the value of a member, whether or not they stood in the program;
and a truth value looks like a name. `Expr.norm` removes these differences, and no others
(`Expr.Formed.eq_of_parts`).

Rendered parts are nearly tokens of a program. Words have to be put back to the marks they stand
for, and the entries of dictionaries, of which the keys and values are written with a colon, read as
one list (`Part.image`). What is read then is a tree in which every pair of parentheses of the
rendering is explicit (`Expr.explicit`), and from which the normal form can be taken
(`Expr.decode`).
-/

namespace Offside

/-! ## The normal form -/

/-- One node of the normal form. -/
def Expr.normNode : Expr → Expr
  | ⟨.assign x value, _⟩ => ⟨.assign x value, false⟩
  | ⟨.member value x, grouped⟩ => ⟨.member ⟨value.form, false⟩ x, grouped⟩
  | ⟨.truth true, grouped⟩ => ⟨.name "True", grouped⟩
  | ⟨.truth false, grouped⟩ => ⟨.name "False", grouped⟩
  | e => e

/-- The expression without the flags of assignments and of the values of members, and with names for
truth values. -/
def Expr.norm : Expr → Expr := Expr.rebuild Expr.normNode

/-! ## What rendering makes explicit -/

def Expr.explicitNode : Expr → Expr
  | ⟨.assign x value, _⟩ => ⟨.assign x value, true⟩
  | ⟨.member value x, grouped⟩ => ⟨.member ⟨value.form, true⟩ x, grouped⟩
  | ⟨.truth true, grouped⟩ => ⟨.name "True", grouped⟩
  | ⟨.truth false, grouped⟩ => ⟨.name "False", grouped⟩
  | e => e

/-- The expression with the parentheses that are written where it stands inside of another. -/
def Expr.explicit : Expr → Expr := Expr.rebuild Expr.explicitNode

def pairUp : List Entry → List Entry
  | k :: v :: es => ⟨k.value, v.value⟩ :: pairUp es
  | _ => []

def Expr.decodeNode : Expr → Expr
  | ⟨.dict es, grouped⟩ => ⟨.dict (pairUp es), grouped⟩
  | e => e.normNode

/-- The normal form of a tree whose entries are one list of keys and values. -/
def Expr.decode : Expr → Expr := Expr.rebuild Expr.decodeNode

theorem isTarget_truth : IsTarget "True" ∧ IsTarget "False" :=
  ⟨⟨isName_of_all (by decide) rfl rfl, by decide, by decide⟩,
    ⟨isName_of_all (by decide) rfl rfl, by decide, by decide⟩⟩

/-- Parentheses can only make an expression hold together more tightly. -/
theorem Expr.Formed.explicit {e : Expr} (h : e.Formed) :
    e.explicit.Formed ∧ e.tier ≤ e.explicit.tier := by
  induction h with
  | name hx g => exact ⟨.name hx g, le_refl _⟩
  | number ht g => exact ⟨.number ht g, le_refl _⟩
  | string hc g => exact ⟨.string hc g, le_refl _⟩
  | truth b g =>
    cases b with
    | true => exact ⟨.name isTarget_truth.1 g, le_refl _⟩
    | false => exact ⟨.name isTarget_truth.2 g, le_refl _⟩
  | @assign x v hx hv g ih =>
    refine ⟨.assign hx ih.1 true, ?_⟩
    cases g with
    | true => exact le_refl 4
    | false => exact Nat.zero_le 4
  | @binary op l r hl hr htl htr g ihl ihr =>
    exact ⟨.binary ihl.1 ihr.1 (htl.trans ihl.2) (htr.trans_le ihr.2) g, le_refl _⟩
  | @unary op e he ht g ih => exact ⟨.unary op ih.1 (ht.trans ih.2) g, le_refl _⟩
  | @call c args hc ht hargs g ihc ihargs =>
    rw [Expr.explicit, Expr.rebuild_call]
    refine ⟨.call ihc.1 (ht.trans ihc.2) (List.forall_mem_map.2 fun a ha => (ihargs a ha).1) g, ?_⟩
    exact le_refl _
  | @index v i hv ht hi g ihv ihi =>
    exact ⟨.index ihv.1 (ht.trans ihv.2) ihi.1 g, le_refl _⟩
  | @member v x hv ht hx g ih => exact ⟨.member (ih.1.regroup true) (le_refl 4) hx g, le_refl _⟩
  | @dict es hk hv g ihk ihv =>
    rw [Expr.explicit, Expr.rebuild_dict]
    refine ⟨.dict (List.forall_mem_map.2 fun n hn => (ihk n hn).1)
      (List.forall_mem_map.2 fun n hn => (ihv n hn).1) g, ?_⟩
    exact le_refl _
  | @list es hes g ih =>
    rw [Expr.explicit, Expr.rebuild_list]
    refine ⟨.list (List.forall_mem_map.2 fun a ha => (ih a ha).1) g, ?_⟩
    exact le_refl _

/-! ## Parts as tokens -/

/-- The tokens of a program that a part stands for. A line break ends an expression, as a comma
does. -/
def Part.image : Part → List Token
  | token t =>
    match t.kind with
    | .mark .walrus => [Mark.equal.token]
    | .mark .colon => [Mark.comma.token]
    | _ => [t]
  | verb v => [v.mark.token]
  | elif => [Keyword.elseWord.token, Keyword.ifWord.token]
  | space => []
  | newline => [Mark.comma.token]

@[simp] theorem Part.image_space : Part.space.image = [] := rfl

@[simp] theorem Part.image_name (x : String) : (Part.name x).image = [.bare .name x] := rfl

@[simp] theorem Part.image_walrus : (Part.mark .walrus).image = [Mark.equal.token] := rfl

@[simp] theorem Part.image_colon : (Part.mark .colon).image = [Mark.comma.token] := rfl

theorem Part.image_mark {m : Mark} (hw : m ≠ .walrus) (hc : m ≠ .colon) :
    (Part.mark m).image = [m.token] := by
  cases m with
  | walrus => exact absurd rfl hw
  | colon => exact absurd rfl hc
  | _ => rfl

theorem BinaryOp.image_part (op : BinaryOp) : op.part.image = [op.mark.token] := by
  cases op <;> rfl

theorem UnaryOp.image_parts (op : UnaryOp) : op.parts.flatMap Part.image = [op.mark.token] := by
  cases op <;> rfl

theorem Expr.grouped_explicit {form : Form} (h : form.isAssign = false) (g : Bool) :
    (Expr.explicit ⟨form, g⟩).grouped = g := by
  cases form with
  | assign x v => exact absurd h (by simp [Form.isAssign])
  | truth b => cases b <;> rfl
  | name | number | string | binary | unary | call | index | member | dict | list => rfl

/-- The value of a member, which is written with one pair of parentheses in any case. -/
theorem Expr.image_member {form : Form} {g : Bool}
    (h : (Expr.parts .operand ⟨form, g⟩).flatMap Part.image =
      (Expr.explicit ⟨form, g⟩).tokens .flat) :
    (if form.isAssign then form.parts else parenParts form.parts).flatMap Part.image =
      Expr.tokens .flat ⟨(Expr.explicit ⟨form, g⟩).form, true⟩ := by
  have hmark : ∀ m, m ≠ .walrus → m ≠ .colon → (Part.mark m).image = [m.token] :=
    fun m => Part.image_mark
  cases hform : form.isAssign with
  | true =>
    cases form with
    | assign x v => cases g <;> exact h
    | name | number | string | truth | binary | unary | call | index | member | dict | list =>
      cases hform
  | false =>
    have hgrouped := Expr.grouped_explicit hform g
    generalize Expr.explicit ⟨form, g⟩ = e at h hgrouped ⊢
    obtain ⟨form', grouped⟩ := e
    obtain rfl : grouped = g := hgrouped
    rw [Expr.parts, hform] at h
    · cases grouped with
      | false =>
        rw [if_neg (by decide), flatMap_parenParts hmark, Expr.tokens, if_pos rfl]
        rw [Expr.tokens] at h
        exact congrArg (fun ts => Mark.openParen.token :: (ts ++ [Mark.closeParen.token])) h
      | true => exact h
    · simp

/-- What an expression inside of another is written with are the tokens of its explicit form. -/
theorem Expr.Formed.image_parts {e : Expr} (h : e.Formed) :
    (e.parts .operand).flatMap Part.image = e.explicit.tokens .flat := by
  have hmark : ∀ m, m ≠ .walrus → m ≠ .colon → (Part.mark m).image = [m.token] :=
    fun m => Part.image_mark
  induction h with
  | @name x hx g => exact Expr.flatMap_operand hmark (.name x) (.name x) rfl rfl g
  | @number text ht g => exact Expr.flatMap_operand hmark (.number text) (.number text) rfl rfl g
  | @string content hc g =>
    exact Expr.flatMap_operand hmark (.string content) (.string content) rfl rfl g
  | truth b g =>
    cases b with
    | true => exact Expr.flatMap_operand hmark (.truth true) (.name "True") rfl rfl g
    | false => exact Expr.flatMap_operand hmark (.truth false) (.name "False") rfl rfl g
  | @assign x v hx hv g ih =>
    -- The parentheses of an assignment are written by its form.
    have hparts : Expr.parts .operand ⟨.assign x v, g⟩ =
        parenParts (.name x :: .space :: .mark .walrus :: .space :: v.parts .operand) := by
      rw [Expr.parts, Form.parts]
      · simp [Form.isAssign]
      · simp
    rw [hparts, flatMap_parenParts hmark]
    simp only [List.flatMap_cons, Part.image_name, Part.image_space, Part.image_walrus, ih]
    rfl
  | @binary op l r hl hr htl htr g ihl ihr =>
    refine Expr.flatMap_operand hmark _ (.binary op l.explicit r.explicit) ?_ rfl g
    rw [Form.tokens, ← ihl, ← ihr, Form.parts]
    simp [op.image_part]
  | @unary op e he ht g ih =>
    refine Expr.flatMap_operand hmark _ (.unary op e.explicit) ?_ rfl g
    rw [Form.tokens, ← ih, Form.parts, List.flatMap_append, op.image_parts]
    rfl
  | @call c args hc ht hargs g ihc ihargs =>
    rw [Expr.explicit, Expr.rebuild_call]
    refine Expr.flatMap_operand hmark _ (.call c.explicit (args.map Expr.explicit)) ?_ rfl g
    rw [Form.tokens, ← ihc, ← flatMap_partsAll hmark rfl ihargs, Form.parts, List.flatMap_append,
      flatMap_parenParts hmark]
  | @index v i hv ht hi g ihv ihi =>
    refine Expr.flatMap_operand hmark _ (.index v.explicit i.explicit) ?_ rfl g
    rw [Form.tokens, ← ihv, ← ihi, Form.parts]
    simp [Part.image_mark]
  | @member v x hv ht hx g ih =>
    refine Expr.flatMap_operand hmark _ (.member ⟨v.explicit.form, true⟩ x) ?_ rfl g
    obtain ⟨form, grouped⟩ := v
    rw [Form.parts, List.flatMap_append, Expr.image_member ih, Form.tokens]
    simp [Part.image_mark]
  | @dict es hk hv g ihk ihv =>
    rw [Expr.explicit, Expr.rebuild_dict]
    refine Expr.flatMap_operand hmark _ (.dict (es.map (Entry.rebuild Expr.explicitNode))) ?_ rfl g
    have hentry : ∀ n ∈ es, n.parts.flatMap Part.image =
        (n.rebuild Expr.explicitNode).tokens .flat := by
      intro n hn
      have hkey := ihk n hn
      have hvalue := ihv n hn
      obtain ⟨key, value⟩ := n
      simp only [Expr.explicit] at hkey hvalue
      rw [Entry.rebuild, Entry.tokens, ← hkey, ← hvalue, Entry.parts, Pairing.separator]
      simp
    rw [Form.tokens, ← flatMap_partsEntries hmark rfl hentry]
    cases es with
    | nil => rfl
    | cons n es => simp [Form.parts, partsEntries, Part.image_mark]
  | @list es hes g ih =>
    rw [Expr.explicit, Expr.rebuild_list]
    refine Expr.flatMap_operand hmark _ (.list (es.map Expr.explicit)) ?_ rfl g
    rw [Form.tokens, ← flatMap_partsAll hmark rfl ih, Form.parts]
    simp [Part.image_mark]

/-! ## Back to the normal form -/

/-- The keys and values of entries that were read as one list make up the entries again. -/
theorem pairUp_flat (f : Expr → Expr) (es : List Entry) :
    pairUp ((Pairing.flat.entries es).map (Entry.rebuild f)) = es.map (Entry.rebuild f) := by
  induction es with
  | nil => rfl
  | cons n es ih => exact congrArg (n.rebuild f :: ·) ih

/-- The flag of the value of a member is not looked at. -/
theorem Expr.decode_member (e : Expr) (x : String) (g : Bool) :
    (Expr.read .flat ⟨.member ⟨e.form, true⟩ x, g⟩).decode
      = ⟨.member ⟨(e.read .flat).decode.form, false⟩ x, g⟩ := by
  obtain ⟨form, grouped⟩ := e
  cases form with
  | truth b => cases b <;> rfl
  | name | number | string | assign | binary | unary | call | index | member | dict | list => rfl

theorem Expr.Formed.decode_explicit {e : Expr} (h : e.Formed) :
    (e.explicit.read .flat).decode = e.norm := by
  induction h with
  | name hx g => rfl
  | number ht g => rfl
  | string hc g => rfl
  | truth b g => cases b <;> rfl
  | @assign x v hx hv g ih => exact congrArg (fun w => (⟨.assign x w, false⟩ : Expr)) ih
  | @binary op l r hl hr htl htr g ihl ihr =>
    exact congrArg₂ (fun a b => (⟨.binary op a b, g⟩ : Expr)) ihl ihr
  | @unary op e he ht g ih => exact congrArg (fun a => (⟨.unary op a, g⟩ : Expr)) ih
  | @call c args hc ht hargs g ihc ihargs =>
    have hall : args.map (fun a => (a.explicit.read .flat).decode) = args.map Expr.norm :=
      List.map_congr_left ihargs
    have hexplicit :
        Expr.explicit ⟨.call c args, g⟩ = ⟨.call c.explicit (args.map Expr.explicit), g⟩ :=
      Expr.rebuild_call _ c args g
    have hnorm : Expr.norm ⟨.call c args, g⟩ = ⟨.call c.norm (args.map Expr.norm), g⟩ :=
      Expr.rebuild_call _ c args g
    rw [hexplicit, Expr.read_call, hnorm, ← ihc, ← hall, List.map_map]
    refine (Expr.rebuild_call _ _ _ g).trans ?_
    rw [List.map_map]
    rfl
  | @index v i hv ht hi g ihv ihi =>
    exact congrArg₂ (fun a b => (⟨.index a b, g⟩ : Expr)) ihv ihi
  | @member v x hv ht hx g ih =>
    refine (Expr.decode_member v.explicit x g).trans ?_
    rw [ih]
    rfl
  | @dict es hk hv g ihk ihv =>
    have hall : es.map (fun n => ⟨(n.key.explicit.read .flat).decode,
        (n.value.explicit.read .flat).decode⟩) = es.map (Entry.rebuild Expr.normNode) := by
      refine List.map_congr_left fun n hn => ?_
      rw [ihk n hn, ihv n hn]
      rfl
    have hexplicit : Expr.explicit ⟨.dict es, g⟩ =
        ⟨.dict (es.map (Entry.rebuild Expr.explicitNode)), g⟩ := Expr.rebuild_dict _ es g
    have hnorm : Expr.norm ⟨.dict es, g⟩ = ⟨.dict (es.map (Entry.rebuild Expr.normNode)), g⟩ :=
      Expr.rebuild_dict _ es g
    rw [hexplicit, Expr.read_dict, hnorm, ← hall, List.map_map]
    refine (Expr.rebuild_dict _ _ g).trans ?_
    rw [Expr.decodeNode, pairUp_flat, List.map_map]
    rfl
  | @list es hes g ih =>
    have hall : es.map (fun a => (a.explicit.read .flat).decode) = es.map Expr.norm :=
      List.map_congr_left ih
    have hexplicit : Expr.explicit ⟨.list es, g⟩ = ⟨.list (es.map Expr.explicit), g⟩ :=
      Expr.rebuild_list _ es g
    have hnorm : Expr.norm ⟨.list es, g⟩ = ⟨.list (es.map Expr.norm), g⟩ := Expr.rebuild_list _ es g
    rw [hexplicit, Expr.read_list, hnorm, ← hall, List.map_map]
    refine (Expr.rebuild_list _ _ g).trans ?_
    rw [List.map_map]
    rfl

/-- In either role, an expression is written as a well-formed tree from which its normal form can be
taken. -/
theorem Expr.Formed.exists_spelling {e : Expr} (h : e.Formed) (role : Role) :
    ∃ e' : Expr, e'.Formed ∧ (e.parts role).flatMap Part.image = e'.tokens .flat ∧
      (e'.read .flat).decode = e.norm := by
  cases role with
  | operand => exact ⟨e.explicit, h.explicit.1, h.image_parts, h.decode_explicit⟩
  | statement =>
    have hf := h
    induction h with
    | @assign x v hx hv g ih =>
      obtain ⟨v', hv', himage, hdecode⟩ : ∃ v' : Expr, v'.Formed ∧
          (v.parts v.roleAsValue).flatMap Part.image = v'.tokens .flat ∧
            (v'.read .flat).decode = v.norm := by
        cases v.roleAsValue with
        | statement => exact ih hv
        | operand => exact ⟨v.explicit, hv.explicit.1, hv.image_parts, hv.decode_explicit⟩
      refine ⟨⟨.assign x v', false⟩, .assign hx hv' false, ?_, ?_⟩
      · rw [Expr.parts, Expr.tokens, Form.tokens, ← himage]
        simp [Part.image_mark]
      · exact congrArg (fun w => (⟨.assign x w, false⟩ : Expr)) hdecode
    | name | number | string | truth | binary | unary | call | index | member | dict | list =>
      exact ⟨_, hf.explicit.1, hf.image_parts, hf.decode_explicit⟩

/-! ## Where an expression ends -/

/-- The parts start with a line break or a colon, or there are none. -/
def StopsExpr (ps : List Part) : Prop := ∀ p ∈ ps.head?, p.image = [Mark.comma.token]

theorem stopsExpr_cons {p : Part} (h : p.image = [Mark.comma.token]) (ps : List Part) :
    StopsExpr (p :: ps) := by
  intro q hq
  obtain rfl := Option.some.inj hq
  exact h

theorem StopsExpr.ends {ps : List Part} (h : StopsExpr ps) :
    Token.Ends Kind.continues (ps.flatMap Part.image) := by
  cases ps with
  | nil => exact Token.ends_nil _
  | cons p ps =>
    rw [List.flatMap_cons, h p rfl]
    exact Token.ends_cons.2 rfl

theorem StopsExpr.eq_nil {ps qs rs : List Part} (h : StopsExpr rs) (heq : rs = ps ++ qs)
    (himage : ps.flatMap Part.image = []) : ps = [] := by
  cases ps with
  | nil => rfl
  | cons p ps =>
    have hp := h p (by rw [heq]; rfl)
    rw [List.flatMap_cons, hp] at himage
    exact nomatch himage

/-- What is behind an expression starts at the same place if the expression reads the same. -/
theorem StopsExpr.eq_of_image {ps qs rs us : List Part} (h : ps ++ rs = qs ++ us)
    (himage : ps.flatMap Part.image = qs.flatMap Part.image) (hr : StopsExpr rs)
    (hu : StopsExpr us) : rs = us := by
  rcases List.append_eq_append_iff.1 h with ⟨as, rfl, heq⟩ | ⟨as, rfl, heq⟩
  · rw [List.flatMap_append, List.self_eq_append_right] at himage
    rw [heq, hr.eq_nil heq himage, List.nil_append]
  · rw [List.flatMap_append, List.append_right_eq_self] at himage
    rw [heq, hu.eq_nil heq himage, List.nil_append]

/-- The normal form of an expression is determined by its parts, and so is its end. -/
theorem Expr.Formed.eq_of_parts {e e' : Expr} (h : e.Formed) (h' : e'.Formed) (role : Role)
    {rs us : List Part} (hr : StopsExpr rs) (hu : StopsExpr us)
    (heq : e.parts role ++ rs = e'.parts role ++ us) : e.norm = e'.norm ∧ rs = us := by
  obtain ⟨f, hf, himage, hnorm⟩ := h.exists_spelling role
  obtain ⟨f', hf', himage', hnorm'⟩ := h'.exists_spelling role
  obtain ⟨p, hp, hm, -⟩ := (spelled .flat hf).expression
  obtain ⟨p', hp', hm', -⟩ := (spelled .flat hf').expression
  have htokens : p.tokens ++ rs.flatMap Part.image = p'.tokens ++ us.flatMap Part.image := by
    rw [hp, hp', ← himage, ← himage', ← List.flatMap_append, ← List.flatMap_append, heq]
  obtain ⟨hmeaning, hrest⟩ := Grammar.tokens_unique hr.ends hu.ends htokens
  rw [hrest] at htokens
  have hsame : p.tokens = p'.tokens := List.append_cancel_right htokens
  constructor
  · rw [← hnorm, ← hnorm', ← hm, ← hm', hmeaning]
  · refine StopsExpr.eq_of_image heq ?_ hr hu
    rw [himage, himage', ← hp, ← hp', hsame]

end Offside
