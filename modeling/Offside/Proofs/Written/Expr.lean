import Offside.Proofs.Pieces
import Offside.Proofs.Spelled
import Offside.Rendering.Expr

/-!
# The parts of a rendered expression

What rendering writes, part by part: tokens, the operators that are written as words, and the spaces
between them. A well-formed expression is written as its parts (`Expr.Formed.written`), and
their text is clean (`Expr.Formed.clear`).
-/

namespace Offside

/-- The operators that are written as words. -/
inductive Verb where
  | and | or | not
  deriving DecidableEq

namespace Verb

def word : Verb → String
  | and => "and"
  | or => "or"
  | not => "not"

def mark : Verb → Mark
  | and => .and
  | or => .or
  | not => .exclamation

end Verb

inductive Part where
  | token (t : Token)
  /-- An operator that is written as a word. -/
  | verb (v : Verb)
  /-- The word for an `else` with nothing but a conditional in it, together with its `if`. -/
  | elif
  | space
  | newline

namespace Part

/-- What of the part is seen in the text: a word is a name. -/
def piece : Part → Piece
  | token t => .token t
  | verb v => .token (.bare .name v.word)
  | elif => .token (.bare .name "elif")
  | space => .space
  | newline => .newline

def name (x : String) : Part := .token (.bare .name x)

def mark (m : Mark) : Part := .token m.token

end Part

def BinaryOp.part : BinaryOp → Part
  | .and => .verb .and
  | .or => .verb .or
  | op => .mark op.mark

def UnaryOp.parts : UnaryOp → List Part
  | .not => [.verb .not, .space]
  | .negate => [.mark .minus]

/-- The parts with a comma and a space between them. -/
def commaParts : List (List Part) → List Part
  | [] => []
  | [ps] => ps
  | ps :: qss => ps ++ .mark .comma :: .space :: commaParts qss

def parenParts (ps : List Part) : List Part := .mark .openParen :: (ps ++ [.mark .closeParen])

mutual

def Expr.parts : Role → Expr → List Part
  | .statement, ⟨.assign x value, _⟩ =>
    .name x :: .space :: .mark .equal :: .space :: value.parts value.roleAsValue
  | _, ⟨form, grouped⟩ => if grouped && !form.isAssign then parenParts form.parts else form.parts

def Form.parts : Form → List Part
  | .name x => [.name x]
  | .number text => [.token (.bare .number text)]
  | .string content => [.token (.bare .string ("\"" ++ content ++ "\""))]
  | .truth true => [.name "True"]
  | .truth false => [.name "False"]
  | .assign x value =>
    parenParts (.name x :: .space :: .mark .walrus :: .space :: value.parts .operand)
  | .binary op left right =>
    left.parts .operand ++ .space :: op.part :: .space :: right.parts .operand
  | .unary op operand => op.parts ++ operand.parts .operand
  | .call callee args => callee.parts .operand ++ parenParts (commaParts (partsAll args))
  | .index value index =>
    value.parts .operand ++ .mark .openBracket :: (index.parts .operand ++ [.mark .closeBracket])
  | .member ⟨form, _⟩ x =>
    (if form.isAssign then form.parts else parenParts form.parts) ++ [.mark .dot, .name x]
  | .dict [] => [.mark .openBrace, .mark .closeBrace]
  | .dict (n :: es) =>
    .mark .openBrace :: .space ::
      (commaParts (n.parts :: partsEntries es) ++ [.space, .mark .closeBrace])
  | .list elements =>
    .mark .openBracket :: (commaParts (partsAll elements) ++ [.mark .closeBracket])

def Entry.parts : Entry → List Part
  | ⟨key, value⟩ => key.parts .operand ++ .mark .colon :: .space :: value.parts .operand

def partsAll : List Expr → List (List Part)
  | [] => []
  | e :: es => e.parts .operand :: partsAll es

def partsEntries : List Entry → List (List Part)
  | [] => []
  | n :: es => n.parts :: partsEntries es

end

theorem partsAll_eq_map (es : List Expr) : partsAll es = es.map (Expr.parts .operand) := by
  induction es with
  | nil => rw [partsAll, List.map_nil]
  | cons e es ih => rw [partsAll, ih, List.map_cons]

theorem partsEntries_eq_map (es : List Entry) : partsEntries es = es.map Entry.parts := by
  induction es with
  | nil => rw [partsEntries, List.map_nil]
  | cons n es ih => rw [partsEntries, ih, List.map_cons]

/-- Only an assignment is written in another way as a statement. -/
theorem Expr.parts_statement {e : Expr} (h : e.form.isAssign = false) :
    e.parts .statement = e.parts .operand := by
  obtain ⟨form, grouped⟩ := e
  cases form with
  | assign x v => exact absurd h (by simp [Form.isAssign])
  | name | number | string | truth | binary | unary | call | index | member | dict | list => rfl

/-- The property holds of the parts of the form and of those of the statement. -/
structure Expr.Each (P : List Part → Prop) (e : Expr) : Prop where
  form : P e.form.parts
  statement : P (e.parts .statement)

namespace Expr.Each

variable {P : List Part → Prop} {e : Expr}

theorem operand (h : e.Each P) (hparen : ∀ {ps}, P ps → P (parenParts ps)) :
    P (e.parts .operand) := by
  obtain ⟨form, grouped⟩ := e
  rw [Expr.parts]
  · split
    · exact hparen h.form
    · exact h.form
  · exact nofun

theorem role (h : e.Each P) (hparen : ∀ {ps}, P ps → P (parenParts ps)) (role : Role) :
    P (e.parts role) := by
  cases role with
  | statement => exact h.statement
  | operand => exact h.operand hparen

theorem of_form (h : P e.form.parts) (hparen : ∀ {ps}, P ps → P (parenParts ps))
    (hn : e.form.isAssign = false) : e.Each P := by
  refine ⟨h, ?_⟩
  obtain ⟨form, grouped⟩ := e
  rw [Expr.parts_statement hn, Expr.parts]
  · split
    · exact hparen h
    · exact h
  · exact nofun

end Expr.Each

section Reading

-- A reading of parts as tokens that keeps most marks, and no space.
variable {f : Part → List Token}
  (hmark : ∀ m, m ≠ .walrus → m ≠ .colon → f (.mark m) = [m.token]) (hspace : f .space = [])
  {style : Pairing}

include hmark

theorem flatMap_parenParts (ps : List Part) : (parenParts ps).flatMap f =
    Mark.openParen.token :: (ps.flatMap f ++ [Mark.closeParen.token]) := by
  simp [parenParts, hmark]

/-- Parentheses are read as such. -/
theorem Expr.flatMap_operand (form form' : Form) (h : form.parts.flatMap f = form'.tokens style)
    (hn : form.isAssign = false) (g : Bool) :
    (Expr.parts .operand ⟨form, g⟩).flatMap f = Expr.tokens style ⟨form', g⟩ := by
  rw [Expr.parts, Expr.tokens, hn, ← h]
  · cases g with
    | false => rfl
    | true => exact flatMap_parenParts hmark form.parts
  · simp

include hspace

theorem flatMap_commaParts : ∀ pss : List (List Part),
    (commaParts pss).flatMap f = commaTokens (pss.map (List.flatMap f))
  | [] => rfl
  | [ps] => rfl
  | ps :: qs :: pss => by
    rw [List.map_cons, List.map_cons, commaTokens, ← List.map_cons,
      ← flatMap_commaParts (qs :: pss), commaParts, List.flatMap_append,
      List.flatMap_cons, List.flatMap_cons, hmark .comma (by decide) (by decide), hspace]
    · rfl
    · simp

theorem flatMap_partsAll {g : Expr → Expr} {es : List Expr}
    (h : ∀ e ∈ es, (e.parts .operand).flatMap f = (g e).tokens style) :
    (commaParts (partsAll es)).flatMap f = tokensAll style (es.map g) := by
  rw [flatMap_commaParts hmark hspace, tokensAll_eq, partsAll_eq_map, List.map_map, List.map_map]
  exact congrArg commaTokens (List.map_congr_left h)

theorem flatMap_partsEntries {g : Entry → Entry} {es : List Entry}
    (h : ∀ n ∈ es, n.parts.flatMap f = (g n).tokens style) :
    (commaParts (partsEntries es)).flatMap f = tokensEntries style (es.map g) := by
  rw [flatMap_commaParts hmark hspace, tokensEntries_eq, partsEntries_eq_map, List.map_map,
    List.map_map]
  exact congrArg commaTokens (List.map_congr_left h)

end Reading

/-- The tokens that are seen in the text of the part. -/
def Part.seen : Part → List Token
  | token t => [t]
  | verb v => [.bare .name v.word]
  | elif => [.bare .name "elif"]
  | space | newline => []

namespace Part

@[simp] theorem seen_mark (m : Mark) : (Part.mark m).seen = [m.token] := rfl

@[simp] theorem seen_name (x : String) : (Part.name x).seen = [.bare .name x] := rfl

@[simp] theorem seen_token (t : Token) : (Part.token t).seen = [t] := rfl

@[simp] theorem seen_elif : Part.elif.seen = [.bare .name "elif"] := rfl

@[simp] theorem seen_space : Part.space.seen = [] := rfl

@[simp] theorem seen_newline : Part.newline.seen = [] := rfl

end Part

theorem flatMap_seen (ps : List Part) :
    ps.flatMap Part.seen = (ps.map Part.piece).filterMap Piece.token? := by
  induction ps with
  | nil => rfl
  | cons p ps ih =>
    rw [List.flatMap_cons, ih]
    cases p <;> rfl

/-! ## The text of the parts -/

/-- The text is that of the parts. -/
def Writes (text : String) (ps : List Part) : Prop := text.toList = textOf (ps.map Part.piece)

namespace Writes

variable {s t : String} {ps qs : List Part}

theorem append (hs : Writes s ps) (ht : Writes t qs) : Writes (s ++ t) (ps ++ qs) := by
  unfold Writes at *
  rw [String.toList_append, hs, ht, List.map_append, textOf_append]

theorem token (u : Token) : Writes u.lexeme [.token u] := by
  simp [Writes, Part.piece, textOf, Piece.chars]

theorem parenthesized (hs : Writes s ps) : Writes (parenthesized s) (parenParts ps) := by
  have hopen : Writes "(" [.mark .openParen] := rfl
  have hclose : Writes ")" [.mark .closeParen] := rfl
  exact (hopen.append hs).append hclose

theorem commaSeparated : ∀ {texts : List String} {pss : List (List Part)},
    List.Forall₂ Writes texts pss → Writes (commaSeparated texts) (commaParts pss)
  | _, _, .nil => rfl
  | _, _, .cons (a := s) (b := ps) hs .nil => by
    rw [Offside.commaSeparated, String.intercalate_singleton]
    exact hs
  | _, _, .cons hs (.cons ht h) => by
    rw [Offside.commaSeparated, String.intercalate_cons_cons]
    have hcomma : Writes ", " [.mark .comma, .space] := rfl
    have := (hs.append hcomma).append (commaSeparated (.cons ht h))
    rwa [List.append_assoc] at this

end Writes

theorem BinaryOp.writes_part (op : BinaryOp) : Writes op.word [op.part] := by
  cases op <;> rfl

theorem UnaryOp.writes_parts (op : UnaryOp) : Writes op.word op.parts := by
  cases op <;> rfl

/-- An expression inside of another is written as its form, in parentheses if it says so. -/
theorem Expr.writes_operand {e : Expr} (h : Writes e.form.render e.form.parts) :
    Writes (e.render .operand) (e.parts .operand) := by
  obtain ⟨form, grouped⟩ := e
  rw [Expr.render, Expr.parts]
  · split
    · exact h.parenthesized
    · exact h
  · exact nofun
  · exact nofun

theorem Expr.render_statement {e : Expr} (h : e.form.isAssign = false) :
    e.render .statement = e.render .operand := by
  obtain ⟨form, grouped⟩ := e
  cases form with
  | assign x v => exact absurd h (by simp [Form.isAssign])
  | name | number | string | truth | binary | unary | call | index | member | dict | list => rfl

/-- The form and the statement are written as their parts. -/
structure Expr.Written (e : Expr) : Prop where
  form : Writes e.form.render e.form.parts
  statement : Writes (e.render .statement) (e.parts .statement)

theorem Expr.Written.operand {e : Expr} (h : e.Written) :
    Writes (e.render .operand) (e.parts .operand) :=
  Expr.writes_operand h.form

theorem Expr.Written.role {e : Expr} (h : e.Written) (role : Role) :
    Writes (e.render role) (e.parts role) := by
  cases role with
  | statement => exact h.statement
  | operand => exact h.operand

theorem Expr.Written.of_form {e : Expr} (h : Writes e.form.render e.form.parts)
    (hn : e.form.isAssign = false) : e.Written := by
  refine ⟨h, ?_⟩
  rw [Expr.render_statement hn, Expr.parts_statement hn]
  exact Expr.writes_operand h

theorem writes_all {es : List Expr} (h : ∀ e ∈ es, e.Written) :
    Writes (commaSeparated (renderAll es)) (commaParts (partsAll es)) := by
  refine .commaSeparated ?_
  induction es with
  | nil => exact .nil
  | cons e es ih =>
    rw [renderAll, partsAll]
    exact .cons (h e (by simp)).operand (ih fun a ha => h a (by simp [ha]))

theorem writes_entry {n : Entry} (hk : n.key.Written) (hv : n.value.Written) :
    Writes n.render n.parts := by
  obtain ⟨key, value⟩ := n
  rw [Entry.render, Entry.parts]
  have hcolon : Writes ": " [.mark .colon, .space] := rfl
  have := (hk.operand.append hcolon).append hv.operand
  rwa [List.append_assoc] at this

theorem writes_entries {es : List Entry} (h : ∀ n ∈ es, n.key.Written ∧ n.value.Written) :
    List.Forall₂ Writes (renderEntries es) (partsEntries es) := by
  induction es with
  | nil => exact .nil
  | cons n es ih =>
    rw [renderEntries, partsEntries]
    obtain ⟨hk, hv⟩ := h n (by simp)
    exact .cons (writes_entry hk hv) (ih fun a ha => h a (by simp [ha]))

/-- A well-formed expression is written as its parts. -/
theorem Expr.Formed.written {e : Expr} (h : e.Formed) : e.Written := by
  induction h with
  | @name x => exact .of_form (Writes.token (.bare .name x)) rfl
  | @number text => exact .of_form (Writes.token (.bare .number text)) rfl
  | @string content => exact .of_form (Writes.token (.bare .string _)) rfl
  | truth b =>
    cases b with
    | true => exact .of_form (Writes.token (.bare .name "True")) rfl
    | false => exact .of_form (Writes.token (.bare .name "False")) rfl
  | @assign x v hx hv g ih =>
    have hequal : Writes " = " [.space, .mark .equal, .space] := rfl
    have hwalrus : Writes " := " [.space, .mark .walrus, .space] := rfl
    have hname : Writes x [.name x] := Writes.token (.bare .name x)
    constructor
    · exact ((hname.append hwalrus).append ih.operand).parenthesized
    · exact (hname.append hequal).append (ih.role v.roleAsValue)
  | @binary op l r hl hr htl htr g ihl ihr =>
    refine .of_form ?_ rfl
    have hspace : Writes " " [.space] := rfl
    have := (((ihl.operand.append hspace).append op.writes_part).append hspace).append ihr.operand
    rwa [List.append_assoc, List.append_assoc, List.append_assoc] at this
  | @unary op e he ht g ih => exact .of_form (op.writes_parts.append ih.operand) rfl
  | @call c args hc ht hargs g ihc ihargs =>
    exact .of_form (ihc.operand.append (writes_all ihargs).parenthesized) rfl
  | @index v i hv ht hi g ihv ihi =>
    refine .of_form ?_ rfl
    have hopen : Writes "[" [.mark .openBracket] := rfl
    have hclose : Writes "]" [.mark .closeBracket] := rfl
    have := ((ihv.operand.append hopen).append ihi.operand).append hclose
    rwa [List.append_assoc, List.append_assoc] at this
  | @member v x hv ht hx g ih =>
    refine .of_form ?_ rfl
    obtain ⟨form, grouped⟩ := v
    have hdot : Writes "." [.mark .dot] := rfl
    have hname : Writes x [.name x] := Writes.token (.bare .name x)
    have hvalue : Writes (if form.isAssign then form.render else parenthesized form.render)
        (if form.isAssign then form.parts else parenParts form.parts) := by
      split
      · exact ih.form
      · exact ih.form.parenthesized
    have := (hvalue.append hdot).append hname
    rwa [List.append_assoc] at this
  | @dict es hk hv g ihk ihv =>
    refine .of_form ?_ rfl
    cases es with
    | nil =>
      have hempty : Writes "\x7b\x7d" [.mark .openBrace, .mark .closeBrace] := rfl
      exact hempty
    | cons n es =>
      have hopen : Writes "\x7b " [.mark .openBrace, .space] := rfl
      have hclose : Writes " \x7d" [.space, .mark .closeBrace] := rfl
      have hn := writes_entry (ihk n (by simp)) (ihv n (by simp))
      have hes := writes_entries fun a ha =>
        ⟨ihk a (List.mem_cons_of_mem n ha), ihv a (List.mem_cons_of_mem n ha)⟩
      have := (hopen.append (Writes.commaSeparated (.cons hn hes))).append hclose
      rwa [List.append_assoc] at this
  | @list es hes g ih =>
    refine .of_form ?_ rfl
    have hopen : Writes "[" [.mark .openBracket] := rfl
    have hclose : Writes "]" [.mark .closeBracket] := rfl
    have := (hopen.append (writes_all ih)).append hclose
    rwa [List.append_assoc] at this

/-! ## The text is clean -/

/-- The text of the parts can be put before a text that starts apart. -/
def FlowsAs (ps : List Part) : Prop := Flows (ps.map Part.piece)

theorem IsName.sound {x : String} (h : IsName x) : (Part.name x).piece.Sound := ⟨h, nofun, rfl⟩

theorem Verb.isName (v : Verb) : IsName v.word := by
  cases v <;> exact isName_of_all (by decide) rfl rfl

theorem BinaryOp.clean_part (op : BinaryOp) {qs : List Piece} (h : Clean qs) :
    Clean (op.part.piece :: .space :: qs) := by
  have hverb : ∀ v : Verb, Clean ((Part.verb v).piece :: .space :: qs) :=
    fun v => clean_spaced v.isName.sound h
  cases op with
  | and => exact hverb .and
  | or => exact hverb .or
  | add | subtract | multiply | divide | modulo | equality | greater | lesser | greaterEq
  | lesserEq => exact clean_spaced (sound_mark _) h

theorem FlowsAs.parenthesized {ps : List Part} (h : FlowsAs ps) : FlowsAs (parenParts ps) := by
  have := h.enclosed (m := .openParen) (n := .closeParen) rfl rfl (by decide)
  simpa [FlowsAs, parenParts, Part.mark, Part.piece] using this

theorem flowsAs_commaParts : ∀ {pss : List (List Part)}, (∀ ps ∈ pss, FlowsAs ps) →
    FlowsAs (commaParts pss)
  | [], _ => flows_nil
  | [ps], h => h ps (by simp)
  | ps :: ps' :: pss, h => by
    have htail := flowsAs_commaParts fun qs hqs => h qs (List.mem_cons_of_mem ps hqs)
    intro qs hq ha
    rw [commaParts, List.map_append, List.append_assoc]
    · exact h ps (by simp) _ (clean_free (m := .comma) rfl (clean_space (htail qs hq ha)))
        (apart_mark (by decide) _)
    · simp

/-- The texts of the form and of the statement are clean. -/
abbrev Expr.Clear (e : Expr) : Prop := e.Each FlowsAs

theorem Expr.Clear.operand {e : Expr} (h : e.Clear) : FlowsAs (e.parts .operand) :=
  Each.operand h FlowsAs.parenthesized

theorem Expr.Clear.of_form {e : Expr} (h : FlowsAs e.form.parts) (hn : e.form.isAssign = false) :
    e.Clear := Each.of_form h FlowsAs.parenthesized hn

theorem flowsAs_word {t : Token} (ht : (Piece.token t).Sound) (hk : ∀ m, t.kind ≠ .mark m) :
    FlowsAs [.token t] := flows_word ht hk

/-- A name, a mark with spaces around it, and something. -/
theorem flowsAs_named {x : String} (hx : IsName x) (m : Mark) {ps : List Part} (h : FlowsAs ps) :
    FlowsAs (.name x :: .space :: .mark m :: .space :: ps) := fun qs hq ha =>
  clean_spaced hx.sound (clean_spaced (sound_mark m) (h qs hq ha))

theorem flowsAs_all {es : List Expr} (h : ∀ e ∈ es, e.Clear) :
    FlowsAs (commaParts (partsAll es)) := by
  refine flowsAs_commaParts ?_
  rw [partsAll_eq_map]
  intro ps hps
  obtain ⟨e, he, rfl⟩ := List.mem_map.1 hps
  exact (h e he).operand

theorem flowsAs_entry {n : Entry} (hk : n.key.Clear) (hv : n.value.Clear) : FlowsAs n.parts := by
  obtain ⟨key, value⟩ := n
  intro qs hq ha
  rw [Entry.parts, List.map_append, List.append_assoc]
  exact hk.operand _ (clean_spaced (sound_mark .colon) (hv.operand qs hq ha))
    (apart_mark (by decide) _)

/-- The text of a well-formed expression is clean. -/
theorem Expr.Formed.clear {e : Expr} (h : e.Formed) : e.Clear := by
  induction h with
  | @name x hx => exact .of_form (flowsAs_word hx.1.sound nofun) rfl
  | @number text ht => exact .of_form (flowsAs_word ⟨ht, nofun, rfl⟩ nofun) rfl
  | @string content hc =>
    refine .of_form (flowsAs_word ⟨⟨content.toList, hc, ?_⟩, nofun, rfl⟩ nofun) rfl
    simp [Token.bare]
  | truth b =>
    have hname : ∀ x, IsName x → FlowsAs [.name x] := fun x hx => flowsAs_word hx.sound nofun
    cases b with
    | true => exact .of_form (hname "True" (isName_of_all (by decide) rfl rfl)) rfl
    | false => exact .of_form (hname "False" (isName_of_all (by decide) rfl rfl)) rfl
  | @assign x v hx hv g ih =>
    constructor
    · exact (flowsAs_named hx.1 .walrus ih.operand).parenthesized
    · exact flowsAs_named hx.1 .equal (Each.role ih FlowsAs.parenthesized v.roleAsValue)
  | @binary op l r hl hr htl htr g ihl ihr =>
    refine .of_form (fun qs hq ha => ?_) rfl
    rw [Form.parts, List.map_append, List.append_assoc]
    exact ihl.operand _ (clean_space (op.clean_part (ihr.operand qs hq ha))) (apart_space _)
  | @unary op e he ht g ih =>
    refine .of_form (fun qs hq ha => ?_) rfl
    have hoperand := ih.operand qs hq ha
    rw [Form.parts, List.map_append, List.append_assoc]
    cases op with
    | not => exact clean_spaced Verb.not.isName.sound hoperand
    | negate => exact clean_free (m := .minus) rfl hoperand
  | @call c args hc ht hargs g ihc ihargs =>
    refine .of_form (fun qs hq ha => ?_) rfl
    rw [Form.parts, List.map_append, List.append_assoc]
    exact ihc.operand _ ((flowsAs_all ihargs).parenthesized qs hq ha) (apart_mark (by decide) _)
  | @index v i hv ht hi g ihv ihi =>
    refine .of_form (fun qs hq ha => ?_) rfl
    rw [Form.parts, List.map_append, List.append_assoc]
    have hindex := ihi.operand.enclosed (m := .openBracket) (n := .closeBracket) rfl rfl (by decide)
    refine ihv.operand _ ?_ (apart_mark (by decide) _)
    simpa [Part.mark, Part.piece] using hindex qs hq ha
  | @member v x hv ht hx g ih =>
    refine .of_form (fun qs hq ha => ?_) rfl
    obtain ⟨form, grouped⟩ := v
    obtain ⟨ps, hps⟩ : ∃ ps, (if form.isAssign then form.parts else parenParts form.parts)
        = parenParts ps := by
      cases form with
      | assign y w => exact ⟨_, rfl⟩
      | name | number | string | truth | binary | unary | call | index | member | dict | list =>
        exact ⟨_, rfl⟩
    have hvalue : FlowsAs (parenParts ps) := by
      rw [← hps]
      split
      · exact ih.form
      · exact ih.form.parenthesized
    -- The dot stands behind a parenthesis in any case.
    have hclose : Clean ((.token Mark.openParen.token :: ps.map Part.piece)
        ++ [.token Mark.closeParen.token]) := by
      simpa [parenParts, Part.mark, Part.piece] using hvalue [] clean_nil apart_nil
    have hname := clean_free (m := .dot) rfl (clean_word hx.sound nofun ha hq)
    rw [Form.parts, hps]
    simpa [parenParts, Part.mark, Part.piece, Part.name] using hclose.append_free rfl hname
  | @dict es hk hv g ihk ihv =>
    refine .of_form (fun qs hq ha => ?_) rfl
    have hbrace := clean_free (m := .closeBrace) rfl hq
    cases es with
    | nil => exact clean_free (m := .openBrace) rfl hbrace
    | cons n es =>
      have hentries : FlowsAs (commaParts (n.parts :: partsEntries es)) := by
        refine flowsAs_commaParts fun ps hps => ?_
        rw [partsEntries_eq_map, ← List.map_cons] at hps
        obtain ⟨a, ha, rfl⟩ := List.mem_map.1 hps
        exact flowsAs_entry (ihk a ha) (ihv a ha)
      have := hentries _ (clean_space hbrace) (apart_space _)
      simpa [Form.parts, Part.mark, Part.piece] using
        clean_free (m := .openBrace) rfl (clean_space this)
  | @list es hes g ih =>
    refine .of_form (fun qs hq ha => ?_) rfl
    have := (flowsAs_all ih).enclosed (m := .openBracket) (n := .closeBracket) rfl rfl (by decide)
    simpa [Form.parts, Part.mark, Part.piece] using this qs hq ha

end Offside
