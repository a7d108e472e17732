import Offside.Journal
import Offside.Proofs.Accepted
import Offside.Proofs.Leading
import Offside.Proofs.Written.Stmt

/-!
# Rendered programs read again

A rendered program is in general no program of the language it was written in: there are words for
some operators, and indentation instead of braces. Where only forms are used that both languages
have in common (`Stmt.isShared`), it is, and reading it gives back the tree.

The tokens of the rendering are those of the tree (`seen_parts_shared`), so there is a phrase with
these tokens for each statement. It starts with a token of the same kind as the statement did in the
program, for that is a matter of the tree (`head_tokens`), and so the statements do not
run into each other.
-/

namespace Offside

/-! ## The forms that both languages have -/

/-- The node is written in one way only, whatever stands inside of it. -/
def Expr.isShared : Expr → Bool
  | ⟨.name _, _⟩ | ⟨.number _, _⟩ | ⟨.string _, _⟩ => true
  | ⟨.truth _, _⟩ | ⟨.assign _ _, _⟩ => false
  | ⟨.binary op _ _, _⟩ => op ≠ .and && op ≠ .or
  | ⟨.unary op _, _⟩ => op = .negate
  | ⟨.call _ _, _⟩ | ⟨.index _ _, _⟩ | ⟨.list _, _⟩ => true
  | ⟨.member value _, _⟩ => value.grouped
  | ⟨.dict entries, _⟩ => entries.all fun n => n.key.name?.isNone

/-- Only shared nodes, but for assignments without parentheses of which this is the first, or that
are the value of such an assignment. -/
def Expr.isSharedStatement : Expr → Bool
  | ⟨.assign _ value, grouped⟩ => !grouped && value.isSharedStatement
  | e => e.every Expr.isShared

def Stmt.isShared : Stmt → Bool
  | .expr e => e.isSharedStatement
  | _ => false

theorem BinaryOp.seen_part {op : BinaryOp} (hand : op ≠ .and) (hor : op ≠ .or) :
    op.part.seen = [op.mark.token] := by
  cases op with
  | and => exact absurd rfl hand
  | or => exact absurd rfl hor
  | add | subtract | multiply | divide | modulo | equality | greater | lesser | greaterEq
  | lesserEq => rfl

/-- The value of a member has parentheses if it is in parentheses. -/
theorem Expr.parts_of_grouped {form : Form} :
    (if form.isAssign then form.parts else parenParts form.parts)
      = Expr.parts .operand ⟨form, true⟩ := by
  rw [Expr.parts]
  · cases form.isAssign <;> rfl
  · simp

/-- Where the nodes are shared, the tokens of the text are those of the tree. -/
theorem Expr.Formed.seen_parts_shared {e : Expr} (h : e.Formed)
    (hs : e.every Expr.isShared = true) :
    (e.parts .operand).flatMap Part.seen = e.tokens .keyed := by
  have hmark : ∀ m, m ≠ .walrus → m ≠ .colon → (Part.mark m).seen = [m.token] :=
    fun m _ _ => Part.seen_mark m
  induction h with
  | @name x hx g => exact Expr.flatMap_operand hmark (.name x) (.name x) rfl rfl g
  | @number text ht g => exact Expr.flatMap_operand hmark (.number text) (.number text) rfl rfl g
  | @string content hc g =>
    exact Expr.flatMap_operand hmark (.string content) (.string content) rfl rfl g
  | truth b g => exact absurd hs (by simp [Expr.every, Expr.isShared])
  | assign hx hv g ih => exact absurd hs (by simp [Expr.every, Expr.isShared])
  | @binary op l r hl hr htl htr g ihl ihr =>
    simp only [Expr.every, Expr.isShared, Form.every, Bool.and_eq_true, decide_eq_true_eq] at hs
    obtain ⟨⟨hand, hor⟩, hsl, hsr⟩ := hs
    refine Expr.flatMap_operand hmark _ _ ?_ rfl g
    rw [Form.tokens, ← ihl hsl, ← ihr hsr, Form.parts]
    simp [BinaryOp.seen_part hand hor]
  | @unary op e he ht g ih =>
    simp only [Expr.every, Expr.isShared, Form.every, Bool.and_eq_true, decide_eq_true_eq] at hs
    obtain ⟨rfl, hse⟩ := hs
    refine Expr.flatMap_operand hmark _ _ ?_ rfl g
    rw [Form.tokens, ← ih hse, Form.parts]
    rfl
  | @call c args hc ht hargs g ihc ihargs =>
    simp only [Expr.every, Expr.isShared, Form.every, Bool.and_eq_true, everyAll_iff] at hs
    obtain ⟨-, hsc, hsa⟩ := hs
    have hall := flatMap_partsAll hmark rfl (g := id) fun a ha => ihargs a ha (hsa a ha)
    refine Expr.flatMap_operand hmark _ _ ?_ rfl g
    rw [List.map_id] at hall
    rw [Form.tokens, ← ihc hsc, ← hall, Form.parts, List.flatMap_append, flatMap_parenParts hmark]
  | @index v i hv ht hi g ihv ihi =>
    simp only [Expr.every, Expr.isShared, Form.every, Bool.and_eq_true] at hs
    obtain ⟨-, hsv, hsi⟩ := hs
    refine Expr.flatMap_operand hmark _ _ ?_ rfl g
    rw [Form.tokens, ← ihv hsv, ← ihi hsi, Form.parts]
    simp
  | @member v x hv ht hx g ih =>
    simp only [Expr.every, Expr.isShared, Form.every, Bool.and_eq_true] at hs
    obtain ⟨hg, hsv⟩ := hs
    obtain ⟨form, grouped⟩ := v
    obtain rfl : grouped = true := hg
    refine Expr.flatMap_operand hmark _ _ ?_ rfl g
    rw [Form.tokens, ← ih hsv, Form.parts, Expr.parts_of_grouped]
    simp
  | @dict es hk hv g ihk ihv =>
    simp only [Expr.every, Expr.isShared, Form.every, Bool.and_eq_true, everyEntry_iff,
      List.all_eq_true] at hs
    obtain ⟨hname, hse⟩ := hs
    have hentry : ∀ n ∈ es, n.parts.flatMap Part.seen = (id n).tokens .keyed := by
      intro n hn
      have hkey := ihk n hn (hse n hn).1
      have hvalue := ihv n hn (hse n hn).2
      have hcolon := hname n hn
      obtain ⟨key, value⟩ := n
      simp only [Option.isNone_iff_eq_none] at hkey hvalue hcolon
      rw [id, Entry.tokens, ← hkey, ← hvalue, Entry.parts, Pairing.separator, hcolon]
      simp
    have hall := flatMap_partsEntries hmark rfl hentry
    rw [List.map_id] at hall
    refine Expr.flatMap_operand hmark _ _ ?_ rfl g
    rw [Form.tokens, ← hall]
    cases es with
    | nil => rfl
    | cons n es => simp [Form.parts, partsEntries]
  | @list es hes g ih =>
    simp only [Expr.every, Expr.isShared, Form.every, Bool.and_eq_true, everyAll_iff] at hs
    have hall := flatMap_partsAll hmark rfl (g := id) fun a ha => ih a ha (hs.2 a ha)
    rw [List.map_id] at hall
    refine Expr.flatMap_operand hmark _ _ ?_ rfl g
    rw [Form.tokens, ← hall, Form.parts]
    simp

theorem Expr.Formed.seen_statement_shared {e : Expr} (h : e.Formed)
    (hs : e.isSharedStatement = true) :
    (e.parts .statement).flatMap Part.seen = e.tokens .keyed := by
  have hf := h
  induction h with
  | @assign x v hx hv g ih =>
    simp only [Expr.isSharedStatement, Bool.and_eq_true, Bool.not_eq_true'] at hs
    obtain ⟨rfl, hsv⟩ := hs
    have hvalue : v.parts v.roleAsValue = v.parts .statement := by
      rw [Expr.roleAsValue]
      split
      · rfl
      · rename_i hrole
        cases hform : v.form.isAssign with
        | false => exact (Expr.parts_statement hform).symm
        | true =>
          -- An assignment in parentheses is not shared.
          obtain ⟨form, grouped⟩ := v
          cases form with
          | assign y w => simp_all [Expr.isSharedStatement]
          | name | number | string | truth | binary | unary | call | index | member | dict | list =>
            exact absurd hform (by simp [Form.isAssign])
    have hrest := ih hsv hv
    rw [Expr.parts, hvalue, Expr.tokens, Form.tokens, ← hrest]
    simp
  | name | number | string | truth | binary | unary | call | index | member | dict | list =>
    exact hf.seen_parts_shared hs

/-! ## The phrase of the rendering -/

namespace Phrase

/-- A phrase for a program of shared statements, written down anew: nothing else is read where it
stands, because the statements start as they did before. -/
theorem exists_shared : ∀ (p : Phrase .statements), (∀ t ∈ p.tokens, t.Lexical) → p.Greedy →
    (∀ s ∈ p.meaning, Stmt.isShared s = true) →
      ∃ q : Phrase .statements,
        q.tokens = (partsOf (stackItems 0 (itemsAll 0 p.meaning))).flatMap Part.seen ∧
        q.meaning = p.meaning ∧ q.Unbraced ∧ q.Greedy ∧ q.depth ≤ p.depth ∧
        q.tokens.head?.map Token.kind = p.tokens.head?.map Token.kind
  | noStatements, _, _, _ => ⟨noStatements, rfl, rfl, trivial, trivial, le_refl 0, rfl⟩
  | nextStatement (cond _ _) _, _, _, hs =>
    absurd (hs _ List.mem_cons_self) (by simp [Stmt.isShared])
  | nextStatement (condElse _ _ _) _, _, _, hs =>
    absurd (hs _ List.mem_cons_self) (by simp [Stmt.isShared])
  | nextStatement (comment _) _, _, _, hs =>
    absurd (hs _ List.mem_cons_self) (by simp [Stmt.isShared])
  | nextStatement (expr e) ss, hl, ⟨_, hends, hg⟩, hs => by
    obtain ⟨q, hqt, hqm, hqu, hqg, hqd, hqh⟩ := exists_shared ss
      (fun t ht => hl t (List.mem_append_right _ ht)) hg fun s h => hs s (List.mem_cons_of_mem _ h)
    have hformed : Expr.Formed e.meaning :=
      formed_meaning e fun t ht => hl t (List.mem_append_left _ ht)
    have hshared : Expr.isSharedStatement e.meaning = true := hs _ List.mem_cons_self
    have hdepth : Expr.depth e.meaning + 1 ≤ e.depth := depth_meaning e
    obtain ⟨f, hft, hfm, hfd⟩ := (spelled .keyed hformed).expression
    rw [hformed.read_keyed] at hfm
    -- Both phrases stand for the same expression, so they start alike.
    have hstart : Token.StartsWith (Expr.lead e.meaning) f.tokens := by
      have := head_tokens f
      rwa [hfm] at this
    have hlead : Token.StartsWith (Expr.lead e.meaning) e.tokens := head_tokens e
    refine ⟨nextStatement (expr f) q, ?_, ?_, ⟨trivial, hqu⟩, ⟨trivial, fun _ => ?_, hqg⟩, ?_, ?_⟩
    · rw [tokens, tokens, hqt, hft, ← hformed.seen_statement_shared hshared]
      simp [itemsAll, stackItems, Stmt.items, partsOf_cons, Item.parts]
    · rw [meaning, meaning, hfm, hqm]
      rfl
    · exact (hends rfl).of_head hqh
    · simp only [depth]
      omega
    · exact (hstart.append _).trans (hlead.append _).symm

end Phrase

/-! ## The round trip -/

theorem Stmt.Formed.silent_of_isShared {s : Stmt} (h : s.Formed) (hs : s.isShared = true) :
    s.Silent := by
  cases h with
  | expr he => exact .expr he
  | comment | cond | condElse => exact absurd hs (by simp [Stmt.isShared])

/-- The rendering of a program in which all statements are shared is read as the program itself, and
so it is rendered as it stands. -/
theorem Block.parse_renderProgram {source : String} {b : Block} (h : Block.parse source = .ok b)
    (hs : ∀ s ∈ b, s.isShared = true) :
    Block.parse (Block.renderProgram .standard b) = .ok b ∧
      convert (Block.renderProgram .standard b) = .ok (Block.renderProgram .standard b) := by
  obtain ⟨ts, -, hl, p, hp, rfl⟩ := Block.exists_phrase_of_parse h
  have hlexical := hp.lexical hl
  have hsilent : ∀ s ∈ p.meaning, Stmt.Silent s := fun s hmem =>
    (p.formed_meaning hlexical s hmem).silent_of_isShared (hs s hmem)
  obtain ⟨q, hqt, hqm, hqu, hqg, hqd, -⟩ := p.exists_shared hlexical hp.greedy hs
  obtain ⟨us, hscan, hus⟩ := Block.scan_renderProgram hsilent
  have hparse : Block.parse (Block.renderProgram .standard p.meaning) = .ok p.meaning := by
    have := Block.parse_of_phrase hscan (p := q)
      ⟨hqu, hqg, by rw [hqt, hus, Block.seen_items], hqd.trans hp.depth⟩
    rwa [hqm] at this
  exact ⟨hparse, by rw [convert, hparse]; rfl⟩

/-- The text `x=y=2- -1 {"k":(x).z}` has two statements, and their rendering two lines. -/
theorem parse_renderProgram_lines :
    ∃ b : Block, Block.parse "x=y=2- -1 \x7b\"k\":(x).z\x7d" = .ok b ∧
      (∀ s ∈ b, s.isShared = true) ∧
      Block.renderProgram .standard b = "x = y = 2 - -1\n\x7b \"k\": (x).z \x7d" ∧
      Block.parse (Block.renderProgram .standard b) = .ok b := by
  have hscan : Token.scan "x=y=2- -1 \x7b\"k\":(x).z\x7d" = .ok
      [⟨.name, "x", some ⟨0, 0⟩⟩, ⟨.mark .equal, "=", some ⟨0, 1⟩⟩, ⟨.name, "y", some ⟨0, 2⟩⟩,
        ⟨.mark .equal, "=", some ⟨0, 3⟩⟩, ⟨.number, "2", some ⟨0, 4⟩⟩,
        ⟨.mark .minus, "-", some ⟨0, 5⟩⟩, ⟨.mark .minus, "-", some ⟨0, 7⟩⟩,
        ⟨.number, "1", some ⟨0, 8⟩⟩, ⟨.mark .openBrace, "\x7b", some ⟨0, 10⟩⟩,
        ⟨.string, "\"k\"", some ⟨0, 11⟩⟩, ⟨.mark .colon, ":", some ⟨0, 14⟩⟩,
        ⟨.mark .openParen, "(", some ⟨0, 15⟩⟩, ⟨.name, "x", some ⟨0, 16⟩⟩,
        ⟨.mark .closeParen, ")", some ⟨0, 17⟩⟩, ⟨.mark .dot, ".", some ⟨0, 18⟩⟩,
        ⟨.name, "z", some ⟨0, 19⟩⟩, ⟨.mark .closeBrace, "\x7d", some ⟨0, 20⟩⟩] := rfl
  let two : Phrase .unary := .ofApplied (.ofPrimary (.number "2"))
  let minusOne : Phrase .unary := .signed .negate (.ofApplied (.ofPrimary (.number "1")))
  let difference : Phrase .expression :=
    .plain (.sum (.ofFactor (.ofUnary two)) ⟨.subtract, rfl⟩ (.ofUnary minusOne))
  let key : Phrase .expression := .term (.ofPrimary (.string "\"k\""))
  let field : Phrase .expression := .term (.member (.ofPrimary (.group (.ident "x"))) "z")
  let p : Phrase .statements := .nextStatement
    (.expr (.assign ⟨"x", by decide⟩ (.assign ⟨"y", by decide⟩ difference)))
    (.nextStatement (.expr (.term (.ofPrimary (.dict (.lastEntry (.colon key field))))))
      .noStatements)
  have hparse := Block.parse_of_phrase hscan (p := p)
    ⟨⟨trivial, trivial, trivial⟩, ⟨trivial, fun _ => Token.ends_cons.2 rfl, trivial,
      fun _ => Token.ends_nil _, trivial⟩, rfl, by decide⟩
  have hs : ∀ s ∈ p.meaning, Stmt.isShared s = true := by decide
  exact ⟨p.meaning, hparse, hs, rfl, (Block.parse_renderProgram hparse hs).1⟩

end Offside
