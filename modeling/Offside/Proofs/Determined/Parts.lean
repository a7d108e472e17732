import Offside.Proofs.Written.Stmt

/-!
# The text determines the parts

Some operators are written as words that could be names as well. Where a name can stand no operator
between operands can, and the other way round, but `not` and `elif` can both start something and be
names. Going on with such a word in both ways, one is before an operand where one is behind it in
the other way, and so it stays: what is an operator in the one is a name in the other. A text that
ends has ended behind an operand, so it was only read in one of the two ways (`not_out_of_step`),
and its parts are determined (`Spot.parts_unique`).
-/

namespace Offside

/-- Where one is in a text that is read part by part. -/
inductive Spot where
  /-- At the start of a statement, or behind the space after a colon. -/
  | line
  | operand
  | after
  /-- Behind the space after an operand. -/
  | gap
  /-- Behind an operator or a comma, before the space. -/
  | pause
  | brace
  | colon
  deriving DecidableEq

namespace Spot

/-- The parts that start an operand, or close brackets in which none is left to come. -/
def enter : Part → Option Spot
  | .verb .not => some pause
  | .token t =>
    match t.kind with
    | .number | .string | .name => some after
    | .mark .openParen | .mark .openBracket | .mark .minus => some operand
    | .mark .closeParen | .mark .closeBracket => some after
    | .mark .openBrace => some brace
    | _ => none
  | _ => none

/-- The parts behind an operand. -/
def leave : Part → Option Spot
  | .space => some gap
  | .newline => some line
  | .token t =>
    match t.kind with
    | .mark .openParen | .mark .openBracket | .mark .dot => some operand
    | .mark .closeParen | .mark .closeBracket => some after
    | .mark .comma => some pause
    | .mark .colon => some colon
    | _ => none
  | _ => none

/-- The operators between operands, and a brace. -/
def operate : Part → Option Spot
  | .verb .and | .verb .or => some pause
  | .token t =>
    match t.kind with
    | .mark .closeBrace => some after
    | .mark .equal | .mark .walrus => some pause
    | .mark m => if (BinaryOp.ofMark? m).isSome then some pause else none
    | _ => none
  | _ => none

def start : Part → Option Spot
  | .space | .newline => some line
  | .elif => some pause
  | .token t =>
    match t.kind with
    | .keyword .ifWord => some pause
    | .keyword .elseWord => some after
    | _ => enter (.token t)
  | p => enter p

def step : Spot → Part → Option Spot
  | line, p => start p
  | operand, p => enter p
  | after, p => leave p
  | gap, p => operate p
  | pause, .space => some operand
  | brace, .space => some operand
  | brace, .token t => if t.kind = .mark .closeBrace then some after else none
  | colon, .space | colon, .newline => some line
  | _, _ => none

/-- The text can end here. -/
def isFinal : Spot → Bool
  | line | after => true
  | _ => false

/-- The parts can be read from here to the end of the text. -/
def accepts : Spot → List Part → Bool
  | s, [] => s.isFinal
  | s, p :: ps =>
    match s.step p with
    | some s' => s'.accepts ps
    | none => false

theorem accepts_cons {s : Spot} {p : Part} {ps : List Part} :
    s.accepts (p :: ps) = true ↔ ∃ s', s.step p = some s' ∧ s'.accepts ps = true := by
  rw [accepts]
  cases s.step p with
  | none => simp
  | some s' => simp

theorem exists_cons {s : Spot} {ps : List Part} (h : s.accepts ps = true) (hs : s.isFinal = false) :
    ∃ p qs s', ps = p :: qs ∧ s.step p = some s' ∧ s'.accepts qs = true := by
  cases ps with
  | nil => exact absurd h (by simp [accepts, hs])
  | cons p qs =>
    obtain ⟨s', hstep, hqs⟩ := accepts_cons.1 h
    exact ⟨p, qs, s', rfl, hstep, hqs⟩

theorem accepts_pause {ps : List Part} (h : pause.accepts ps = true) :
    ∃ qs, ps = .space :: qs ∧ operand.accepts qs = true := by
  obtain ⟨p, qs, s, rfl, hs, hqs⟩ := exists_cons h rfl
  cases p with
  | space =>
    obtain rfl := Option.some.inj hs
    exact ⟨qs, rfl, hqs⟩
  | token | verb | elif | newline => exact nomatch hs

end Spot

/-! ## One way to read a text -/

theorem Verb.word_injective {v w : Verb} (h : v.word = w.word) : v = w := by
  revert h
  cases v <;> cases w <;> decide

theorem Verb.word_ne_elif (v : Verb) : v.word ≠ "elif" := by
  cases v <;> decide

namespace Part

/-- A word that is no name. -/
def isWord : Part → Bool
  | verb _ | elif => true
  | _ => false

/-- Only words can be taken for names. -/
theorem piece_eq {p q : Part} (h : p.piece = q.piece) :
    p = q ∨ (∃ x, p = .name x ∧ q.isWord = true) ∨ ∃ x, q = .name x ∧ p.isWord = true := by
  cases p with
  | token t =>
    cases q with
    | token u => exact Or.inl (congrArg token (Piece.token.inj h))
    | verb v => exact Or.inr (Or.inl ⟨_, congrArg token (Piece.token.inj h), rfl⟩)
    | elif => exact Or.inr (Or.inl ⟨_, congrArg token (Piece.token.inj h), rfl⟩)
    | space | newline => exact nomatch h
  | verb v =>
    cases q with
    | token u => exact Or.inr (Or.inr ⟨_, congrArg token (Piece.token.inj h).symm, rfl⟩)
    | verb w =>
      have hword : v.word = w.word := congrArg Token.lexeme (Piece.token.inj h)
      exact Or.inl (congrArg verb (Verb.word_injective hword))
    | elif => exact absurd (congrArg Token.lexeme (Piece.token.inj h)) v.word_ne_elif
    | space | newline => exact nomatch h
  | elif =>
    cases q with
    | token u => exact Or.inr (Or.inr ⟨_, congrArg token (Piece.token.inj h).symm, rfl⟩)
    | verb w => exact absurd (congrArg Token.lexeme (Piece.token.inj h).symm) w.word_ne_elif
    | elif => exact Or.inl rfl
    | space | newline => exact nomatch h
  | space =>
    cases q with
    | space => exact Or.inl rfl
    | token | verb | elif | newline => exact nomatch h
  | newline =>
    cases q with
    | newline => exact Or.inl rfl
    | token | verb | elif | space => exact nomatch h

theorem exists_space {ps : List Part} {xs : List Piece} (h : ps.map piece = .space :: xs) :
    ∃ qs, ps = .space :: qs ∧ qs.map piece = xs := by
  obtain ⟨p, qs, rfl, hp, hqs⟩ := List.map_eq_cons_iff.1 h
  rcases piece_eq (q := .space) hp with rfl | ⟨x, rfl, -⟩ | ⟨x, hx, -⟩
  · exact ⟨qs, rfl, hqs⟩
  · exact nomatch hp
  · exact nomatch hx

end Part

namespace Spot

/-- Where both a name and a word can stand, the name is an operand and the word needs one. -/
theorem step_word {s a b : Spot} {x : String} {q : Part} (hq : q.isWord = true)
    (ha : s.step (.name x) = some a) (hb : s.step q = some b) : a = after ∧ b = pause := by
  cases s with
  | line =>
    obtain rfl := Option.some.inj ha
    cases q with
    | verb v => cases v with
      | not => exact ⟨rfl, (Option.some.inj hb).symm⟩
      | and | or => exact nomatch hb
    | elif => exact ⟨rfl, (Option.some.inj hb).symm⟩
    | token | space | newline => exact nomatch hq
  | operand =>
    obtain rfl := Option.some.inj ha
    cases q with
    | verb v => cases v with
      | not => exact ⟨rfl, (Option.some.inj hb).symm⟩
      | and | or => exact nomatch hb
    | elif => exact nomatch hb
    | token | space | newline => exact nomatch hq
  | after | gap | pause | colon | brace => exact nomatch ha

/-- Only a minus is both between operands and before one. -/
theorem operate_enter_mark {m : Mark} {a b : Spot} (ha : operate (.mark m) = some a)
    (hb : enter (.mark m) = some b) : a = pause ∧ b = operand := by
  cases m with
  | minus => exact ⟨(Option.some.inj ha).symm, (Option.some.inj hb).symm⟩
  | openParen | openBracket | closeParen | closeBracket | openBrace => exact nomatch ha
  | _ => exact nomatch hb

/-- A part that stands between operands and one that starts an operand can look the same. -/
theorem operate_enter {p q : Part} {a b : Spot} (h : p.piece = q.piece)
    (ha : operate p = some a) (hb : enter q = some b) : a = pause ∧ (b = after ∨ b = operand) := by
  rcases Part.piece_eq h with rfl | ⟨x, rfl, hword⟩ | ⟨x, rfl, hword⟩
  · cases p with
    | token t =>
      obtain ⟨kind, lexeme, position⟩ := t
      cases kind with
      | mark m =>
        obtain ⟨rfl, rfl⟩ := operate_enter_mark (m := m) ha hb
        exact ⟨rfl, Or.inr rfl⟩
      | number | string | comment | name | keyword | eof => exact nomatch ha
    | verb v =>
      cases v with
      | not => exact nomatch ha
      | and | or => exact nomatch hb
    | elif | space | newline => exact nomatch ha
  · exact nomatch ha
  · obtain rfl := Option.some.inj hb
    cases p with
    | verb v =>
      cases v with
      | not => exact nomatch ha
      | and | or => exact ⟨(Option.some.inj ha).symm, Or.inl rfl⟩
    | elif => exact nomatch ha
    | token | space | newline => exact nomatch hword

/-- No text can be read both from behind an operand and from behind an operator. -/
theorem not_out_of_step {ps qs : List Part} (hp : after.accepts ps = true)
    (hq : pause.accepts qs = true) (h : ps.map Part.piece = qs.map Part.piece) : False := by
  obtain ⟨us, rfl, hus⟩ := accepts_pause hq
  obtain ⟨ts, rfl, hmap⟩ := Part.exists_space h
  obtain ⟨p, ps, a, rfl, ha, hps⟩ := exists_cons (s := gap) hp rfl
  obtain ⟨q, qs, b, rfl, hb, hqs⟩ := exists_cons hus rfl
  obtain ⟨hhead, htail⟩ := List.cons.inj hmap
  obtain ⟨rfl, rfl | rfl⟩ := operate_enter hhead ha hb
  · -- What is an operator in the one is a name in the other, and they change places.
    exact not_out_of_step hqs hps htail.symm
  · -- The minus has a space behind it in the one and none in the other.
    obtain ⟨ts, rfl, -⟩ := accepts_pause hps
    obtain ⟨us, rfl, -⟩ := Part.exists_space htail.symm
    exact nomatch hqs
termination_by ps.length + qs.length

/-- The parts of a text are determined by what is seen of them. -/
theorem parts_unique {ps qs : List Part} {s : Spot} (hp : s.accepts ps = true)
    (hq : s.accepts qs = true) (h : ps.map Part.piece = qs.map Part.piece) : ps = qs := by
  induction ps generalizing qs s with
  | nil =>
    cases qs with
    | nil => rfl
    | cons q qs => exact nomatch h
  | cons p ps ih =>
    cases qs with
    | nil => exact nomatch h
    | cons q qs =>
      obtain ⟨hhead, htail⟩ := List.cons.inj h
      obtain ⟨a, ha, hps⟩ := accepts_cons.1 hp
      obtain ⟨b, hb, hqs⟩ := accepts_cons.1 hq
      rcases Part.piece_eq hhead with rfl | ⟨x, rfl, hword⟩ | ⟨x, rfl, hword⟩
      · obtain rfl : a = b := Option.some.inj (ha.symm.trans hb)
        rw [ih hps hqs htail]
      · obtain ⟨rfl, rfl⟩ := step_word hword ha hb
        exact (not_out_of_step hps hqs htail).elim
      · obtain ⟨rfl, rfl⟩ := step_word hword hb ha
        exact (not_out_of_step hqs hps htail.symm).elim

end Spot

/-! ## Rendered expressions can be read -/

/-- The parts are an operand. -/
def IsOperand (ps : List Part) : Prop := ∀ s : Spot, s = .line ∨ s = .operand → ∀ qs : List Part,
  Spot.after.accepts qs = true → s.accepts (ps ++ qs) = true

theorem IsOperand.accepts {ps : List Part} (h : IsOperand ps) (qs : List Part)
    (hq : Spot.after.accepts qs = true) : Spot.operand.accepts (ps ++ qs) = true :=
  h .operand (Or.inr rfl) qs hq

theorem isOperand_word {t : Token} (h : t.kind = .number ∨ t.kind = .string ∨ t.kind = .name) :
    IsOperand [.token t] := by
  obtain ⟨kind, lexeme, position⟩ := t
  intro s hs qs hq
  rcases hs with rfl | rfl <;> rcases h with rfl | rfl | rfl <;> exact hq

theorem isOperand_commaParts : ∀ {pss : List (List Part)}, pss ≠ [] → (∀ ps ∈ pss, IsOperand ps) →
    IsOperand (commaParts pss)
  | [], hne, _ => absurd rfl hne
  | [ps], _, h => h ps (by simp)
  | ps :: qs :: pss, _, h => by
    have htail := isOperand_commaParts (List.cons_ne_nil qs pss) fun rs hrs =>
      h rs (List.mem_cons_of_mem ps hrs)
    intro s hs rs hr
    rw [commaParts, List.append_assoc]
    · exact h ps (by simp) s hs _ (htail.accepts rs hr)
    · simp

/-- Operands with commas between them, up to the bracket that closes them. -/
theorem accepts_commaParts {pss : List (List Part)} (h : ∀ ps ∈ pss, IsOperand ps) {m : Mark}
    (hm : m = .closeParen ∨ m = .closeBracket) {qs : List Part}
    (hq : Spot.after.accepts qs = true) :
    Spot.operand.accepts (commaParts pss ++ .mark m :: qs) = true := by
  by_cases hne : pss = []
  · subst hne
    rcases hm with rfl | rfl <;> exact hq
  · refine (isOperand_commaParts hne h).accepts _ ?_
    rcases hm with rfl | rfl <;> exact hq

theorem IsOperand.parenthesized {ps : List Part} (h : IsOperand ps) :
    IsOperand (parenParts ps) := by
  intro s hs qs hq
  have := h.accepts (.mark .closeParen :: qs) hq
  rw [parenParts, List.cons_append, List.append_assoc]
  rcases hs with rfl | rfl <;> exact this

/-- A name, a mark with spaces around it, and something. -/
theorem isOperand_named (x : String) {m : Mark} (hm : m = .equal ∨ m = .walrus) {ps : List Part}
    (h : IsOperand ps) : IsOperand (.name x :: .space :: .mark m :: .space :: ps) := by
  intro s hs qs hq
  have := h.accepts qs hq
  rcases hs with rfl | rfl <;> rcases hm with rfl | rfl <;> exact this

theorem isOperand_all {es : List Expr} (h : ∀ e ∈ es, e.Each IsOperand) :
    ∀ ps ∈ partsAll es, IsOperand ps := by
  rw [partsAll_eq_map]
  intro ps hps
  obtain ⟨e, he, rfl⟩ := List.mem_map.1 hps
  exact (h e he).operand IsOperand.parenthesized

theorem isOperand_entry {n : Entry} (hk : n.key.Each IsOperand) (hv : n.value.Each IsOperand) :
    IsOperand n.parts := by
  obtain ⟨key, value⟩ := n
  intro s hs qs hq
  rw [Entry.parts, List.append_assoc]
  -- The value stands behind a colon, as a statement could.
  have hvalue := hv.operand IsOperand.parenthesized .line (Or.inl rfl) qs hq
  exact hk.operand IsOperand.parenthesized s hs _ hvalue

theorem BinaryOp.accepts_part (op : BinaryOp) {qs : List Part} (h : Spot.pause.accepts qs = true) :
    Spot.gap.accepts (op.part :: qs) = true := by
  cases op <;> exact h

/-- The parts of a well-formed expression can be read. -/
theorem Expr.Formed.isOperand {e : Expr} (h : e.Formed) : e.Each IsOperand := by
  have hparen : ∀ {ps}, IsOperand ps → IsOperand (parenParts ps) := IsOperand.parenthesized
  induction h with
  | name hx g => exact .of_form (isOperand_word (Or.inr (Or.inr rfl))) hparen rfl
  | number ht g => exact .of_form (isOperand_word (Or.inl rfl)) hparen rfl
  | string hc g => exact .of_form (isOperand_word (Or.inr (Or.inl rfl))) hparen rfl
  | truth b g =>
    refine .of_form ?_ hparen rfl
    cases b with
    | true => exact isOperand_word (Or.inr (Or.inr rfl))
    | false => exact isOperand_word (Or.inr (Or.inr rfl))
  | @assign x v hx hv g ih =>
    constructor
    · exact (isOperand_named x (Or.inr rfl) (ih.operand hparen)).parenthesized
    · exact isOperand_named x (Or.inl rfl) (ih.role hparen v.roleAsValue)
  | @binary op l r hl hr htl htr g ihl ihr =>
    refine .of_form (fun s hs qs hq => ?_) hparen rfl
    rw [Form.parts, List.append_assoc]
    refine ihl.operand hparen s hs _ ?_
    exact op.accepts_part ((ihr.operand hparen).accepts qs hq)
  | @unary op e he ht g ih =>
    refine .of_form (fun s hs qs hq => ?_) hparen rfl
    have hoperand := (ih.operand hparen).accepts qs hq
    rw [Form.parts, List.append_assoc]
    rcases hs with rfl | rfl <;> cases op <;> exact hoperand
  | @call c args hc ht hargs g ihc ihargs =>
    refine .of_form (fun s hs qs hq => ?_) hparen rfl
    rw [Form.parts, parenParts, List.append_assoc, List.cons_append, List.append_assoc]
    refine ihc.operand hparen s hs _ ?_
    exact accepts_commaParts (isOperand_all ihargs) (Or.inl rfl) hq
  | @index v i hv ht hi g ihv ihi =>
    refine .of_form (fun s hs qs hq => ?_) hparen rfl
    rw [Form.parts, List.append_assoc, List.cons_append, List.append_assoc]
    refine ihv.operand hparen s hs _ ?_
    exact (ihi.operand hparen).accepts (.mark .closeBracket :: qs) hq
  | @member v x hv ht hx g ih =>
    refine .of_form (fun s hs qs hq => ?_) hparen rfl
    obtain ⟨form, grouped⟩ := v
    have hvalue : IsOperand (if form.isAssign then form.parts else parenParts form.parts) := by
      split
      · exact ih.form
      · exact ih.form.parenthesized
    rw [Form.parts, List.append_assoc]
    exact hvalue s hs _ hq
  | @dict es hk hv g ihk ihv =>
    refine .of_form (fun s hs qs hq => ?_) hparen rfl
    cases es with
    | nil => rcases hs with rfl | rfl <;> exact hq
    | cons n es =>
      have hentries : IsOperand (commaParts (n.parts :: partsEntries es)) := by
        refine isOperand_commaParts (by simp) fun ps hps => ?_
        rw [partsEntries_eq_map, ← List.map_cons] at hps
        obtain ⟨a, ha, rfl⟩ := List.mem_map.1 hps
        exact isOperand_entry (ihk a ha) (ihv a ha)
      have := hentries.accepts (.space :: .mark .closeBrace :: qs) hq
      rw [Form.parts, List.cons_append, List.cons_append, List.append_assoc]
      rcases hs with rfl | rfl <;> exact this
  | @list es hes g ih =>
    refine .of_form (fun s hs qs hq => ?_) hparen rfl
    have := accepts_commaParts (isOperand_all ih) (Or.inr rfl) hq
    rw [Form.parts, List.cons_append, List.append_assoc]
    rcases hs with rfl | rfl <;> exact this

/-! ## Rendered programs can be read -/

/-- The parts can stand where a line ends. -/
def Breaks (ps : List Part) : Prop := Spot.after.accepts ps = true ∧ Spot.line.accepts ps = true

theorem breaks_nil : Breaks [] := ⟨rfl, rfl⟩

theorem accepts_line (level : Nat) {ps : List Part} (h : Spot.line.accepts ps = true) :
    Spot.line.accepts ((Item.line level).parts ++ ps) = true := by
  have hspaces : ∀ n, Spot.line.accepts (List.replicate n .space ++ ps) = true := by
    intro n
    induction n with
    | zero => exact h
    | succ n ih => exact ih
  exact hspaces (4 * level)

theorem breaks_line (level : Nat) {ps : List Part} (h : Spot.line.accepts ps = true) :
    Breaks ((Item.line level).parts ++ ps) := ⟨accepts_line level h, accepts_line level h⟩

/-- The items are whole statements. -/
def ReadsLine (is : List Item) : Prop :=
  ∀ ps, Breaks ps → Spot.line.accepts (partsOf is ++ ps) = true

theorem breaks_stackItems (level : Nat) {iss : List (List Item)} (h : ∀ is ∈ iss, ReadsLine is)
    {ps : List Part} (hp : Breaks ps) : Breaks (partsOf (stackItems level iss) ++ ps) := by
  induction iss with
  | nil => exact hp
  | cons is iss ih =>
    have htail := ih fun js hjs => h js (List.mem_cons_of_mem is hjs)
    have := breaks_line level (h is (by simp) _ htail)
    simpa [stackItems, partsOf_append, partsOf_cons] using this

theorem accepts_hangItems (level : Nat) {iss : List (List Item)} (h : ∀ is ∈ iss, ReadsLine is)
    {ps : List Part} (hp : Breaks ps) :
    Spot.colon.accepts (partsOf (hangItems level iss) ++ ps) = true := by
  match iss with
  | [] => exact hp.2
  | [is] => exact h is (by simp) ps hp
  | is :: is' :: iss => exact (breaks_stackItems level h hp).2

theorem readsLine_cond {c : Expr} {body : Block} {other : Option Block} (hc : c.Formed)
    (hb : ∀ s ∈ body, ∀ level chained, ReadsLine (s.items level chained))
    (ho : ∀ level ps, Breaks ps → Breaks (partsOf (itemsElse level other) ++ ps)) (level : Nat)
    (chained : Bool) : ReadsLine ((Stmt.cond c body other).items level chained) := by
  intro ps hp
  have hbody : ∀ is ∈ itemsAll (level + 1) body, ReadsLine is :=
    forall_itemsAll fun s hs => hb s hs (level + 1) false
  have hhang := accepts_hangItems (level + 1) hbody (ho level ps hp)
  have hcondition :=
    (hc.isOperand.operand IsOperand.parenthesized).accepts (.mark .colon :: _) hhang
  rw [Stmt.items, partsOf_cons, partsOf_append, Item.parts]
  cases chained with
  | false =>
    have hif : Spot.line.accepts (.token Keyword.ifWord.token :: .space :: _) = true := hcondition
    simpa using hif
  | true =>
    have helif : Spot.line.accepts (.elif :: .space :: _) = true := hcondition
    simpa using helif

theorem Stmt.Silent.readsLine {s : Stmt} (h : s.Silent) :
    ∀ level chained, ReadsLine (s.items level chained) := by
  induction h with
  | @expr e he =>
    intro level chained ps hp
    have := he.isOperand.statement .line (Or.inl rfl) ps hp.1
    simpa [Stmt.items, partsOf, Item.parts] using this
  | cond hc hb ih => exact readsLine_cond hc ih fun level ps hp => hp
  | @condElse c body other hc hb ho ihb iho =>
    refine readsLine_cond hc ihb fun level ps hp => ?_
    rcases itemsElse_cases level other with ⟨s, rfl, -, heq⟩ | ⟨-, heq⟩
    · rw [heq, partsOf_cons, List.append_assoc]
      exact breaks_line level (iho s (by simp) level true ps hp)
    · have hother : ∀ is ∈ itemsAll (level + 1) other, ReadsLine is :=
        forall_itemsAll fun s hs => iho s hs (level + 1) false
      rw [heq, partsOf_cons, List.append_assoc]
      exact breaks_line level (accepts_hangItems (level + 1) hother hp)

theorem Block.accepts_items {b : Block} (h : ∀ s ∈ b, s.Silent) :
    Spot.line.accepts (partsOf b.items) = true := by
  have hstack : Breaks (partsOf (stackItems 0 (itemsAll 0 b)) ++ []) :=
    breaks_stackItems 0 (forall_itemsAll fun s hs => (h s hs).readsLine 0 false) breaks_nil
  rw [List.append_nil] at hstack
  cases b with
  | nil => rfl
  | cons s ss => exact hstack.2

/-- Programs that are rendered as the same text are written with the same parts. -/
theorem Block.parts_eq_of_render {b b' : Block} (h : ∀ s ∈ b, s.Silent) (h' : ∀ s ∈ b', s.Silent)
    (htext : Block.renderProgram .standard b = Block.renderProgram .standard b') :
    partsOf b.items = partsOf b'.items := by
  have hpieces : (partsOf b.items).map Part.piece = (partsOf b'.items).map Part.piece := by
    refine eq_of_textOf (Block.clean_items h) (Block.clean_items h') ?_
    rw [← Block.writes_renderProgram h, ← Block.writes_renderProgram h', htext]
  exact Spot.parts_unique (Block.accepts_items h) (Block.accepts_items h') hpieces

end Offside
