import Offside.Grammar.Progress
import Offside.Program

/-!
# What the rules see of a token

A rule sees the kind of a token, and of a number, a string, a comment and a name also the text. It
never sees a position. `Token.face` is that part of a token, and a rule on the faces does exactly
what it does on the tokens (`blind_program`), so whatever is shown for tokens without a position
holds for all.
-/

namespace Offside

/-- The only text a token of the kind can have, if there is only one. -/
def Kind.spelling? : Kind → Option String
  | .mark m => some m.spelling
  | .keyword k => some k.spelling
  | _ => none

namespace Token

/-- A token that stands nowhere. -/
def bare (kind : Kind) (lexeme : String) : Token := ⟨kind, lexeme, none⟩

/-- The token without its position. -/
def unplaced (t : Token) : Token := bare t.kind t.lexeme

/-- What the rules see of the token. -/
def face (t : Token) : Token := bare t.kind (t.kind.spelling?.getD t.lexeme)

theorem face_kind (t : Token) : t.face.kind = t.kind := rfl

theorem face_lexeme {t : Token} (h : t.kind.spelling? = none) : t.face.lexeme = t.lexeme := by
  simp [face, bare, h]

theorem head?_map_face (ts : List Token) :
    (ts.map face).head?.map kind = ts.head?.map kind := by
  cases ts <;> rfl

end Token

def Mark.token (m : Mark) : Token := .bare (.mark m) m.spelling

def Keyword.token (k : Keyword) : Token := .bare (.keyword k) k.spelling

theorem Mark.kind_token (m : Mark) : m.token.kind = .mark m := rfl

theorem Token.face_of_mark {t : Token} {m : Mark} (h : t.kind = .mark m) : t.face = m.token := by
  simp [face, Mark.token, h, Kind.spelling?]

theorem Token.face_of_keyword {t : Token} {k : Keyword} (h : t.kind = .keyword k) :
    t.face = k.token := by
  simp [face, Keyword.token, h, Kind.spelling?]

theorem Token.face_of_text {t : Token} (h : t.kind.spelling? = none) : t.face = t.unplaced := by
  simp [face, unplaced, h]

def Halt.face (h : Halt) : Halt :=
  { h with site := h.site.map Token.face, rest := h.rest.map Token.face }

def Outcome.face {α : Type} : Outcome α → Outcome α
  | done a rest => done a (rest.map Token.face)
  | halted h => halted h.face

namespace Rule

variable {α β : Type}

/-- The rule does on the faces of the tokens what it does on the tokens. -/
def Blind (r : Rule α) : Prop := ∀ ts, r (ts.map Token.face) = (r ts).face

/-- The same of a rule that is told where something started. -/
def BlindFrom (f : List Token → Rule α) : Prop :=
  ∀ site ts, f (site.map Token.face) (ts.map Token.face) = (f site ts).face

theorem Blind.from {r : Rule α} (h : Blind r) : BlindFrom fun _ => r := fun _ ts => h ts

theorem BlindFrom.at {f : List Token → Rule α} (h : BlindFrom f) : Blind (pending >>= f) := by
  intro ts
  exact h ts ts

theorem blind_pure (a : α) : Blind (pure a : Rule α) := fun _ => rfl

theorem blind_bind {r : Rule α} {f : α → Rule β} (hr : Blind r) (hf : ∀ a, Blind (f a)) :
    Blind (r >>= f) := by
  intro ts
  rw [bind_apply, bind_apply, hr ts]
  cases r ts with
  | done a rest => exact hf a rest
  | halted e => rfl

theorem blindFrom_bind {r : Rule α} {f : List Token → α → Rule β} (hr : Blind r)
    (hf : ∀ a, BlindFrom fun site => f site a) : BlindFrom fun site => r >>= f site := by
  intro site ts
  change (r >>= f (site.map Token.face)) (ts.map Token.face) = ((r >>= f site) ts).face
  rw [bind_apply, bind_apply, hr ts]
  cases r ts with
  | done a rest => exact hf a site rest
  | halted e => rfl

theorem blindFrom_bind_from {r : List Token → Rule α} {f : α → Rule β} (hr : BlindFrom r)
    (hf : ∀ a, Blind (f a)) : BlindFrom fun site => r site >>= f := by
  intro site ts
  change (r (site.map Token.face) >>= f) (ts.map Token.face) = ((r site >>= f) ts).face
  rw [bind_apply, bind_apply, hr site ts]
  cases r site ts with
  | done a rest => exact hf a rest
  | halted e => rfl

theorem blindFrom_haltAt (c : Complaint) :
    BlindFrom fun site => (haltAt c site : Rule α) := fun _ _ => rfl

theorem blind_peek : Blind peek := by
  intro ts
  simp only [peek, Outcome.face, Token.head?_map_face]

theorem blind_nextIs (k : Kind) : Blind (nextIs k) := by
  intro ts
  simp only [nextIs, Outcome.face, Token.head?_map_face]

theorem blind_atEnd : Blind atEnd := by
  intro ts
  cases ts <;> rfl

theorem blind_tooDeep : Blind (tooDeep : Rule α) := fun _ => rfl

theorem blind_expect (m : Mark) : Blind (expect m)
  | [] => rfl
  | t :: ts => by
    by_cases h : t.kind = .mark m
    · simp [expect, Token.face_kind, h, Outcome.face]
    · simp [expect, Token.face_kind, h, Outcome.face, Halt.face]

theorem blind_accept (k : Kind) : Blind (accept k)
  | [] => rfl
  | t :: ts => by
    by_cases h : t.kind = k
    · simp [accept, Token.face_kind, h, Outcome.face]
    · simp [accept, Token.face_kind, h, Outcome.face]

/-- A rule that takes a token may look at its face. -/
theorem blind_take {f : Token → Rule α} (hf : ∀ t, f t.face = f t) (hb : ∀ t, Blind (f t)) :
    Blind (take >>= f)
  | [] => rfl
  | t :: ts => by
    change f t.face (ts.map Token.face) = (f t ts).face
    rw [hf t, hb t ts]

theorem blind_recording (before : Block) {r : Rule α} (h : Blind r) :
    Blind (recording before r) := by
  intro ts
  simp only [recording, h ts]
  cases r ts <;> rfl

theorem blind_upTo {item : Rule (Option α)} (h : Blind item) (record : α → Block) :
    ∀ n, Blind (upTo item record n)
  | 0 => blind_pure []
  | n + 1 => by
    refine blind_bind h fun o => ?_
    split
    · exact blind_pure []
    · exact blind_bind (blind_recording _ (blind_upTo h record n)) fun _ => blind_pure _

theorem blind_many {item : Rule (Option α)} (h : Blind item) (record : α → Block) :
    Blind (many item record) := by
  intro ts
  simp only [many, List.length_map]
  exact blind_upTo h record _ ts

end Rule

namespace Grammar

open Rule

structure InnerBlind (inner : Inner) : Prop where
  expression : Blind inner.expression
  operand : Blind inner.operand

section Inner

variable {inner : Inner} (h : InnerBlind inner)
include h

theorem blind_nextItem : Blind (nextItem inner) := by
  refine blind_bind (blind_accept _) fun b => ?_
  split
  · exact blind_bind h.expression fun _ => blind_pure _
  · exact blind_pure _

theorem blind_items (close : Mark) : Blind (items inner close) := by
  refine blind_bind (blind_nextIs _) fun b => ?_
  split
  · exact blind_pure _
  · exact blind_bind h.expression fun _ =>
      blind_bind (blind_many (blind_nextItem h) _) fun _ => blind_pure _

theorem blindFrom_keyed (key : Expr) : BlindFrom fun start => keyed inner start key := by
  intro start ts
  cases ts with
  | nil => rfl
  | cons t ts =>
    simp only [keyed, bind_apply, pending, take, List.map_cons, Token.face_kind]
    generalize t.kind = k
    split
    · exact blind_bind h.expression (fun _ => blind_pure _) ts
    · cases key.name? with
      | some _ => exact blind_bind h.expression (fun _ => blind_pure _) ts
      | none => exact blindFrom_bind h.expression (fun _ => blindFrom_haltAt _) start ts
    · rfl

theorem blind_entry : Blind (entry inner) := by
  refine blind_bind (blind_nextIs _) fun b => ?_
  split
  · exact blind_pure _
  refine BlindFrom.at (blindFrom_bind h.expression fun key => ?_)
  refine blindFrom_bind (blind_accept _) fun b => ?_
  split
  · exact (blind_pure _).from
  refine blindFrom_bind (blind_nextIs _) fun b => ?_
  split
  · exact (blind_pure _).from
  refine blindFrom_bind_from (blindFrom_keyed h key) fun e =>
    blind_bind (blind_nextIs _) fun b => ?_
  split
  · exact blind_pure _
  · exact blind_bind (blind_expect _) fun _ => blind_pure _

theorem blind_primary : Blind (primary inner) := by
  intro ts
  cases ts with
  | nil => rfl
  | cons t ts =>
    simp only [primary, bind_apply, pending, take, List.map_cons, Token.face_kind]
    generalize hk : t.kind = k
    split
    · rw [Token.face_lexeme (by rw [hk]; rfl)]
      rfl
    · rw [Token.face_lexeme (by rw [hk]; rfl)]
      rfl
    · rw [Token.face_lexeme (by rw [hk]; rfl)]
      rfl
    · exact blind_bind h.expression
        (fun _ => blind_bind (blind_expect _) fun _ => blind_pure _) ts
    · exact blind_bind (blind_many (blind_entry h) _)
        (fun _ => blind_bind (blind_expect _) fun _ => blind_pure _) ts
    · exact blind_bind (blind_items h _)
        (fun _ => blind_bind (blind_expect _) fun _ => blind_pure _) ts
    · rfl
    · rfl

omit h in
theorem blind_memberName : Blind memberName := by
  intro ts
  cases ts with
  | nil => rfl
  | cons t ts =>
    by_cases hk : t.kind = .name
    · simp [memberName, bind_apply, pending, take, Token.face_kind, hk,
        Token.face_lexeme (t := t) (by rw [hk]; rfl), pure_apply, Outcome.face]
    · simp [memberName, bind_apply, pending, take, Token.face_kind, hk, haltAt, Outcome.face,
        Halt.face]

theorem blind_suffix : Blind (suffix inner) := by
  refine blind_bind blind_peek fun k => ?_
  split
  · exact blind_take (fun _ => rfl) fun _ => blind_bind (blind_items h _) fun _ =>
      blind_bind (blind_expect _) fun _ => blind_pure _
  · exact blind_take (fun _ => rfl) fun _ => blind_bind h.expression fun _ =>
      blind_bind (blind_expect _) fun _ => blind_pure _
  · exact blind_take (fun _ => rfl) fun _ => blind_bind blind_memberName fun _ => blind_pure _
  · exact blind_pure _

theorem blind_applied : Blind (applied inner) :=
  blind_bind (blind_primary h) fun _ => blind_bind (blind_many (blind_suffix h) _) fun _ =>
    blind_pure _

theorem blind_unary : Blind (unary inner) := by
  refine blind_bind blind_peek fun k => ?_
  split
  · exact blind_take (fun _ => rfl) fun _ => blind_bind h.operand fun _ => blind_pure _
  · exact blind_applied h

omit h in
theorem blind_operation (accepted : BinaryOp → Bool) {operand : Rule Expr} (ho : Blind operand) :
    Blind (operation accepted operand) := by
  refine blind_bind blind_peek fun k => ?_
  split
  · exact blind_take (fun _ => rfl) fun _ => blind_bind ho fun _ => blind_pure _
  · exact blind_pure _

theorem blind_factor : Blind (factor inner) :=
  blind_bind (blind_unary h) fun _ =>
    blind_bind (blind_many (blind_operation _ (blind_unary h)) _) fun _ => blind_pure _

theorem blind_binary : Blind (binary inner) :=
  blind_bind (blind_factor h) fun _ =>
    blind_bind (blind_many (blind_operation _ (blind_factor h)) _) fun _ => blind_pure _

theorem blind_assignment : Blind (assignment inner) := by
  refine BlindFrom.at (blindFrom_bind (blind_binary h) fun target => ?_)
  refine blindFrom_bind (blind_nextIs _) fun b => ?_
  split
  · split
    · exact (blind_take (fun _ => rfl) fun _ =>
        blind_bind h.expression fun _ => blind_pure _).from
    · exact blindFrom_haltAt _
  · exact (blind_pure _).from

end Inner

theorem innerBlind : ∀ n, InnerBlind (inner n)
  | 0 => ⟨blind_tooDeep, blind_tooDeep⟩
  | n + 1 => ⟨blind_assignment (innerBlind n), blind_unary (innerBlind n)⟩

theorem blind_expression (n : Nat) : Blind (expression n) := (innerBlind n).expression

section Statements

variable {expression : Rule Expr} {conditional statement : Rule Stmt} {stop : Rule Bool}

theorem blind_oneOf (he : Blind expression) (hc : Blind conditional) :
    Blind (oneOf expression conditional) := by
  intro ts
  cases ts with
  | nil => exact blind_bind he (fun _ => blind_pure _) []
  | cons t ts =>
    simp only [oneOf, bind_apply, peek, List.map_cons, List.head?_cons, Option.map_some,
      Token.face_kind]
    generalize hk : some t.kind = k
    split
    · exact hc (t :: ts)
    · rw [Option.some.injEq] at hk
      change Outcome.done (Stmt.comment t.face.lexeme) (ts.map Token.face) = _
      rw [Token.face_lexeme (by rw [hk]; rfl)]
      rfl
    · exact blind_bind he (fun _ => blind_pure _) (t :: ts)

theorem blind_statementUnless (hs : Blind stop) (hk : Blind statement) :
    Blind (statementUnless stop statement) := by
  refine blind_bind hs fun b => ?_
  split
  · exact blind_pure _
  · exact blind_bind hk fun _ => blind_pure _

theorem blind_statements (hs : Blind stop) (hk : Blind statement) :
    Blind (statements stop statement) := blind_many (blind_statementUnless hs hk) _

theorem blind_block (hk : Blind statement) : Blind (block statement) := by
  refine blind_bind (blind_accept _) fun b => ?_
  split
  · exact blind_bind (blind_statements (blind_nextIs _) hk) fun _ =>
      blind_bind (blind_expect _) fun _ => blind_pure _
  · exact blind_bind hk fun _ => blind_pure _

theorem blind_conditionalOf (he : Blind expression) (hk : Blind statement) :
    Blind (conditionalOf expression statement) := by
  refine blind_take (fun _ => rfl) fun _ => blind_bind (blind_expect _) fun _ =>
    blind_bind he fun _ => blind_bind (blind_expect _) fun _ =>
    blind_bind (blind_block hk) fun _ => blind_bind (blind_accept _) fun b => ?_
  split
  · exact blind_bind (blind_recording _ (blind_block hk)) fun _ => blind_pure _
  · exact blind_pure _

end Statements

theorem blind_conditional : ∀ n, Blind (conditional n)
  | 0 => blind_tooDeep
  | n + 1 =>
    blind_conditionalOf (blind_expression n)
      (blind_oneOf (blind_expression n) (blind_conditional n))

theorem blind_statement (n : Nat) : Blind (statement n) :=
  blind_oneOf (blind_expression n) (blind_conditional n)

theorem blind_program (n : Nat) : Blind (program n) :=
  blind_statements blind_atEnd (blind_statement n)

/-- What the faces of the tokens are read as, the tokens are read as. -/
theorem program_of_face {n : Nat} {ts : List Token} {b : Block}
    (h : program n (ts.map Token.face) = .done b []) : program n ts = .done b [] := by
  rw [blind_program n ts] at h
  cases hp : program n ts with
  | halted e => rw [hp] at h; simp [Outcome.face] at h
  | done a rest =>
    rw [hp] at h
    simp only [Outcome.face, Outcome.done.injEq, List.map_eq_nil_iff] at h
    rw [h.1, h.2]

end Grammar

end Offside
