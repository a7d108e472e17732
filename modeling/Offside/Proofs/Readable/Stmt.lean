import Offside.Proofs.Readable.Expr

/-!
# Every greedy phrase for statements is read as what it stands for

A statement ends where the next one starts, and only what `Phrase.Greedy` asks for keeps the first
from taking tokens of the second. `program_tokens` is the result for a whole program.
-/

namespace Offside

open Token (Ends)

namespace Grammar

open Rule

/-- The tokens do not go on with what the phrase ends in. -/
def Closes {c : Category} (p : Phrase c) (rest : List Token) : Prop :=
  (p.endsInExpr = true → Ends Kind.continues rest) ∧
    (p.lacksElse = true → Ends (· == .keyword .elseWord) rest)

/-- The rule tells a token with which a statement can start from the end of the statements. -/
structure Stops (stop : Rule Bool) (rest : List Token) : Prop where
  keeps : Keeps stop
  at_rest : stop rest = .done true rest
  at_statement : ∀ t ts, t.kind.begins = true → stop (t :: ts) = .done false (t :: ts)
  continues : Ends Kind.continues rest
  not_else : Ends (· == .keyword .elseWord) rest

def ReadsStmt : {c : Category} → Phrase c → Prop
  | .statement, p => ∀ n rest, p.depth ≤ n → p.Unbraced → p.Greedy → Closes p rest →
      statement n (p.tokens ++ rest) = .done p.meaning rest
  | .block, p => ∀ n rest, p.depth ≤ n → p.Unbraced → p.Greedy → Closes p rest →
      block (statement n) (p.tokens ++ rest) = .done p.meaning rest
  | .statements, p => ∀ n rest stop, p.depth ≤ n → p.Unbraced → p.Greedy → Stops stop rest →
      statements stop (statement n) (p.tokens ++ rest) = .done p.meaning rest
  | _, _ => True

theorem stops_closeBrace (ts : List Token) :
    Stops (nextIs (.mark .closeBrace)) (Mark.closeBrace.token :: ts) where
  keeps := keeps_nextIs _
  at_rest := nextIs_cons _ _ _
  at_statement t ts h := by
    have : t.kind ≠ .mark .closeBrace := by
      intro he
      rw [he] at h
      exact absurd h (by decide)
    rw [nextIs_cons, beq_eq_false_iff_ne.2 this]
  continues := Token.ends_cons.2 rfl
  not_else := Token.ends_cons.2 rfl

theorem stops_atEnd : Stops atEnd [] where
  keeps := keeps_atEnd
  at_rest := rfl
  at_statement _ _ _ := rfl
  continues := Token.ends_nil _
  not_else := Token.ends_nil _

theorem statement_of_expression {n : Nat} {e : Expr} {t : Token} {ts rest : List Token}
    (ht : t.kind.starts = true) (h : expression n (t :: ts) = .done e rest) :
    statement n (t :: ts) = .done (.expr e) rest := by
  simp only [statement, oneOf, peek, bind_apply, List.head?_cons, Option.map_some]
  generalize hk : some t.kind = k
  split
  · simp only [Option.some.injEq] at hk
    rw [hk] at ht
    exact absurd ht (by decide)
  · simp only [Option.some.injEq] at hk
    rw [hk] at ht
    exact absurd ht (by decide)
  · exact bind_of_done _ h

theorem statement_of_if {n : Nat} (ts : List Token) :
    statement n (Keyword.ifWord.token :: ts) = conditional n (Keyword.ifWord.token :: ts) := rfl

/-- The condition of a conditional and its body. -/
theorem conditional_of_body {n : Nat} {condition : Expr} {body : Block} {ts mid rest : List Token}
    (hc : expression n ts = .done condition (Mark.closeParen.token :: mid))
    (hb : block (statement n) mid = .done body rest) :
    conditional (n + 1) (Keyword.ifWord.token :: Mark.openParen.token :: ts) = (do
      if ← accept (.keyword .elseWord) then
        let otherwise ← recording body (block (statement n))
        return .cond condition body (some otherwise)
      else
        return .cond condition body none : Rule _) rest := by
  change conditionalOf (expression n) (statement n) _ = _
  rw [conditionalOf, bind_take, bind_of_done _ (expect_token _ _), bind_of_done _ hc,
    bind_of_done _ (expect_token _ _), bind_of_done _ hb]

section Steps

theorem readsStmt_cond {condition : Phrase .expression} {body : Phrase .block}
    (hb : ReadsStmt body) : ReadsStmt (.cond condition body) := by
  intro n rest hd hu hg hc
  obtain ⟨m, rfl⟩ : ∃ m, n = m + 1 := ⟨n - 1, by simp only [Phrase.depth] at hd; omega⟩
  have hdc : condition.depth ≤ m := by simp only [Phrase.depth] at hd; omega
  have hdb : body.depth ≤ m := by simp only [Phrase.depth] at hd; omega
  have hcond := expression_tokens condition (Mark.closeParen.token :: (body.tokens ++ rest)) hdc
    (Token.ends_cons.2 rfl)
  have hbody := hb m rest hdb hu hg ⟨hc.1, fun _ => hc.2 rfl⟩
  simp only [Phrase.tokens, List.cons_append, List.append_assoc]
  rw [statement_of_if, conditional_of_body hcond hbody, bind_of_done _ (accept_of_ends (hc.2 rfl))]
  rfl

theorem readsStmt_condElse {condition : Phrase .expression} {body otherwise : Phrase .block}
    (hb : ReadsStmt body) (ho : ReadsStmt otherwise) :
    ReadsStmt (.condElse condition body otherwise) := by
  intro n rest hd hu hg hc
  obtain ⟨m, rfl⟩ : ∃ m, n = m + 1 := ⟨n - 1, by simp only [Phrase.depth] at hd; omega⟩
  have hdc : condition.depth ≤ m := by simp only [Phrase.depth] at hd; omega
  have hdb : body.depth ≤ m := by simp only [Phrase.depth] at hd; omega
  have hdo : otherwise.depth ≤ m := by simp only [Phrase.depth] at hd; omega
  obtain ⟨hub, huo⟩ := hu
  obtain ⟨hgb, hlb, hgo⟩ := hg
  have hcond := expression_tokens condition
    (Mark.closeParen.token ::
      (body.tokens ++ Keyword.elseWord.token :: (otherwise.tokens ++ rest)))
    hdc (Token.ends_cons.2 rfl)
  have hbody := hb m (Keyword.elseWord.token :: (otherwise.tokens ++ rest)) hdb hub hgb
    ⟨fun _ => Token.ends_cons.2 rfl, fun h => by rw [hlb] at h; exact absurd h (by decide)⟩
  have hother := ho m rest hdo huo hgo hc
  have hrec : recording body.meaning (block (statement m)) (otherwise.tokens ++ rest)
      = .done otherwise.meaning rest := by
    simp only [recording, hother]
  have haccept : accept (.keyword .elseWord) (Keyword.elseWord.token :: (otherwise.tokens ++ rest))
      = .done true (otherwise.tokens ++ rest) := rfl
  simp only [Phrase.tokens, List.cons_append, List.append_assoc]
  rw [statement_of_if, conditional_of_body hcond hbody, bind_of_done _ haccept]
  exact bind_of_done _ hrec

theorem readsStmt_expr (e : Phrase .expression) : ReadsStmt (.expr e) := by
  intro n rest hd hu hg hc
  have he := expression_tokens e rest hd (hc.1 rfl)
  obtain ⟨t, ts, hts, hst⟩ := e.starts_tokens rfl
  rw [Phrase.tokens]
  rw [hts, List.cons_append] at he ⊢
  exact statement_of_expression hst he

theorem readsStmt_braces {ss : Phrase .statements} (h : ReadsStmt ss) :
    ReadsStmt (.braces ss) := by
  intro n rest hd hu hg hc
  have hs := h n _ _ hd hu hg (stops_closeBrace rest)
  simp only [Phrase.tokens, List.cons_append, List.append_assoc, List.nil_append]
  rw [block, bind_of_done _ (accept_mark _ _)]
  change (do
    let body ← statements (nextIs (.mark .closeBrace)) (statement n)
    expect .closeBrace
    return body : Rule _) _ = _
  rw [bind_of_done _ hs, bind_of_done _ (expect_token _ _)]
  rfl

theorem readsStmt_single {s : Phrase .statement} (h : ReadsStmt s) : ReadsStmt (.single s) := by
  intro n rest hd hu hg hc
  obtain ⟨hbrace, hu⟩ := hu
  have hs := h n rest hd hu hg hc
  obtain ⟨t, ts, hts, -⟩ := s.begins_tokens
  have ha : accept (.mark .openBrace) (s.tokens ++ rest) = .done false (s.tokens ++ rest) := by
    refine accept_of_ends ?_
    rw [hts] at hbrace ⊢
    exact hbrace
  change block (statement n) (s.tokens ++ rest) = _
  rw [block, bind_of_done _ ha]
  exact bind_of_done _ hs

theorem readsStmt_noStatements : ReadsStmt .noStatements := by
  intro n rest stop hd hu hg hs
  refine many_of_none ?_
  change statementUnless stop (statement n) rest = _
  rw [statementUnless, bind_of_done _ hs.at_rest]
  rfl

theorem ends_else_of_begins {t : Token} (h : t.kind.begins = true) (ts : List Token) :
    Ends (· == .keyword .elseWord) (t :: ts) := by
  rw [Token.ends_cons, beq_eq_false_iff_ne]
  intro he
  rw [he] at h
  exact absurd h (by decide)

/-- What follows a statement of several is the next one, or what follows them all. -/
theorem closes_next {s : Phrase .statement} {ss : Phrase .statements} {stop : Rule Bool}
    {rest : List Token} (hg : s.endsInExpr = true → Ends Kind.continues ss.tokens)
    (hs : Stops stop rest) : Closes s (ss.tokens ++ rest) := by
  cases ss with
  | noStatements => exact ⟨fun _ => hs.continues, fun _ => hs.not_else⟩
  | nextStatement s' ss' =>
    obtain ⟨t, ts, hts, hb⟩ := s'.begins_tokens
    simp only [Phrase.tokens, hts, List.cons_append] at hg ⊢
    refine ⟨fun h => ?_, fun _ => ends_else_of_begins hb _⟩
    have := hg h
    rw [Token.ends_cons] at this ⊢
    exact this

theorem readsStmt_nextStatement {s : Phrase .statement} {ss : Phrase .statements}
    (h : ReadsStmt s) (hss : ReadsStmt ss) : ReadsStmt (.nextStatement s ss) := by
  intro n rest stop hd hu hg hs
  simp only [Phrase.depth, Nat.max_le] at hd
  obtain ⟨hgs, hgc, hgss⟩ := hg
  have hone := h n (ss.tokens ++ rest) hd.1 hu.1 hgs (closes_next hgc hs)
  have hrest := hss n rest stop hd.2 hu.2 hgss hs
  have hunless : statementUnless stop (statement n) (s.tokens ++ (ss.tokens ++ rest))
      = .done (some s.meaning) (ss.tokens ++ rest) := by
    obtain ⟨t, ts, hts, hb⟩ := s.begins_tokens
    rw [hts, List.cons_append] at hone ⊢
    rw [statementUnless, bind_of_done _ (hs.at_statement t _ hb)]
    exact bind_of_done _ hone
  rw [Phrase.tokens, List.append_assoc]
  exact many_of_some
    (takesIf_statementUnless hs.keeps (keeps_statement n) (takes_statement n)) hunless hrest

end Steps

theorem readsStmt : ∀ {c : Category} (p : Phrase c), ReadsStmt p
  | _, .cond _ body => readsStmt_cond (readsStmt body)
  | _, .condElse _ body otherwise => readsStmt_condElse (readsStmt body) (readsStmt otherwise)
  | _, .comment _ => fun _ _ _ _ _ _ => rfl
  | _, .expr e => readsStmt_expr e
  | _, .braces ss => readsStmt_braces (readsStmt ss)
  | _, .single s => readsStmt_single (readsStmt s)
  | _, .noStatements => readsStmt_noStatements
  | _, .nextStatement s ss => readsStmt_nextStatement (readsStmt s) (readsStmt ss)
  | .expression, _ | .binary, _ | .factor, _ | .unary, _ | .applied, _ | .primary, _
  | .arguments, _ | .items, _ | .entries, _ | .entry, _ | .key, _ => trivial

/-- A program is read as its meaning. -/
theorem program_tokens (p : Phrase .statements) {n : Nat} (hd : p.depth ≤ n) (hu : p.Unbraced)
    (hg : p.Greedy) : program n p.tokens = .done p.meaning [] := by
  have := readsStmt p n [] atEnd hd hu hg stops_atEnd
  rwa [List.append_nil] at this

end Grammar

end Offside
