import Offside.Journal
import Offside.Proofs.Attained
import Offside.Proofs.LineBreak

/-!
# Programs one below the other

Two programs that stand one below the other are one program, with the statements of both
(`Block.parse_break`). A line break does not end a statement, so this is a matter of the token
that the second program starts with: everything that ended at the end of the first program must end
there too. No statement starts with `else`, and of the tokens that one can start with, an expression
goes on with `(`, `[` and `-` only.

The two are also rendered one below the other, if the second does not start with a comment, which
would be put on the last line of the first.
-/

namespace Offside

open Token (Ends)

theorem Token.ends_map_unplaced {p : Kind → Bool} {ts : List Token} :
    Ends p (ts.map unplaced) ↔ Ends p ts := ends_map (f := unplaced) fun _ => rfl

/-! ## Phrases -/

namespace Phrase

/-- The statements of both. -/
def append : Phrase .statements → Phrase .statements → Phrase .statements
  | noStatements, q => q
  | nextStatement s ss, q => nextStatement s (ss.append q)

theorem tokens_append : ∀ p q : Phrase .statements, (p.append q).tokens = p.tokens ++ q.tokens
  | noStatements, q => by rw [append, tokens, List.nil_append]
  | nextStatement s ss, q => by
    rw [append, tokens, tokens_append ss q, tokens, List.append_assoc]

theorem meaning_append : ∀ p q : Phrase .statements, (p.append q).meaning = p.meaning ++ q.meaning
  | noStatements, q => by
    rw [append]
    rfl
  | nextStatement s ss, q => by
    rw [append, meaning, meaning_append ss q, meaning]
    rfl

theorem depth_append : ∀ p q : Phrase .statements, (p.append q).depth = max p.depth q.depth
  | noStatements, q => by rw [append, depth, Nat.zero_max]
  | nextStatement s ss, q => by rw [append, depth, depth_append ss q, depth, Nat.max_assoc]

theorem unbraced_append {q : Phrase .statements} (hq : q.Unbraced) :
    ∀ {p : Phrase .statements}, p.Unbraced → (p.append q).Unbraced
  | noStatements, _ => by rwa [append]
  | nextStatement s ss, h => by
    rw [append]
    exact ⟨h.1, unbraced_append hq h.2⟩

/-- What the last statement ends in does not go on with the first statement of the other phrase, and
for the statements before it nothing changes. -/
theorem greedy_append {q : Phrase .statements} (hq : q.Greedy)
    (hends : Ends Kind.continues q.tokens) :
    ∀ {p : Phrase .statements}, p.Greedy → (p.append q).Greedy
  | noStatements, _ => by rwa [append]
  | nextStatement s noStatements, h => by
    rw [append, append]
    exact ⟨h.1, fun _ => hends, hq⟩
  | nextStatement s (nextStatement s' ss), h => by
    rw [append]
    refine ⟨h.1, fun hexpr => ?_, greedy_append hq hends h.2.2⟩
    have := h.2.1 hexpr
    rw [append, tokens, ends_statement_iff]
    rwa [tokens, ends_statement_iff] at this

/-- Statements that do not start with `(`, `[` or `-` start with nothing that an expression goes on
with. -/
theorem ends_continues {p : Phrase .statements} (h : Ends Kind.joins p.tokens) :
    Ends Kind.continues p.tokens := by
  cases p with
  | noStatements => exact Token.ends_nil _
  | nextStatement s ss =>
    obtain ⟨t, ts, hts, hb⟩ := s.begins_tokens
    rw [tokens, hts, List.cons_append, Token.ends_cons] at h ⊢
    rw [Kind.continues_of_begins hb, h]

theorem Accepted.append {p q : Phrase .statements} {n : Nat} {ts us : List Token}
    (hp : p.Accepted n ts) (hq : q.Accepted n us) (hends : Ends Kind.joins us) :
    (p.append q).Accepted n (ts ++ us) where
  unbraced := unbraced_append hq.unbraced hp.unbraced
  greedy := greedy_append hq.greedy (ends_continues (hq.tokens.symm ▸ hends)) hp.greedy
  tokens := by rw [tokens_append, hp.tokens, hq.tokens]
  depth := by
    rw [depth_append]
    exact Nat.max_le.2 ⟨hp.depth, hq.depth⟩

/-- A program that does not start with a comment token does not start with a comment. -/
theorem head_ne_comment {p : Phrase .statements} (h : Ends (· == .comment) p.tokens)
    (text : String) : List.head? (α := Stmt) p.meaning ≠ some (.comment text) := by
  cases p with
  | noStatements => simp
  | nextStatement s ss =>
    intro hhead
    obtain hs : s.meaning = .comment text := Option.some.inj hhead
    have hstart := s.head_statement
    rw [hs] at hstart
    have hkind := hstart.append ss.tokens
    obtain ⟨t, ht, hk⟩ := Option.map_eq_some_iff.1 hkind
    have := h t ht
    rw [hk, Stmt.lead] at this
    exact absurd this (by decide)

end Phrase

/-! ## Renderings -/

namespace Block

variable (layout : Layout)

theorem renderLines_cons {s : Stmt} {rest : Block} (h : ∀ text, rest.head? ≠ some (.comment text))
    (level : Nat) (margin : String) : renderLines layout level margin (s :: rest) =
      (margin ++ s.render layout level .statement) :: renderLines layout level margin rest := by
  rw [renderLines]
  rintro text rest' rfl
  exact h text rfl

/-- A block that does not start with a comment has its lines below those of another block. -/
theorem renderLines_append {c : Block} (hc : ∀ text, c.head? ≠ some (.comment text)) (level : Nat)
    (margin : String) : ∀ b : Block, renderLines layout level margin (b ++ c) =
      renderLines layout level margin b ++ renderLines layout level margin c
  | [] => by rw [List.nil_append, renderLines, List.nil_append]
  | s :: rest => by
    by_cases h : ∃ text, rest.head? = some (.comment text)
    · obtain ⟨text, htext⟩ := h
      obtain ⟨rest, rfl⟩ := List.head?_eq_some_iff.1 htext
      rw [List.cons_append, List.cons_append, renderLines, renderLines,
        renderLines_append hc level margin rest, List.cons_append]
    · have hhead : ∀ text, (rest ++ c).head? ≠ some (.comment text) := by
        cases rest with
        | nil => exact hc
        | cons s rest => exact not_exists.1 h
      rw [List.cons_append, renderLines_cons layout hhead, renderLines_cons layout (not_exists.1 h),
        renderLines_append hc level margin rest, List.cons_append]

theorem renderLines_ne_nil {b : Block} (hb : b ≠ []) (level : Nat) (margin : String) :
    renderLines layout level margin b ≠ [] := by
  obtain ⟨s, rest, rfl⟩ := List.exists_cons_of_ne_nil hb
  by_cases h : ∃ text, rest.head? = some (.comment text)
  · obtain ⟨text, htext⟩ := h
    obtain ⟨rest, rfl⟩ := List.head?_eq_some_iff.1 htext
    rw [renderLines]
    exact List.cons_ne_nil _ _
  · rw [renderLines_cons layout (not_exists.1 h)]
    exact List.cons_ne_nil _ _

theorem margin_zero (b : Block) : layout.margin 0 b = "" := by
  rw [Layout.margin]
  split <;> rfl

theorem renderProgram_append {b c : Block} (hb : b ≠ []) (hc : c ≠ [])
    (hhead : ∀ text, c.head? ≠ some (.comment text)) : renderProgram layout (b ++ c) =
      renderProgram layout b ++ "\n" ++ renderProgram layout c := by
  simp only [renderProgram, render, margin_zero, renderLines_append layout hhead, joinLines]
  exact String.intercalate_append_of_ne_nil (renderLines_ne_nil layout hb _ _)
    (renderLines_ne_nil layout hc _ _)

/-! ## Programs -/

/-- A program below another one is read as the statements of both, unless it starts with `(`, `[` or
`-`. If it does not start with a comment either, and there are statements in both, the two are
rendered one below the other. -/
theorem parse_break {s t : String} {b c : Block} (hs : parse s = .ok b) (ht : parse t = .ok c)
    (hj : ∀ us, Token.scan t = .ok us → Ends Kind.joins us) :
    parse (s ++ "\n" ++ t) = .ok (b ++ c) ∧
      (b ≠ [] → c ≠ [] → (∀ us, Token.scan t = .ok us → Ends (· == .comment) us) →
        ∃ above below, convert s = .ok above ∧ convert t = .ok below ∧
          convert (s ++ "\n" ++ t) = .ok (above ++ "\n" ++ below)) := by
  obtain ⟨ts, hscan, -, p, hp, rfl⟩ := exists_phrase_of_parse hs
  obtain ⟨us, hscan', -, q, hq, rfl⟩ := exists_phrase_of_parse ht
  have hparse : parse (s ++ "\n" ++ t) = .ok (p.meaning ++ q.meaning) := by
    have hjoined := Token.scan_break s t
    rw [hscan, hscan', Token.lowerScan, Token.scanThen] at hjoined
    have hacc := hp.append hq (Token.ends_map_unplaced.2 (hj us hscan'))
    rw [← p.meaning_append q]
    refine parse_of_phrase hjoined ?_
    rw [List.map_append, List.map_map]
    exact hacc
  refine ⟨hparse, fun hb hc hcomment => ?_⟩
  have hhead := Phrase.head_ne_comment
    (hq.tokens.symm ▸ Token.ends_map_unplaced.2 (hcomment us hscan'))
  refine ⟨_, _, by rw [convert, hs]; rfl, by rw [convert, ht]; rfl, ?_⟩
  rw [convert, hparse, ← renderProgram_append .standard hb hc hhead]
  rfl

/-- The text `x=f // one` above `if(x)y`: the first ends in a comment, and the second one starts
with a word. -/
theorem parse_break_comment : ∃ b c : Block, parse "x=f // one" = .ok b ∧ parse "if(x)y" = .ok c ∧
    parse "x=f // one\nif(x)y" = .ok (b ++ c) ∧
    convert "x=f // one\nif(x)y" = .ok "x = f # one\nif x: y" := by
  have hscan : Token.scan "x=f // one" = .ok
      [⟨.name, "x", some ⟨0, 0⟩⟩, ⟨.mark .equal, "=", some ⟨0, 1⟩⟩, ⟨.name, "f", some ⟨0, 2⟩⟩,
        ⟨.comment, "one", some ⟨0, 4⟩⟩] := rfl
  have hscan' : Token.scan "if(x)y" = .ok
      [⟨.keyword .ifWord, "if", some ⟨0, 0⟩⟩, ⟨.mark .openParen, "(", some ⟨0, 2⟩⟩,
        ⟨.name, "x", some ⟨0, 3⟩⟩, ⟨.mark .closeParen, ")", some ⟨0, 4⟩⟩,
        ⟨.name, "y", some ⟨0, 5⟩⟩] := rfl
  let p : Phrase .statements := .nextStatement (.expr (.assign ⟨"x", by decide⟩ (.ident "f")))
    (.nextStatement (.comment "one") .noStatements)
  let q : Phrase .statements :=
    .nextStatement (.cond (.ident "x") (.single (.expr (.ident "y")))) .noStatements
  have hparse := parse_of_phrase hscan (p := p)
    ⟨⟨trivial, trivial, trivial⟩, ⟨trivial, fun _ => Token.ends_cons.2 rfl, trivial,
      fun h => absurd h (by decide), trivial⟩, rfl, by decide⟩
  have hparse' := parse_of_phrase hscan' (p := q)
    ⟨⟨⟨Token.ends_cons.2 rfl, trivial⟩, trivial⟩, ⟨trivial, fun _ => Token.ends_nil _, trivial⟩,
      rfl, by decide⟩
  have hstart : ∀ {k : Kind → Bool}, k (.keyword .ifWord) = false →
      ∀ us, Token.scan "if(x)y" = .ok us → Ends k us := by
    intro k hk us hus
    obtain rfl := Except.ok.inj (hscan'.symm.trans hus)
    exact Token.ends_cons.2 hk
  obtain ⟨hboth, hrender⟩ := parse_break hparse hparse' (hstart rfl)
  obtain ⟨above, below, ha, hb, htext⟩ := hrender (by decide) (by decide) (hstart rfl)
  refine ⟨p.meaning, q.meaning, hparse, hparse', hboth, ?_⟩
  rw [convert, hparse] at ha
  rw [convert, hparse'] at hb
  obtain rfl := Except.ok.inj ha
  obtain rfl := Except.ok.inj hb
  exact htext

end Block

end Offside
