import Offside.Proofs.Grammatical
import Offside.Proofs.Lexical

/-!
# The programs that are accepted

Reading accepts the token lists of greedy phrases and no others, and gives what the phrase stands
for (`program_eq_done_iff`). Without the condition that phrases are greedy this fails: the
grammar alone leaves open whether a parenthesis behind an expression calls it or starts a statement.
-/

namespace Offside

/-- The phrase is how a list of tokens is read: it follows the grammar, it goes on wherever it can,
and it is not nested too deeply. -/
structure Phrase.Accepted (p : Phrase .statements) (n : Nat) (ts : List Token) : Prop where
  unbraced : p.Unbraced
  greedy : p.Greedy
  tokens : p.tokens = ts
  depth : p.depth ≤ n

/-- The phrase is made of the lexemes of the text. -/
theorem Phrase.Accepted.lexical {p : Phrase .statements} {n : Nat} {ts : List Token}
    (h : p.Accepted n (ts.map Token.unplaced)) (hl : ∀ t ∈ ts, t.Lexical) :
    ∀ t ∈ p.tokens, t.Lexical := by
  intro t ht
  rw [h.tokens] at ht
  obtain ⟨u, hu, rfl⟩ := List.mem_map.1 ht
  exact hl u hu

namespace Grammar

theorem program_eq_done_iff {n : Nat} {ts : List Token} {b : Block} :
    (∃ rest, program n ts = .done b rest) ↔
      ∃ p : Phrase .statements, p.Accepted n (ts.map Token.face) ∧ p.meaning = b := by
  constructor
  · rintro ⟨rest, h⟩
    obtain ⟨p, hu, hg, ht, hm, hd⟩ := program_grammatical h
    exact ⟨p, ⟨hu, hg, ht, hd⟩, hm⟩
  · rintro ⟨p, ⟨hu, hg, ht, hd⟩, rfl⟩
    refine ⟨[], program_of_face ?_⟩
    rw [← ht]
    exact program_tokens p hd hu hg

end Grammar

namespace Block

theorem result_readTokens_iff {n : Nat} {ts : List Token} (hl : ∀ t ∈ ts, t.Lexical) {b : Block} :
    (readTokens n ts).result = .ok b ↔
      ∃ p : Phrase .statements, p.Accepted n (ts.map Token.unplaced) ∧ p.meaning = b := by
  have hface : ts.map Token.face = ts.map Token.unplaced :=
    List.map_congr_left fun t ht => (hl t ht).face
  rw [← hface, ← Grammar.program_eq_done_iff, readTokens, Token.beforeEnd_of_lexical hl]
  cases Grammar.program n ts with
  | halted e => simp [Outcome.result]
  | done a rest => simp [Outcome.result]

/-- A program that is read has a phrase. -/
theorem exists_phrase_of_parse {source : String} {b : Block} (h : parse source = .ok b) :
    ∃ ts, Token.scan source = .ok ts ∧ (∀ t ∈ ts, t.Lexical) ∧
      ∃ p : Phrase .statements, p.Accepted maxNesting (ts.map Token.unplaced) ∧ p.meaning = b := by
  rw [parse, parseWithin] at h
  cases hs : Token.scan source with
  | error e => simp [hs] at h
  | ok ts =>
    simp only [hs] at h
    have hl := Token.lexical_of_scan hs
    exact ⟨ts, rfl, hl, (result_readTokens_iff hl).1 h⟩

/-- A text whose tokens are those of a phrase is read as what the phrase stands for. -/
theorem parse_of_phrase {source : String} {ts : List Token} (hs : Token.scan source = .ok ts)
    {p : Phrase .statements} (hp : p.Accepted maxNesting (ts.map Token.unplaced)) :
    parse source = .ok p.meaning := by
  simp only [parse, parseWithin, hs]
  exact (result_readTokens_iff (Token.lexical_of_scan hs)).2 ⟨p, hp, rfl⟩

/-- The tokens of a text are read as a block exactly if there is a phrase of the grammar with these
tokens that stands for the block, goes on wherever it can and opens no more levels than allowed. -/
theorem result_readTokens_scan_iff {source : String} {ts : List Token}
    (hs : Token.scan source = .ok ts) (b : Block) :
    (readTokens maxNesting ts).result = .ok b ↔
      ∃ p : Phrase .statements, p.Unbraced ∧ p.Greedy ∧ p.tokens = ts.map Token.unplaced ∧
        p.meaning = b ∧ p.depth ≤ maxNesting := by
  rw [result_readTokens_iff (Token.lexical_of_scan hs)]
  constructor
  · rintro ⟨p, ⟨hu, hg, ht, hd⟩, hm⟩
    exact ⟨p, hu, hg, ht, hm, hd⟩
  · rintro ⟨p, hu, hg, ht, hm, hd⟩
    exact ⟨p, ⟨hu, hg, ht, hd⟩, hm⟩

end Block

namespace Phrase

/-- A phrase of the tightest kind as an expression. -/
def term (p : Phrase .applied) : Phrase .expression := .plain (.ofFactor (.ofUnary (.ofApplied p)))

/-- A word as an expression. -/
def ident (x : String) : Phrase .expression := .term (.ofPrimary (.word x))

end Phrase

/-- The text `if (a) b = T else {} c(-1)`: an assignment and braces are the bodies of a conditional,
and a call follows it. -/
theorem result_readTokens_scan_iff_conditional :
    ∃ ts, Token.scan "if (a) b = T else \x7b\x7d c(-1)" = .ok ts ∧
      (Block.readTokens maxNesting ts).result = .ok
        [.cond (Form.name "a").bare [.expr (Form.assign "b" (Form.truth true).bare).bare] (some []),
          .expr (Form.call (Form.name "c").bare
            [(Form.unary .negate (Form.number "1").bare).bare]).bare] := by
  have hscan : Token.scan "if (a) b = T else \x7b\x7d c(-1)" = .ok
      [⟨.keyword .ifWord, "if", some ⟨0, 0⟩⟩, ⟨.mark .openParen, "(", some ⟨0, 3⟩⟩,
        ⟨.name, "a", some ⟨0, 4⟩⟩, ⟨.mark .closeParen, ")", some ⟨0, 5⟩⟩,
        ⟨.name, "b", some ⟨0, 7⟩⟩, ⟨.mark .equal, "=", some ⟨0, 9⟩⟩, ⟨.name, "T", some ⟨0, 11⟩⟩,
        ⟨.keyword .elseWord, "else", some ⟨0, 13⟩⟩, ⟨.mark .openBrace, "\x7b", some ⟨0, 18⟩⟩,
        ⟨.mark .closeBrace, "\x7d", some ⟨0, 19⟩⟩, ⟨.name, "c", some ⟨0, 21⟩⟩,
        ⟨.mark .openParen, "(", some ⟨0, 22⟩⟩, ⟨.mark .minus, "-", some ⟨0, 23⟩⟩,
        ⟨.number, "1", some ⟨0, 24⟩⟩, ⟨.mark .closeParen, ")", some ⟨0, 25⟩⟩] := rfl
  let body : Phrase .statement := .expr (.assign ⟨"b", by decide⟩ (.ident "T"))
  let arg : Phrase .expression :=
    .plain (.ofFactor (.ofUnary (.signed .negate (.ofApplied (.ofPrimary (.number "1"))))))
  let call : Phrase .expression :=
    .term (.call (.ofPrimary (.word "c")) (.someItems (.lastItem arg)))
  refine ⟨_, hscan, (Block.result_readTokens_scan_iff hscan _).2
    ⟨.nextStatement (.condElse (.ident "a") (.single body) (.braces .noStatements))
      (.nextStatement (.expr call) .noStatements), ?_, ?_, rfl, rfl, by decide⟩⟩
  · exact ⟨⟨⟨Token.ends_cons.2 rfl, trivial⟩, trivial⟩, trivial, trivial⟩
  · exact ⟨⟨trivial, rfl, trivial⟩, fun h => absurd h (by decide), trivial,
      fun _ => Token.ends_nil _, trivial⟩

/-- Not every phrase is how its tokens are read: `a (b)` is one statement, but the grammar has also
a phrase for two. -/
theorem phrases_ambiguous : ¬ ∀ (source : String) (ts : List Token) (b : Block),
    Token.scan source = .ok ts →
      ((Block.readTokens maxNesting ts).result = .ok b ↔
        ∃ p : Phrase .statements, p.Unbraced ∧ p.tokens = ts.map Token.unplaced ∧
          p.meaning = b ∧ p.depth ≤ maxNesting) := by
  intro h
  have hscan : Token.scan "a (b)" = .ok
      [⟨.name, "a", some ⟨0, 0⟩⟩, ⟨.mark .openParen, "(", some ⟨0, 2⟩⟩, ⟨.name, "b", some ⟨0, 3⟩⟩,
        ⟨.mark .closeParen, ")", some ⟨0, 4⟩⟩] := rfl
  let grouped : Phrase .expression := .term (.ofPrimary (.group (.ident "b")))
  let call : Phrase .expression :=
    .term (.call (.ofPrimary (.word "a")) (.someItems (.lastItem (.ident "b"))))
  have htwo := (h _ _ _ hscan).2
    ⟨.nextStatement (.expr (.ident "a")) (.nextStatement (.expr grouped) .noStatements),
      ⟨trivial, trivial, trivial⟩, rfl, rfl, by decide⟩
  have hone := (Block.result_readTokens_iff (n := maxNesting) (Token.lexical_of_scan hscan)).2
    ⟨.nextStatement (.expr call) .noStatements,
      ⟨⟨trivial, trivial⟩, ⟨trivial, fun _ => Token.ends_nil _, trivial⟩, rfl, by decide⟩, rfl⟩
  have hsame := Except.ok.inj (htwo.symm.trans hone)
  exact absurd (congrArg List.length hsame) (by decide)

end Offside
