import Offside.Proofs.Accepted
import Offside.Proofs.Leading
import Offside.Proofs.Pieces
import Offside.Proofs.Spelled

/-!
# The trees that are read

A block is what some text is read as if and only if it is well formed (`Block.exists_parse_iff`).
Three things make it so: the texts at the leaves and the strengths of the operands, which
`Expr.Formed` is about; that no expression would go on with the statement behind it; and the levels
of nesting.

That a well-formed block is read takes a text for it. Every list of tokens whose texts are of their
classes is scanned from the text that has each token on a line of its own (`Token.scan_column`), so
it is enough to find a phrase. All bodies in it are in braces, and then only a statement that is an
expression can run into the next one.
-/

namespace Offside

open Lexeme
open Token (Ends)

/-! ## One token on each line -/

namespace Token

/-- Every token on a line of its own. -/
def column (ts : List Token) : List Char := ts.flatMap fun t => t.line ++ ['\n']

theorem spaced_feeds (ts : List Token) : Spaced (ts.map fun t => (t, ['\n'])) := by
  have hgap : ∀ i ∈ ts.map fun t => (t, ['\n']), i.2 = ['\n'] := by simp
  have hlast : ∀ i ∈ (ts.map fun t => (t, ['\n'])).dropLast, i.2 = ['\n'] :=
    fun i hi => hgap i (List.dropLast_subset _ hi)
  refine ⟨fun i hi c hc => ?_, fun i hi => ?_, fun i hi _ => ?_⟩
  · rw [hgap i hi, List.mem_singleton] at hc
    rw [hc]
    decide
  · rw [hlast i hi]
    exact List.cons_ne_nil _ _
  · rw [hlast i hi]
    exact List.mem_cons_self

/-- Tokens with texts of their classes are those of a text. -/
theorem scan_column {ts : List Token} (h : ∀ t ∈ ts, t.Lexical) :
    ∃ us, scan (String.ofList (column ts)) = .ok us ∧ us.map unplaced = ts.map unplaced := by
  have hcolumn : column ts = spread (ts.map fun t => (t, ['\n'])) := by
    rw [column, spread, List.flatMap_map]
  have htokens : (ts.map fun t => (t, ['\n'])).map Prod.fst = ts := by
    rw [List.map_map]
    exact List.map_id ts
  have hreads := scansAs_spread (spaced_feeds ts) (List.forall_mem_map.2 h)
  rw [htokens, ← hcolumn] at hreads
  exact hreads.scan

end Token

/-! ## Well-formed blocks -/

/-- The kind of the first token of a statement. -/
def Stmt.lead : Stmt → Kind
  | .expr e => e.lead
  | .comment _ => .comment
  | .cond _ _ _ => .keyword .ifWord

/-- The first statement does not go on with the second: an expression is not followed by a statement
that starts with `(`, `[` or `-`. -/
def Stmt.StandsBefore : Stmt → Stmt → Prop
  | .expr _, s => s.lead.joins = false
  | _, _ => True

inductive Stmt.WellFormed : Stmt → Prop where
  | expr {e : Expr} (he : e.Formed) : WellFormed (.expr e)
  | comment {text : String} (ht : IsRemark text.toList) : WellFormed (.comment text)
  | cond {c : Expr} {body : Block} (hc : c.Formed) (hb : ∀ s ∈ body, WellFormed s)
      (hs : body.IsChain StandsBefore) : WellFormed (.cond c body none)
  | condElse {c : Expr} {body other : Block} (hc : c.Formed) (hb : ∀ s ∈ body, WellFormed s)
      (hs : body.IsChain StandsBefore) (ho : ∀ s ∈ other, WellFormed s)
      (hso : other.IsChain StandsBefore) : WellFormed (.cond c body (some other))

mutual

/-- The levels of nesting that a statement opens. -/
def Stmt.depth : Stmt → Nat
  | .expr e => e.depth + 1
  | .comment _ => 0
  | .cond condition body otherwise =>
    max (condition.depth + 1) (max (Block.depth body) (elseDepth otherwise)) + 1

def Block.depth : List Stmt → Nat
  | [] => 0
  | s :: ss => max s.depth (Block.depth ss)

def elseDepth : Option (List Stmt) → Nat
  | none => 0
  | some block => Block.depth block

end

structure Block.WellFormed (b : Block) : Prop where
  statements : ∀ s ∈ b, s.WellFormed
  chain : b.IsChain Stmt.StandsBefore
  depth : Block.depth b ≤ maxNesting

/-! ## What is read is well formed -/

namespace Phrase

/-- What a statement starts with is a matter of what it stands for. -/
theorem head_statement (p : Phrase .statement) :
    Token.StartsWith (Stmt.lead p.meaning) p.tokens := by
  cases p with
  | cond | condElse | comment => rfl
  | expr e => exact head_tokens e

/-- An expression goes on with the tokens of a statement if they start so. -/
theorem ends_statement_iff (p : Phrase .statement) (ts : List Token) :
    Ends Kind.continues (p.tokens ++ ts) ↔ (Stmt.lead p.meaning).joins = false := by
  have hhead := p.head_statement
  obtain ⟨t, us, hts, hb⟩ := p.begins_tokens
  rw [hts] at hhead
  obtain hk : t.kind = Stmt.lead p.meaning := Option.some.inj hhead
  rw [hts, List.cons_append, Token.ends_cons, Kind.continues_of_begins hb, hk]

theorem ends_statements_iff (p : Phrase .statements) :
    Ends Kind.continues p.tokens ↔
      ∀ s ∈ List.head? (α := Stmt) p.meaning, s.lead.joins = false := by
  cases p with
  | noStatements => simp [Token.ends_nil]
  | nextStatement s ss =>
    rw [tokens, ends_statement_iff]
    simp

end Phrase

/-- What a phrase of statements stands for is well formed and opens at most `d` levels. -/
def Category.Attains (d : Nat) : (c : Category) → c.Meaning → Prop
  | .statement, s => Stmt.WellFormed s ∧ Stmt.depth s ≤ d
  | .block, b => (∀ s ∈ b, Stmt.WellFormed s) ∧ List.IsChain Stmt.StandsBefore b ∧ Block.depth b ≤ d
  | .statements, b =>
    (∀ s ∈ b, Stmt.WellFormed s) ∧ List.IsChain Stmt.StandsBefore b ∧ Block.depth b ≤ d
  | _, _ => True

namespace Phrase

/-- In a greedy phrase an expression does not go on with the statement behind it. -/
theorem standsBefore_of_greedy {s : Phrase .statement} {ss : Phrase .statements}
    (h : s.endsInExpr = true → Ends Kind.continues ss.tokens) :
    ∀ s' ∈ List.head? (α := Stmt) ss.meaning, Stmt.StandsBefore s.meaning s' := by
  cases s with
  | cond | condElse | comment => exact fun _ _ => trivial
  | expr e => exact (ends_statements_iff ss).1 (h rfl)

theorem attains : ∀ {c : Category} (p : Phrase c), (∀ t ∈ p.tokens, t.Lexical) → p.Greedy →
    c.Attains p.depth p.meaning
  | _, cond c body, h, hg => by
    have hc : Expr.Formed c.meaning := formed_meaning c fun t ht => h t (by simp [ht])
    have hd : Expr.depth c.meaning + 1 ≤ c.depth := depth_meaning c
    obtain ⟨hb, hs, hbd⟩ := attains body (fun t ht => h t (by simp [ht])) hg
    refine ⟨.cond hc hb hs, ?_⟩
    simp only [meaning, depth, Stmt.depth, elseDepth]
    omega
  | _, condElse c body other, h, ⟨hgb, _, hgo⟩ => by
    have hc : Expr.Formed c.meaning := formed_meaning c fun t ht => h t (by simp [ht])
    have hd : Expr.depth c.meaning + 1 ≤ c.depth := depth_meaning c
    obtain ⟨hb, hs, hbd⟩ := attains body (fun t ht => h t (by simp [ht])) hgb
    obtain ⟨ho, hso, hod⟩ := attains other (fun t ht => h t (by simp [ht])) hgo
    refine ⟨.condElse hc hb hs ho hso, ?_⟩
    simp only [meaning, depth, Stmt.depth, elseDepth]
    omega
  | _, comment text, h, _ => ⟨.comment (h (.bare .comment text) (by simp)), Nat.zero_le _⟩
  | _, expr e, h, _ => ⟨.expr (formed_meaning e h), depth_meaning e⟩
  | _, braces ss, h, hg => attains ss (fun t ht => h t (by simp [ht])) hg
  | _, single s, h, hg => by
    obtain ⟨hs, hd⟩ := attains s h hg
    refine ⟨by simpa using hs, List.isChain_singleton _, ?_⟩
    simpa [Block.depth] using hd
  | _, noStatements, _, _ => ⟨by simp, List.isChain_nil, Nat.zero_le _⟩
  | _, nextStatement s ss, h, ⟨hgs, hends, hgss⟩ => by
    obtain ⟨hs, hd⟩ := attains s (fun t ht => h t (by simp [ht])) hgs
    obtain ⟨hss, hchain, hdss⟩ := attains ss (fun t ht => h t (by simp [ht])) hgss
    refine ⟨List.forall_mem_cons.2 ⟨hs, hss⟩,
      List.isChain_cons.2 ⟨standsBefore_of_greedy hends, hchain⟩, ?_⟩
    simp only [meaning, depth, Block.depth]
    omega
  | .expression, _, _, _ | .binary, _, _, _ | .factor, _, _, _ | .unary, _, _, _
  | .applied, _, _, _ | .primary, _, _, _ | .arguments, _, _, _ | .items, _, _, _
  | .entries, _, _, _ | .entry, _, _, _ | .key, _, _, _ => trivial

end Phrase

/-! ## The tokens of a well-formed expression -/

/-- Tokens in marks that open and close. -/
theorem lexical_enclosed {ts : List Token} (h : ∀ t ∈ ts, t.Lexical) (m n : Mark) :
    ∀ t ∈ m.token :: (ts ++ [n.token]), t.Lexical := by
  rw [List.forall_mem_cons, List.forall_mem_append, List.forall_mem_singleton]
  exact ⟨rfl, h, rfl⟩

theorem mem_commaTokens {t : Token} : ∀ {tss : List (List Token)}, t ∈ commaTokens tss →
    t = Mark.comma.token ∨ ∃ ts ∈ tss, t ∈ ts
  | [], h => absurd h (by simp [commaTokens])
  | [ts], h => Or.inr ⟨ts, by simp, h⟩
  | ts :: us :: tss, h => by
    rw [commaTokens, List.mem_append, List.mem_cons] at h
    rcases h with h | h | h
    · exact Or.inr ⟨ts, by simp, h⟩
    · exact Or.inl h
    · rcases mem_commaTokens h with h | ⟨vs, hvs, h⟩
      · exact Or.inl h
      · exact Or.inr ⟨vs, List.mem_cons_of_mem ts hvs, h⟩

theorem lexical_commaTokens {tss : List (List Token)} (h : ∀ ts ∈ tss, ∀ t ∈ ts, t.Lexical) :
    ∀ t ∈ commaTokens tss, t.Lexical := by
  intro t ht
  rcases mem_commaTokens ht with rfl | ⟨ts, hts, ht⟩
  · exact rfl
  · exact h ts hts t ht

section Lexical

variable {style : Pairing}

theorem lexical_regroup {f : Form} (h : ∀ t ∈ f.tokens style, t.Lexical) (g : Bool) :
    ∀ t ∈ Expr.tokens style ⟨f, g⟩, t.Lexical := by
  rw [Expr.tokens]
  cases g with
  | false => exact h
  | true => exact lexical_enclosed h _ _

theorem lexical_tokensAll {es : List Expr} (h : ∀ e ∈ es, ∀ t ∈ e.tokens style, t.Lexical) :
    ∀ t ∈ tokensAll style es, t.Lexical := by
  rw [tokensAll_eq]
  exact lexical_commaTokens (List.forall_mem_map.2 h)

theorem lexical_tokensEntries {es : List Entry}
    (hk : ∀ n ∈ es, ∀ t ∈ n.key.tokens style, t.Lexical)
    (hv : ∀ n ∈ es, ∀ t ∈ n.value.tokens style, t.Lexical) :
    ∀ t ∈ tokensEntries style es, t.Lexical := by
  rw [tokensEntries_eq]
  refine lexical_commaTokens (List.forall_mem_map.2 fun n hn => ?_)
  have hkey := hk n hn
  have hvalue := hv n hn
  obtain ⟨key, value⟩ := n
  rw [Entry.tokens, List.forall_mem_append, List.forall_mem_cons]
  exact ⟨hkey, rfl, hvalue⟩

/-- The tokens of a well-formed expression have texts of their classes. -/
theorem Expr.Formed.lexical_tokens {e : Expr} (h : e.Formed) :
    ∀ t ∈ e.tokens style, t.Lexical := by
  induction h with
  | name hx g =>
    refine lexical_regroup ?_ g
    rw [Form.tokens, List.forall_mem_singleton]
    exact hx.1
  | number ht g =>
    refine lexical_regroup ?_ g
    rw [Form.tokens, List.forall_mem_singleton]
    exact ht
  | @string content hc g =>
    refine lexical_regroup ?_ g
    rw [Form.tokens, List.forall_mem_singleton]
    exact ⟨content.toList, hc, by simp [Token.bare]⟩
  | truth b g =>
    refine lexical_regroup ?_ g
    rw [Form.tokens, List.forall_mem_singleton]
    cases b <;> exact isName_of_all (by decide) (by decide) (by decide)
  | assign hx hv g ih =>
    refine lexical_regroup ?_ g
    rw [Form.tokens, List.forall_mem_cons, List.forall_mem_cons]
    exact ⟨hx.1, rfl, ih⟩
  | binary hl hr htl htr g ihl ihr =>
    refine lexical_regroup ?_ g
    rw [Form.tokens, List.forall_mem_append, List.forall_mem_cons]
    exact ⟨ihl, rfl, ihr⟩
  | unary op he ht g ih =>
    refine lexical_regroup ?_ g
    rw [Form.tokens, List.forall_mem_cons]
    exact ⟨rfl, ih⟩
  | call hc ht hargs g ihc ihargs =>
    refine lexical_regroup ?_ g
    rw [Form.tokens, List.forall_mem_append]
    exact ⟨ihc, lexical_enclosed (lexical_tokensAll ihargs) _ _⟩
  | index hv ht hi g ihv ihi =>
    refine lexical_regroup ?_ g
    rw [Form.tokens, List.forall_mem_append]
    exact ⟨ihv, lexical_enclosed ihi _ _⟩
  | member hv ht hx g ih =>
    refine lexical_regroup ?_ g
    rw [Form.tokens, List.forall_mem_append, List.forall_mem_cons, List.forall_mem_singleton]
    exact ⟨ih, rfl, hx⟩
  | dict hk hv g ihk ihv =>
    refine lexical_regroup ?_ g
    rw [Form.tokens]
    exact lexical_enclosed (lexical_tokensEntries ihk ihv) _ _
  | list hes g ih =>
    refine lexical_regroup ?_ g
    rw [Form.tokens]
    exact lexical_enclosed (lexical_tokensAll ih) _ _

end Lexical

/-! ## What is well formed is read -/

namespace Phrase

/-- The phrase is one that a text can be written for: it is read as it stands, its tokens have texts
of their classes, and it opens at most `d` levels. -/
structure Writable {c : Category} (p : Phrase c) (d : Nat) : Prop where
  unbraced : p.Unbraced
  greedy : p.Greedy
  lexical : ∀ t ∈ p.tokens, t.Lexical
  depth : p.depth ≤ d

/-- A statement of several is followed by one that it can stand before. -/
theorem exists_statements : ∀ {b : Block}, List.IsChain Stmt.StandsBefore b →
    (∀ s ∈ b, ∃ p : Phrase .statement, p.meaning = s ∧ p.Writable s.depth ∧
      (p.endsInExpr = true → ∃ e, s = .expr e)) →
      ∃ p : Phrase .statements, p.meaning = b ∧ p.Writable (Block.depth b)
  | [], _, _ => ⟨.noStatements, rfl, trivial, trivial, by simp, Nat.zero_le _⟩
  | s :: ss, hchain, h => by
    obtain ⟨hstands, htail⟩ := List.isChain_cons.1 hchain
    obtain ⟨p, rfl, hp, hexpr⟩ := h s List.mem_cons_self
    obtain ⟨q, rfl, hq⟩ := exists_statements htail fun s' hs' => h s' (List.mem_cons_of_mem _ hs')
    refine ⟨.nextStatement p q, rfl, ⟨hp.unbraced, hq.unbraced⟩,
      ⟨hp.greedy, fun hends => ?_, hq.greedy⟩, ?_, ?_⟩
    · obtain ⟨e, he⟩ := hexpr hends
      refine (ends_statements_iff q).2 fun s' hs' => ?_
      have := hstands s' hs'
      rwa [he] at this
    · rw [tokens, List.forall_mem_append]
      exact ⟨hp.lexical, hq.lexical⟩
    · have hpd := hp.depth
      have hqd := hq.depth
      rw [depth, Block.depth]
      omega

theorem exists_writable_expr {e : Expr} (h : e.Formed) : ∃ p : Phrase .expression,
    p.meaning = e ∧ (∀ t ∈ p.tokens, t.Lexical) ∧ p.depth ≤ e.depth + 1 := by
  obtain ⟨p, hts, hm, hd⟩ := (spelled .keyed h).expression
  rw [h.read_keyed] at hm
  exact ⟨p, hm, hts ▸ h.lexical_tokens, hd⟩

/-- A well-formed statement has a phrase in which all bodies are in braces. -/
theorem exists_statement {s : Stmt} (h : s.WellFormed) : ∃ p : Phrase .statement,
    p.meaning = s ∧ p.Writable s.depth ∧ (p.endsInExpr = true → ∃ e, s = .expr e) := by
  induction h with
  | @expr e he =>
    obtain ⟨p, rfl, hl, hd⟩ := exists_writable_expr he
    exact ⟨.expr p, rfl, ⟨trivial, trivial, hl, by rwa [Stmt.depth]⟩, fun _ => ⟨_, rfl⟩⟩
  | @comment text ht =>
    refine ⟨.comment text, rfl, ⟨trivial, trivial, ?_, Nat.zero_le _⟩, nofun⟩
    rw [tokens, List.forall_mem_singleton]
    exact ht
  | @cond c body hc hb hs ihb =>
    obtain ⟨p, rfl, hl, hd⟩ := exists_writable_expr hc
    obtain ⟨q, rfl, hq⟩ := exists_statements hs ihb
    refine ⟨.cond p (.braces q), rfl, ⟨hq.unbraced, hq.greedy, ?_, ?_⟩, nofun⟩
    · rw [tokens, List.forall_mem_cons, List.forall_mem_cons, List.forall_mem_append,
        List.forall_mem_cons]
      exact ⟨rfl, rfl, hl, rfl, lexical_enclosed hq.lexical _ _⟩
    · have hqd := hq.depth
      simp only [depth, Stmt.depth, elseDepth]
      omega
  | @condElse c body other hc hb hs ho hso ihb iho =>
    obtain ⟨p, rfl, hl, hd⟩ := exists_writable_expr hc
    obtain ⟨q, rfl, hq⟩ := exists_statements hs ihb
    obtain ⟨r, rfl, hr⟩ := exists_statements hso iho
    refine ⟨.condElse p (.braces q) (.braces r), rfl,
      ⟨⟨hq.unbraced, hr.unbraced⟩, ⟨hq.greedy, rfl, hr.greedy⟩, ?_, ?_⟩, nofun⟩
    · rw [tokens, List.forall_mem_cons, List.forall_mem_cons, List.forall_mem_append,
        List.forall_mem_cons, List.forall_mem_append, List.forall_mem_cons]
      exact ⟨rfl, rfl, hl, rfl, lexical_enclosed hq.lexical _ _, rfl,
        lexical_enclosed hr.lexical _ _⟩
    · have hqd := hq.depth
      have hrd := hr.depth
      simp only [depth, Stmt.depth, elseDepth]
      omega

/-- The tokens of a phrase stand nowhere. -/
theorem unplaced_tokens {c : Category} (p : Phrase c) : p.tokens.map Token.unplaced = p.tokens := by
  induction p <;> simp_all [Token.unplaced, Token.bare, Mark.token, Keyword.token]

end Phrase

namespace Block

/-- A block is what some text is read as exactly if it is well formed: names, numbers, strings and
comments have texts of their classes, an operand binds as tightly as its operator asks or stands in
parentheses, no expression would go on with the statement behind it, and there are no more levels of
nesting than allowed. -/
theorem exists_parse_iff (b : Block) : (∃ source, parse source = .ok b) ↔ b.WellFormed := by
  constructor
  · rintro ⟨source, h⟩
    obtain ⟨ts, -, hl, p, hp, rfl⟩ := exists_phrase_of_parse h
    obtain ⟨hs, hchain, hd⟩ := p.attains (hp.lexical hl) hp.greedy
    exact ⟨hs, hchain, hd.trans hp.depth⟩
  · rintro ⟨hs, hchain, hd⟩
    obtain ⟨p, rfl, hp⟩ :=
      Phrase.exists_statements hchain fun s h => Phrase.exists_statement (hs s h)
    obtain ⟨us, hscan, hus⟩ := Token.scan_column hp.lexical
    rw [p.unplaced_tokens] at hus
    exact ⟨_, parse_of_phrase hscan ⟨hp.unbraced, hp.greedy, hus.symm, hp.depth.trans hd⟩⟩

end Block

end Offside
