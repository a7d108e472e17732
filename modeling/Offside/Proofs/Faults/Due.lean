import Offside.Proofs.Grammatical

/-!
# What the grammar asks for next

`Due base c ts` says that a phrase of the category `c` has to start where `ts`, the last part of
`base`, does. It follows the grammar and not the rules: what stands before `ts` is made of whole
phrases and of the tokens between them, and there is one constructor for each place that the grammar
has for a phrase. So where an entry is due, there is a dictionary around it.
-/

namespace Offside

open Token (Ends)

/-- The phrase is made of the first tokens, and `rest` are the others. -/
def Phrase.Leads {c : Category} (p : Phrase c) (ts rest : List Token) : Prop :=
  ∃ front, front ++ rest = ts ∧ front.map Token.face = p.tokens

theorem Phrase.Leads.suffix {c : Category} {p : Phrase c} {ts rest : List Token}
    (h : p.Leads ts rest) : rest <:+ ts := by
  obtain ⟨front, hts, -⟩ := h
  exact ⟨front, hts⟩

/-- With a token behind it, a phrase does not stand at the end of the tokens. -/
theorem Phrase.Leads.exists_cons {c : Category} {p : Phrase c} {t : Token} {ts rest : List Token}
    (h : p.Leads ts (t :: rest)) : ∃ u us, ts = u :: us := by
  refine List.exists_cons_of_ne_nil fun hnil => ?_
  have hlength := h.suffix.length_le
  rw [hnil] at hlength
  exact absurd hlength (by simp)

theorem Phrase.leads_of_suffix {c : Category} {p : Phrase c} {ts rest : List Token}
    (hs : rest <:+ ts) (hp : ts.map Token.face = p.tokens ++ rest.map Token.face) :
    p.Leads ts rest := by
  obtain ⟨front, rfl⟩ := hs
  rw [List.map_append] at hp
  exact ⟨front, rfl, List.append_cancel_right hp⟩

theorem Derives.exists_leads {c : Category} {n : Nat} {ts rest : List Token} {a : c.Meaning}
    (h : Derives c n ts a rest) (hs : rest <:+ ts) :
    ∃ p : Phrase c, p.Leads ts rest ∧ p.meaning = a := by
  obtain ⟨p, hp, hm, -⟩ := h
  exact ⟨p, p.leads_of_suffix hs hp, hm⟩

/-- A phrase of the category has to start with `ts`, where `base` is a program up to there. -/
inductive Due (base : List Token) : Category → List Token → Prop where
  | program : Due base .statements base
  | statement {ts : List Token} (h : Due base .statements ts) : Due base .statement ts
  | nextStatement {ts rest : List Token} {p : Phrase .statement} (h : Due base .statements ts)
      (hp : p.Leads ts rest) (hu : p.Unbraced) (hg : p.Greedy) (hc : Grammar.Closes p rest) :
      Due base .statements rest
  | condition {t u : Token} {ts : List Token} (h : Due base .statement (t :: u :: ts))
      (ht : t.kind = .keyword .ifWord) (hu : u.kind = .mark .openParen) : Due base .expression ts
  | body {t u v : Token} {ts rest : List Token} {c : Phrase .expression}
      (h : Due base .statement (t :: u :: ts)) (ht : t.kind = .keyword .ifWord)
      (hu : u.kind = .mark .openParen) (hc : c.Leads ts (v :: rest))
      (hv : v.kind = .mark .closeParen) : Due base .block rest
  | otherwise {t u v w : Token} {ts mid rest : List Token} {c : Phrase .expression}
      {b : Phrase .block} (h : Due base .statement (t :: u :: ts))
      (ht : t.kind = .keyword .ifWord) (hu : u.kind = .mark .openParen)
      (hc : c.Leads ts (v :: mid)) (hv : v.kind = .mark .closeParen) (hb : b.Leads mid (w :: rest))
      (hw : w.kind = .keyword .elseWord) : Due base .block rest
  | braces {t : Token} {ts : List Token} (h : Due base .block (t :: ts))
      (ht : t.kind = .mark .openBrace) : Due base .statements ts
  /-- A brace at the start of a body opens the body, and no dictionary. -/
  | single {ts : List Token} (h : Due base .block ts) (hb : Ends (· == .mark .openBrace) ts) :
      Due base .statement ts
  | plain {ts : List Token} (h : Due base .statement ts)
      (hs : Ends (fun k => k == .comment || k == .keyword .ifWord) ts) : Due base .expression ts
  | binary {ts : List Token} (h : Due base .expression ts) : Due base .binary ts
  | value {x : String} {t : Token} {ts rest : List Token} {p : Phrase .binary}
      (h : Due base .expression ts) (hp : p.Leads ts (t :: rest)) (ht : t.kind = .mark .equal)
      (hx : p.meaning = (Form.name x).bare) : Due base .expression rest
  | factor {ts : List Token} (h : Due base .binary ts) : Due base .factor ts
  | summand {op : LooseOp} {t : Token} {ts rest : List Token} {p : Phrase .binary}
      (h : Due base .binary ts) (hp : p.Leads ts (t :: rest)) (ht : t.kind = .mark op.1.mark) :
      Due base .factor rest
  | unary {ts : List Token} (h : Due base .factor ts) : Due base .unary ts
  | multiplier {op : TightOp} {t : Token} {ts rest : List Token} {p : Phrase .factor}
      (h : Due base .factor ts) (hp : p.Leads ts (t :: rest)) (ht : t.kind = .mark op.1.mark) :
      Due base .unary rest
  | signed {op : UnaryOp} {t : Token} {ts : List Token} (h : Due base .unary (t :: ts))
      (ht : t.kind = .mark op.mark) : Due base .unary ts
  | applied {ts : List Token} (h : Due base .unary ts)
      (hs : Ends (fun k => (Grammar.unaryOp? (some k)).isSome) ts) : Due base .applied ts
  | call {t : Token} {ts rest : List Token} {p : Phrase .applied} (h : Due base .applied ts)
      (hp : p.Leads ts (t :: rest)) (ht : t.kind = .mark .openParen) : Due base .arguments rest
  | index {t : Token} {ts rest : List Token} {p : Phrase .applied} (h : Due base .applied ts)
      (hp : p.Leads ts (t :: rest)) (ht : t.kind = .mark .openBracket) : Due base .expression rest
  | primary {ts : List Token} (h : Due base .applied ts) : Due base .primary ts
  | group {t : Token} {ts : List Token} (h : Due base .primary (t :: ts))
      (ht : t.kind = .mark .openParen) : Due base .expression ts
  | list {t : Token} {ts : List Token} (h : Due base .primary (t :: ts))
      (ht : t.kind = .mark .openBracket) : Due base .arguments ts
  | dict {t : Token} {ts : List Token} (h : Due base .primary (t :: ts))
      (ht : t.kind = .mark .openBrace) : Due base .entries ts
  | items {ts : List Token} (h : Due base .arguments ts) : Due base .items ts
  | item {ts : List Token} (h : Due base .items ts) : Due base .expression ts
  | nextItem {t : Token} {ts rest : List Token} {p : Phrase .expression} (h : Due base .items ts)
      (hp : p.Leads ts (t :: rest)) (ht : t.kind = .mark .comma) : Due base .items rest
  | entry {ts : List Token} (h : Due base .entries ts) (hs : Ends (· == .mark .closeBrace) ts) :
      Due base .entry ts
  | nextEntry {t : Token} {ts rest : List Token} {p : Phrase .entry} (h : Due base .entries ts)
      (hp : p.Leads ts (t :: rest)) (ht : t.kind = .mark .comma) : Due base .entries rest
  | key {ts : List Token} (h : Due base .entry ts) : Due base .expression ts
  | keyed {t : Token} {ts rest : List Token} {p : Phrase .expression} (h : Due base .entry ts)
      (hp : p.Leads ts (t :: rest)) (ht : t.kind = .mark .colon ∨ t.kind = .mark .walrus) :
      Due base .expression rest

theorem Due.suffix {base ts : List Token} {c : Category} (h : Due base c ts) : ts <:+ base := by
  have htail : ∀ (t : Token) (us : List Token), us <:+ t :: us := List.suffix_cons
  induction h with
  | program => exact List.suffix_rfl
  | statement _ ih | single _ _ ih | plain _ _ ih | binary _ ih | factor _ ih | unary _ ih
  | applied _ _ ih | primary _ ih | items _ ih | item _ ih | entry _ _ ih | key _ ih => exact ih
  | nextStatement _ hp _ _ _ ih => exact hp.suffix.trans ih
  | condition _ _ _ ih => exact ((htail _ _).trans (htail _ _)).trans ih
  | body _ _ _ hc _ ih =>
    exact ((htail _ _).trans hc.suffix).trans (((htail _ _).trans (htail _ _)).trans ih)
  | otherwise _ _ _ hc _ hb _ ih =>
    have hmid := (htail _ _).trans hc.suffix
    have hother := ((htail _ _).trans (htail _ _)).trans ih
    exact (((htail _ _).trans hb.suffix).trans hmid).trans hother
  | braces _ _ ih | signed _ _ ih | group _ _ ih | list _ _ ih | dict _ _ ih =>
    exact (htail _ _).trans ih
  | value _ hp _ _ ih => exact ((htail _ _).trans hp.suffix).trans ih
  | summand _ hp _ ih | multiplier _ hp _ ih | call _ hp _ ih | index _ hp _ ih
  | nextItem _ hp _ ih | nextEntry _ hp _ ih | keyed _ hp _ ih =>
    exact ((htail _ _).trans hp.suffix).trans ih

end Offside
