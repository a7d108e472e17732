import Offside.Proofs.Face
import Offside.Proofs.Halting
import Offside.Proofs.Limit
import Offside.Proofs.Reader.Calls

/-!
# Positions are not read

Two token lists that differ in positions only are read alike: as the same statements, or with the
same complaint about tokens of the same index (`Block.readAlike_of_sameText`). A position
shows in the fault alone, and a token without one makes it a fault about the end of the input.

The rules do the same on the faces of the tokens, so two outcomes have the same face. What is left
to be said is which token a complaint is about, given how many tokens there are from it on
(`Token.exists_getElem?_ended`).
-/

namespace Offside

namespace Token

/-- The tokens differ in their positions, if at all. -/
def SameText (t u : Token) : Prop := t.kind = u.kind ∧ t.lexeme = u.lexeme

theorem SameText.face_eq {t u : Token} (h : t.SameText u) : t.face = u.face := by
  unfold face
  rw [h.1, h.2]

theorem map_face_eq {ts us : List Token} (h : List.Forall₂ SameText ts us) :
    ts.map face = us.map face := by
  induction h with
  | nil => rfl
  | cons htu _ ih => rw [List.map_cons, List.map_cons, htu.face_eq, ih]

theorem forall₂_beforeEnd {ts us : List Token} (h : List.Forall₂ SameText ts us) :
    List.Forall₂ SameText (beforeEnd ts) (beforeEnd us) := by
  induction h with
  | nil => exact .nil
  | @cons t u ts us htu _ ih =>
    unfold beforeEnd at ih ⊢
    rw [List.takeWhile_cons, List.takeWhile_cons, htu.1]
    split
    · exact .cons htu ih
    · exact .nil

end Token

/-- What becomes of the complaint about the token: a fault where the token stands, or one about the
end of the input if the token says that it has ended, or stands nowhere. -/
inductive Complaint.Raised (c : Complaint) (t : Token) : Fault → Prop where
  | located {p : Position} (hk : t.kind ≠ .eof) (hp : t.position = some p) :
      Raised c t (.located c t.lexeme p.place)
  | ended (h : t.kind = .eof ∨ t.position = none) : Raised c t .unexpectedEnd

theorem Complaint.raised_fault (c : Complaint) (t : Token) (ts : List Token) :
    c.Raised t (c.fault (t :: ts)) := by
  by_cases hk : t.kind = .eof
  · simpa [fault, Token.place?, hk] using Raised.ended (.inl hk)
  rcases hp : t.position with _ | p
  · simpa [fault, Token.place?, hk, hp] using Raised.ended (.inr hp)
  · simpa [fault, Token.place?, hk, hp] using Raised.located hk hp

/-- The tokens from `site` on are the last ones before the end, so their number says which token is
the first of them. With none left, it is the one that says that the input has ended. -/
theorem Token.exists_getElem?_ended {ts site : List Token} (h : site <:+ beforeEnd ts) :
    ∃ t, (ended ts)[(beforeEnd ts).length - site.length]? = some t ∧
      ∀ c : Complaint, c.Raised t (c.fault site) := by
  have hdrop : (beforeEnd (ended ts)).drop ((beforeEnd ts).length - site.length) = site := by
    rw [beforeEnd_ended]
    exact (List.suffix_iff_eq_drop.1 h).symm
  rcases site with _ | ⟨t, rest⟩
  · have hlt : (beforeEnd (ended ts)).length < (ended ts).length := by
      rw [length_beforeEnd]
      exact firstEnd_ended_lt ts
    obtain ⟨t, ht, hk⟩ := getElem?_length_beforeEnd hlt
    rw [beforeEnd_ended] at ht
    exact ⟨t, ht, fun c => .ended (.inl hk)⟩
  · exact ⟨t, (getElem?_of_drop_beforeEnd hdrop).1, fun c => c.raised_fault t rest⟩

/-- Outcomes with the same face are the same value, or the same complaint with as many tokens from
there on. -/
theorem Outcome.of_face_eq {α : Type} {o o' : Outcome α} (h : o.face = o'.face) :
    (∃ a rest rest', o = done a rest ∧ o' = done a rest') ∨
      ∃ e e', o = halted e ∧ o' = halted e' ∧ e.complaint = e'.complaint ∧
        e.site.length = e'.site.length := by
  rcases o with ⟨a, rest⟩ | e <;> rcases o' with ⟨a', rest'⟩ | e' <;>
    simp only [face, done.injEq, halted.injEq, reduceCtorEq] at h
  · exact .inl ⟨a, rest, rest', rfl, by rw [h.1]⟩
  · have hcomplaint : e.complaint = e'.complaint := congrArg (fun e => e.complaint) h
    have hsite := congrArg (fun e => e.site.length) h
    simp only [Halt.face, List.length_map] at hsite
    exact .inr ⟨e, e', rfl, rfl, hcomplaint, hsite⟩

theorem Grammar.site_suffix_of_program {n : Nat} {ts : List Token} {e : Halt}
    (h : program n ts = .halted e) : e.site <:+ ts := by
  have hprolongs := (prolonged_program [] ts n).prolongs ts List.suffix_rfl
  rw [h] at hprolongs
  exact hprolongs.site_suffix

namespace Block

/-- What comes of reading two token lists is the same: the same statements, or faults that the same
complaint raises about tokens of the same index. The token put behind the others counts as one. -/
inductive ReadAlike (ts us : List Token) : Except Fault Block → Except Fault Block → Prop where
  | ok (b : Block) : ReadAlike ts us (.ok b) (.ok b)
  | error (c : Complaint) (i : Nat) {t u : Token} {e f : Fault}
      (ht : (Token.ended ts)[i]? = some t) (hu : (Token.ended us)[i]? = some u)
      (he : c.Raised t e) (hf : c.Raised u f) : ReadAlike ts us (.error e) (.error f)

theorem ReadAlike.ok_iff {ts us : List Token} {r r' : Except Fault Block}
    (h : ReadAlike ts us r r') (b : Block) : r = .ok b ↔ r' = .ok b := by
  rcases h with b' | _
  · rfl
  · simp only [reduceCtorEq]

variable {ts us : List Token}

theorem readAlike_readTokens (h : List.Forall₂ Token.SameText ts us) (limit : Nat) :
    ReadAlike ts us (readTokens limit ts).result (readTokens limit us).result := by
  have hbefore := Token.forall₂_beforeEnd h
  have hface : (readTokens limit ts).face = (readTokens limit us).face := by
    unfold readTokens
    rw [← Grammar.blind_program, ← Grammar.blind_program, Token.map_face_eq hbefore]
  rcases Outcome.of_face_eq hface with ⟨b, rest, rest', hts, hus⟩ | ⟨e, f, hts, hus, hc, hlen⟩
  · rw [hts, hus]
    exact .ok b
  · obtain ⟨t, ht, he⟩ := Token.exists_getElem?_ended (Grammar.site_suffix_of_program hts)
    obtain ⟨u, hu, hf⟩ := Token.exists_getElem?_ended (Grammar.site_suffix_of_program hus)
    rw [← hbefore.length_eq, ← hlen] at hu
    rw [hts, hus]
    exact .error e.complaint _ ht hu (he _) (hc ▸ hf _)

/-- Positions do not matter. Two token lists that differ in nothing else are read as the same
statements, or there is the same complaint about tokens of the same index. So texts with the same
tokens, wherever they stand in them, are the same program or none. -/
theorem readAlike_of_sameText (h : List.Forall₂ Token.SameText ts us) :
    (∀ limit, ReadAlike ts us (readTokens limit ts).result (readTokens limit us).result) ∧
      ∀ s s', Token.scan s = .ok ts → Token.scan s' = .ok us →
        ∀ b, parse s = .ok b ↔ parse s' = .ok b := by
  refine ⟨readAlike_readTokens h, fun s s' hs hs' b => ?_⟩
  have hparse : parse s = (readTokens maxNesting ts).result := by rw [parse, parseWithin, hs]
  have hparse' : parse s' = (readTokens maxNesting us).result := by rw [parse, parseWithin, hs']
  rw [hparse, hparse']
  exact (readAlike_readTokens h maxNesting).ok_iff b

/-- The same three tokens, in one line and in two, are a program. Of a token that stands nowhere one
can say only that the input has ended. -/
theorem readAlike_of_sameText_lines :
    (∀ b, parse "a = 1" = .ok b ↔ parse "a\n\t=\n1" = .ok b) ∧
      ReadAlike [⟨.mark .comma, ",", some ⟨0, 4⟩⟩] [⟨.mark .comma, ",", none⟩]
        (.error (.located .unexpected "," ⟨1, 5⟩)) (.error .unexpectedEnd) := by
  have hline : Token.scan "a = 1" = .ok [⟨.name, "a", some ⟨0, 0⟩⟩,
      ⟨.mark .equal, "=", some ⟨0, 2⟩⟩, ⟨.number, "1", some ⟨0, 4⟩⟩] := rfl
  have hlines : Token.scan "a\n\t=\n1" = .ok [⟨.name, "a", some ⟨0, 0⟩⟩,
      ⟨.mark .equal, "=", some ⟨1, 1⟩⟩, ⟨.number, "1", some ⟨2, 0⟩⟩] := rfl
  have hcomma : List.Forall₂ Token.SameText [⟨.mark .comma, ",", some ⟨0, 4⟩⟩]
      [⟨.mark .comma, ",", none⟩] := .cons ⟨rfl, rfl⟩ .nil
  constructor
  · exact (readAlike_of_sameText (by simp [Token.SameText])).2 _ _ hline hlines
  · exact (readAlike_of_sameText hcomma).1 maxNesting

end Block

end Offside
