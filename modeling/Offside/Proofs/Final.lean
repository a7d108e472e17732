import Offside.Proofs.Halting
import Offside.Proofs.Limit
import Offside.Proofs.LineBreak

/-!
# Faults that more text does not mend

A program that breaks off can be finished, but one with any other fault stays faulty, whatever is
written below it (`Block.parse_break_of_error`). The fault also stays what it was, with one
exception: that the key before `:=` is no name is noticed behind the value, and the value may be
what goes on in the next line.
-/

namespace Offside

theorem Halt.fault_prolong {h : Halt} (us : List Token) (hs : h.site ≠ []) :
    (h.prolong us).fault = h.fault := by
  obtain ⟨t, ts, ht⟩ := List.exists_cons_of_ne_nil hs
  simp only [fault, prolong, ht, List.cons_append, Complaint.fault]

/-- The fault found in the tokens is that there is no name before a `:=` in a dictionary. -/
def Fault.OfKey (ts : List Token) (e : Fault) : Prop :=
  ∃ site, Token.NamelessKey ts site ∧ e = Complaint.noName.fault site

/-- A fault at a token stays with more tokens behind, or it is about a key and another one takes its
place. -/
theorem Outcome.Prolongs.result_error {α : Type} {us base : List Token} {o o' : Outcome α}
    (h : o.Prolongs us base o') {e : Fault} (he : o.result = .error e) (hne : e ≠ .unexpectedEnd) :
    o'.result = .error e ∨ (∃ e', o'.result = .error e') ∧ e.OfKey base := by
  rcases o with ⟨a, rest⟩ | e₀
  · simp [Outcome.result] at he
  obtain rfl : e₀.fault = e := Except.error.inj he
  have hs : e₀.site ≠ [] := fun hnil => hne (by rw [Halt.fault, hnil, Complaint.fault])
  rcases h with _ | _ | hnil | hc | ⟨hc, hk⟩
  · exact absurd hnil hs
  · exact Or.inl (by rw [Outcome.result, Halt.fault_prolong us hs])
  · exact Or.inr ⟨⟨_, rfl⟩, e₀.site, hk, by rw [Halt.fault, hc]⟩

theorem Outcome.result_ne_stray {α : Type} {o : Outcome α} (x : Stray) :
    o.result ≠ .error (.stray x) := by
  rcases o with ⟨a, rest⟩ | h
  · simp [result]
  · rw [result, ne_eq, Except.error.injEq, Halt.fault]
    unfold Complaint.fault
    split
    · simp
    · split <;> simp

namespace Block

/-- A stray character is found whatever stands below its line. -/
theorem parse_break_of_stray {s : String} {x : Stray} (h : Token.scan s = .error x) (t : String) :
    parse (s ++ "\n" ++ t) = .error (.stray x) := by
  have hscan := Token.scan_break s t
  rw [h] at hscan
  unfold parse parseWithin
  rw [hscan, Token.scanThen]

/-- A text that is faulty, and not only unfinished, stays so with any text below it. The fault is
the same if it is a stray character, and also if there is no stray character in the text below, and
the fault is not the missing name before a `:=`. -/
theorem parse_break_of_error {s : String} {e : Fault} (hs : parse s = .error e)
    (he : e ≠ .unexpectedEnd) (t : String) :
    (∃ e', parse (s ++ "\n" ++ t) = .error e') ∧
      (∀ x, e = .stray x → parse (s ++ "\n" ++ t) = .error e) ∧
      (∀ ts us, Token.scan s = .ok ts → Token.scan t = .ok us → ¬ e.OfKey ts →
        parse (s ++ "\n" ++ t) = .error e) := by
  rcases hscan : Token.scan s with x | ts
  · have hparse := parse_break_of_stray hscan t
    obtain rfl : Fault.stray x = e := by
      unfold parse parseWithin at hs
      rw [hscan] at hs
      exact Except.error.inj hs
    exact ⟨⟨_, hparse⟩, fun _ _ => hparse, fun _ _ h => absurd h (by simp)⟩
  have hresult : (Grammar.program maxNesting ts).result = .error e :=
    (parseWithin_of_scan hscan maxNesting).symm.trans hs
  have hstray : ∀ x, e ≠ .stray x := fun x hx => Outcome.result_ne_stray x (hx ▸ hresult)
  have hjoined := Token.scan_break s t
  rcases hscan' : Token.scan t with x | us <;>
    rw [hscan, hscan', Token.lowerScan, Token.scanThen] at hjoined
  · refine ⟨⟨.stray (x.lower (Text.lines s.toList).length), ?_⟩, fun x hx => absurd hx (hstray x),
      fun _ _ _ h => absurd h (by simp)⟩
    unfold parse parseWithin
    rw [hjoined]
  · generalize us.map (Token.lower (Text.lines s.toList).length) = below at hjoined
    have hparse := parseWithin_of_scan hjoined maxNesting
    have hprolongs := (Grammar.prolonged_program below ts maxNesting).prolongs ts List.suffix_rfl
    rcases hprolongs.result_error hresult he with hsame | ⟨⟨e', hother⟩, hkey⟩
    · have hsame : parse (s ++ "\n" ++ t) = .error e := hparse.trans hsame
      exact ⟨⟨e, hsame⟩, fun _ _ => hsame, fun _ _ _ _ _ => hsame⟩
    · refine ⟨⟨e', hparse.trans hother⟩, fun x hx => absurd hx (hstray x),
        fun ts' _ hts _ hnot => ?_⟩
      obtain rfl := Except.ok.inj hts
      exact absurd hkey hnot

/-- The text `{a.1` has a fault at its last token, which is no name. It stays with a brace below it:
what stands behind the brace that opens is not what the fault is about. -/
theorem parse_break_of_error_member :
    parse "\x7ba.1" = .error (.located .noName "1" ⟨1, 4⟩) ∧
      parse "\x7ba.1\n\x7d" = .error (.located .noName "1" ⟨1, 4⟩) := by
  have hscan : Token.scan "\x7ba.1" = .ok
      [⟨.mark .openBrace, "\x7b", some ⟨0, 0⟩⟩, ⟨.name, "a", some ⟨0, 1⟩⟩,
        ⟨.mark .dot, ".", some ⟨0, 2⟩⟩, ⟨.number, "1", some ⟨0, 3⟩⟩] := rfl
  have hparse : parse "\x7ba.1" = .error (.located .noName "1" ⟨1, 4⟩) := rfl
  refine ⟨hparse, (parse_break_of_error hparse nofun "\x7d").2.2 _ _ hscan rfl ?_⟩
  rintro ⟨site, ⟨⟨t, ht, hsuffix⟩, -⟩, he⟩
  rcases List.suffix_cons_iff.1 hsuffix with heq | hsuffix
  · obtain ⟨-, rfl⟩ := List.cons.inj heq
    simp [Complaint.fault, Token.place?] at he
  · have hmem := hsuffix.subset List.mem_cons_self
    simp only [List.mem_cons, List.not_mem_nil, or_false] at hmem
    rcases hmem with rfl | rfl | rfl <;> simp at ht

/-- The value behind `:=` goes on in the next line, and so the key is not complained about. -/
example : parse "\x7b1 := a" = .error (.located .noName "1" ⟨1, 2⟩) ∧
    parse "\x7b1 := a\n+" = .error .unexpectedEnd := by
  constructor
  · cbv
  · cbv

end Block

end Offside
