import Offside.Proofs.Lexical

/-!
# Where the tokens of a text stand

Every token of a text has a place, and the tokens stand in the order in which they are read
(`Token.pairwise_scan`): by lines, and by columns in a line.
-/

namespace Offside

namespace Place

/-- The first place comes before the second one, or is the same. -/
instance : LE Place where
  le p q := p.line < q.line ∨ p.line = q.line ∧ p.column ≤ q.column

instance : LT Place where
  lt p q := p.line < q.line ∨ p.line = q.line ∧ p.column < q.column

theorem le_refl (p : Place) : p ≤ p := Or.inr ⟨rfl, Nat.le_refl _⟩

theorem le_of_lt {p q : Place} (h : p < q) : p ≤ q := by
  rcases h with h | ⟨hl, hc⟩
  · exact Or.inl h
  · exact Or.inr ⟨hl, Nat.le_of_lt hc⟩

end Place

namespace Token

/-- Both tokens have a place, the first before the second. -/
def Precedes (t u : Token) : Prop := ∃ p q, t.place? = some p ∧ u.place? = some q ∧ p < q

/-- The token stands in the row, in the given column or behind it. -/
def StandsIn (row column : Nat) (t : Token) : Prop :=
  ∃ c, column ≤ c ∧ t.place? = some (Position.place ⟨row, c⟩)

theorem StandsIn.mono {row column column' : Nat} {t : Token} (h : StandsIn row column' t)
    (hc : column ≤ column') : StandsIn row column t := by
  obtain ⟨c, hle, hp⟩ := h
  exact ⟨c, hc.trans hle, hp⟩

theorem precedes_of_standsIn {row c column : Nat} {t u : Token}
    (ht : t.place? = some (Position.place ⟨row, c⟩)) (hu : StandsIn row column u)
    (hc : c < column) : t.Precedes u := by
  obtain ⟨c', hle, hp⟩ := hu
  exact ⟨_, _, ht, hp, Or.inr ⟨rfl, Nat.succ_lt_succ (Nat.lt_of_lt_of_le hc hle)⟩⟩

theorem Lexical.place {kind : Kind} {lexeme : String} {p : Position}
    (h : Lexical ⟨kind, lexeme, some p⟩) :
    (⟨kind, lexeme, some p⟩ : Token).place? = some p.place := by
  have hk : kind ≠ .eof := by
    rintro rfl
    exact h
  simp [place?, hk]

theorem standsIn_scanRest {row : Nat} {line : List Char} (hl : '\n' ∉ line) :
    ∀ {column skip : Nat} {ts : List Token}, scanRest row column skip line = .ok ts →
      (∀ t ∈ ts, t.StandsIn row (column + skip)) ∧ ts.Pairwise Precedes := by
  induction line with
  | nil =>
    intro column skip ts h
    rw [scanRest] at h
    obtain rfl := Except.ok.inj h
    simp
  | cons c cs ih =>
    intro column skip ts h
    have hcs : '\n' ∉ cs := fun hm => hl (List.mem_cons_of_mem _ hm)
    have hlexical := lexical_of_scanRest hl h
    cases skip with
    | succ skip =>
      rw [scanRest] at h
      have := ih hcs h
      rwa [Nat.add_right_comm, Nat.add_assoc] at this
    | zero =>
      rw [scanRest] at h
      split at h
      · obtain ⟨hall, hpair⟩ := ih hcs h
        exact ⟨fun t ht => (hall t ht).mono (by omega), hpair⟩
      · obtain rfl := Except.ok.inj h
        unfold ofComment at hlexical ⊢
        split
        · simp
        · simp only [List.forall_mem_singleton] at hlexical ⊢
          exact ⟨⟨column, Nat.le_refl _, hlexical.place⟩, List.pairwise_singleton _ _⟩
      · split at h
        · rename_i us hus
          obtain rfl := Except.ok.inj h
          obtain ⟨hall, hpair⟩ := ih hcs hus
          have hplace := (hlexical _ List.mem_cons_self).place
          refine ⟨List.forall_mem_cons.2 ⟨⟨column, Nat.le_refl _, hplace⟩, fun u hu => ?_⟩,
            List.pairwise_cons.2 ⟨fun u hu => ?_, hpair⟩⟩
          · exact (hall u hu).mono (by omega)
          · exact precedes_of_standsIn hplace (hall u hu) (by omega)
        · simp at h
      · simp at h

theorem precedes_of_row {row row' column : Nat} {t u : Token} (ht : t.StandsIn row 0)
    (hu : u.StandsIn row' column) (h : row < row') : t.Precedes u := by
  obtain ⟨c, -, hp⟩ := ht
  obtain ⟨c', -, hp'⟩ := hu
  exact ⟨_, _, hp, hp', Or.inl (Nat.succ_lt_succ h)⟩

theorem standsIn_scanLines {lines : List (List Char)} (hl : ∀ l ∈ lines, '\n' ∉ l) :
    ∀ {row : Nat} {ts : List Token}, scanLines row lines = .ok ts →
      (∀ t ∈ ts, ∃ row', row ≤ row' ∧ t.StandsIn row' 0) ∧ ts.Pairwise Precedes := by
  induction lines with
  | nil =>
    intro row ts h
    rw [scanLines] at h
    obtain rfl := Except.ok.inj h
    simp
  | cons l ls ih =>
    intro row ts h
    rw [scanLines] at h
    split at h
    · simp at h
    rename_i us hus
    split at h
    · simp at h
    rename_i vs hvs
    obtain rfl := Except.ok.inj h
    obtain ⟨hline, hpair⟩ := standsIn_scanRest (hl l List.mem_cons_self) hus
    obtain ⟨hbelow, hpair'⟩ := ih (fun l' h' => hl l' (List.mem_cons_of_mem _ h')) hvs
    constructor
    · rw [List.forall_mem_append]
      refine ⟨fun t ht => ⟨row, Nat.le_refl _, hline t ht⟩, fun t ht => ?_⟩
      obtain ⟨row', hle, hstands⟩ := hbelow t ht
      exact ⟨row', Nat.le_of_succ_le hle, hstands⟩
    · refine List.pairwise_append.2 ⟨hpair, hpair', fun t ht u hu => ?_⟩
      obtain ⟨row', hle, hstands⟩ := hbelow u hu
      exact precedes_of_row (hline t ht) hstands hle

theorem placed_of_scan {source : String} {ts : List Token} (h : scan source = .ok ts) :
    ∀ t ∈ ts, ∃ p, t.place? = some p := by
  intro t ht
  obtain ⟨row, -, c, -, hp⟩ := (standsIn_scanLines (fun _ => Text.not_mem_cutLines) h).1 t ht
  exact ⟨_, hp⟩

theorem pairwise_scan {source : String} {ts : List Token} (h : scan source = .ok ts) :
    ts.Pairwise Precedes := (standsIn_scanLines (fun _ => Text.not_mem_cutLines) h).2

/-- What is read further on stands further on. -/
theorem place_le_of_suffix {t u : Token} {ts us : List Token} (hts : (t :: ts).Pairwise Precedes)
    (h : u :: us <:+ t :: ts) {p q : Place} (hp : t.place? = some p) (hq : u.place? = some q) :
    p ≤ q := by
  rcases List.suffix_cons_iff.1 h with heq | hsuffix
  · obtain ⟨rfl, -⟩ := List.cons.inj heq
    obtain rfl := Option.some.inj (hp.symm.trans hq)
    exact Place.le_refl p
  · have hu : u ∈ ts := hsuffix.subset List.mem_cons_self
    obtain ⟨p', q', hp', hq', hlt⟩ := (List.pairwise_cons.1 hts).1 u hu
    obtain rfl := Option.some.inj (hp.symm.trans hp')
    obtain rfl := Option.some.inj (hq.symm.trans hq')
    exact Place.le_of_lt hlt

end Token

end Offside
