import Offside.Proofs.LineBreak

/-!
# Tokens and the blanks around them

The tokens of a text can be written again with other blanks before, between and behind them, and are
scanned as before (`Token.scan_spread`). Between two tokens some blank has to stand, and behind a
comment a line feed.

What a text is scanned as is found from its end. `Token.ScansAs` says it for every column of every
row, so that a blank, a token or a comment can be put before the text.
-/

namespace Offside

open Lexeme

/-! ## Blank characters -/

theorem Text.toNat_of_isBlank {c : Char} (h : isBlank c = true) :
    c.toNat < 33 ∨ 127 < c.toNat := by
  simp only [isBlank, blankRanges, List.any_cons, List.any_nil, Bool.or_false, Bool.or_eq_true,
    Bool.and_eq_true, decide_eq_true_eq] at h
  omega

theorem Lexeme.toNat_of_isAlphanum {c : Char} (h : c.isAlphanum = true) :
    48 ≤ c.toNat ∧ c.toNat ≤ 122 := by
  have halpha : c.isAlpha = (decide (c.val ≥ 'A'.val ∧ c.val ≤ 'Z'.val)
      || decide (c.val ≥ 'a'.val) && decide (c.val ≤ 'z'.val)) := rfl
  simp only [Char.isAlphanum, Char.isDigit, halpha, Bool.or_eq_true, Bool.and_eq_true,
    decide_eq_true_eq, UInt32.le_iff_toNat_le, ge_iff_le] at h
  change (65 ≤ c.toNat ∧ c.toNat ≤ 90 ∨ 97 ≤ c.toNat ∧ c.toNat ≤ 122)
    ∨ 48 ≤ c.toNat ∧ c.toNat ≤ 57 at h
  omega

theorem Lexeme.isApart_of_isBlank {c : Char} (h : Text.isBlank c = true) : isApart c = true := by
  have hblank := Text.toNat_of_isBlank h
  have halnum : c.isAlphanum = false := by
    refine Bool.eq_false_iff.2 fun halnum => ?_
    have := toNat_of_isAlphanum halnum
    omega
  have hdot : c ≠ '.' := by
    rintro rfl
    exact absurd h (by decide)
  simp [isApart, halnum, hdot]

theorem Mark.isBlank_spelling (m : Mark) : ∀ c ∈ m.spelling.toList, Text.isBlank c = false := by
  have hall : m.spelling.toList.all (fun c => !Text.isBlank c) = true := by cases m <;> rfl
  simpa using hall

/-- Nothing starts with a blank, whatever stands behind it. -/
theorem Front.of_blank {c : Char} (h : Text.isBlank c = true) (cs : List Char) :
    Front.of c cs = .blank := by
  have hapart := isApart_of_isBlank h
  have hslash : c ≠ '/' := by
    rintro rfl
    exact absurd h (by decide)
  have hquote : c ≠ '"' := by
    rintro rfl
    exact absurd h (by decide)
  have hmark : mark? (c :: cs) = none := by
    refine List.find?_eq_none.2 fun m _ hm => ?_
    obtain ⟨d, ds, hs, -⟩ := spelling_toList m
    rw [List.isPrefixOf_iff_prefix, hs, List.cons_prefix_cons] at hm
    have hd := m.isBlank_spelling d (by rw [hs]; exact List.mem_cons_self)
    rw [hm.1, h] at hd
    exact absurd hd (by decide)
  simp only [Front.of, hslash, false_and, if_false, string?_of_ne hquote,
    isAlpha_of_isApart hapart, isDigit_of_isApart hapart, hmark, h, if_true, Bool.false_eq_true]

theorem Mark.admits_blank (m : Mark) {c : Char} (h : Text.isBlank c = true) :
    m.admits c = true := by
  have hne : ∀ n : Mark, n.spelling.toList ≠ m.spelling.toList ++ [c] := by
    intro n hn
    have hc := n.isBlank_spelling c (by simp [hn])
    rw [h] at hc
    exact absurd hc (by decide)
  have hslash : c ≠ '/' := by
    rintro rfl
    exact absurd h (by decide)
  simp [admits, hne, hslash]

/-- Every token ends where a blank follows. -/
theorem Token.admits_blank (t : Token) {c : Char} (h : Text.isBlank c = true) :
    t.admits c = true := by
  obtain ⟨kind, lexeme, position⟩ := t
  cases kind with
  | mark m => exact m.admits_blank h
  | number | name | keyword => exact isApart_of_isBlank h
  | string | comment | eof => rfl

/-! ## Texts of tokens -/

theorem Lexeme.IsNumber.mem {cs : List Char} (h : IsNumber cs) {c : Char} (hc : c ∈ cs) :
    c.isDigit = true ∨ c = '.' ∨ c = 'e' ∨ c = '-' := by
  obtain ⟨whole, part, power, hw, hp, he, rfl⟩ := h
  rcases List.mem_append.1 hc with hc | hc
  · rcases List.mem_append.1 hc with hc | hc
    · exact Or.inl (hw.2 c hc)
    · rcases hp with rfl | ⟨ds, hds, rfl⟩
      · simp at hc
      · rcases List.mem_cons.1 hc with rfl | hc
        · exact Or.inr (Or.inl rfl)
        · exact Or.inl (hds.2 c hc)
  · rcases he with rfl | ⟨ds, hds, rfl | rfl⟩
    · simp at hc
    · rcases List.mem_cons.1 hc with rfl | hc
      · exact Or.inr (Or.inr (Or.inl rfl))
      · exact Or.inl (hds.2 c hc)
    · rcases List.mem_cons.1 hc with rfl | hc
      · exact Or.inr (Or.inr (Or.inl rfl))
      · rcases List.mem_cons.1 hc with rfl | hc
        · exact Or.inr (Or.inr (Or.inr rfl))
        · exact Or.inl (hds.2 c hc)

theorem Lexeme.IsWord.unbroken {cs : List Char} (h : IsWord cs) : '\n' ∉ cs :=
  fun hn => absurd (h.2 _ hn) (by decide)

namespace Token

theorem Lexical.ne_nil {t : Token} (h : t.Lexical) : t.lexeme.toList ≠ [] := by
  obtain ⟨kind, lexeme, position⟩ := t
  cases kind with
  | number =>
    obtain ⟨whole, part, power, hw, -, -, heq⟩ := h
    rw [heq]
    simp [hw.1]
  | string =>
    obtain ⟨content, -, heq⟩ := h
    rw [heq]
    simp
  | comment => exact IsRemark.ne_nil h
  | name => exact h.1.1
  | mark m =>
    obtain rfl : lexeme = m.spelling := h
    obtain ⟨c, cs, hs, -⟩ := Front.spelling_toList m
    rw [hs]
    simp
  | keyword k =>
    obtain rfl : lexeme = k.spelling := h
    exact (Front.isWord_spelling k).1
  | eof => exact absurd h (by simp [Lexical])

theorem Lexical.unbroken {t : Token} (h : t.Lexical) : '\n' ∉ t.lexeme.toList := by
  obtain ⟨kind, lexeme, position⟩ := t
  cases kind with
  | number =>
    intro hn
    rcases h.mem hn with hd | hd | hd | hd <;> exact absurd hd (by decide)
  | string =>
    obtain ⟨content, hcontent, heq⟩ := h
    change lexeme.toList = _ at heq
    change '\n' ∉ lexeme.toList
    simp [heq, hcontent.2]
  | comment => exact IsRemark.unbroken h
  | name => exact h.1.unbroken
  | mark m =>
    obtain rfl : lexeme = m.spelling := h
    exact fun hn => absurd (m.isBlank_spelling _ hn) (by decide)
  | keyword k =>
    obtain rfl : lexeme = k.spelling := h
    exact (Front.isWord_spelling k).unbroken
  | eof => exact absurd h (by simp [Lexical])

end Token

namespace Text

/-- The first line starts as the text does, if it does not start with a line break. -/
theorem head?_of_cutLines {cs l : List Char} {ls : List (List Char)} (h : cutLines cs = l :: ls)
    {c : Char} (hc : c ∈ l.head?) : c ∈ cs.head? := by
  cases cs with
  | nil =>
    obtain ⟨rfl, -⟩ := List.cons.inj h
    exact absurd hc (by simp)
  | cons d cs =>
    rw [cutLines] at h
    split at h
    · obtain ⟨rfl, -⟩ := List.cons.inj h
      exact absurd hc (by simp)
    · split at h
      · obtain ⟨rfl, -⟩ := List.cons.inj h
        exact hc
      · obtain ⟨rfl, -⟩ := List.cons.inj h
        exact hc

end Text

/-- Trimming takes off any blanks that are put at the end. -/
theorem Text.trim_append {gap : List Char} (h : ∀ c ∈ gap, isBlank c = true) (cs : List Char) :
    trim (cs ++ gap) = trim cs := by
  induction gap generalizing cs with
  | nil => rw [List.append_nil]
  | cons c gap ih =>
    rw [List.append_cons, ih fun d hd => h d (List.mem_cons_of_mem c hd),
      trim_concat (h c List.mem_cons_self)]

/-! ## What a text is scanned as -/

namespace Token

/-- A token at the front of a line. -/
theorem scanRest_token {t : Token} (ht : t.Lexical) (hk : t.kind ≠ .comment) {row column : Nat}
    {line : List Char} (hl : ∀ c ∈ line.head?, t.admits c = true) {ts : List Token}
    (h : scanRest row (column + t.lexeme.toList.length) 0 line = .ok ts) :
    scanRest row column 0 (t.lexeme.toList ++ line)
      = .ok (⟨t.kind, t.lexeme, some ⟨row, column⟩⟩ :: ts) := by
  obtain ⟨c, cs, hcs⟩ := List.exists_cons_of_ne_nil ht.ne_nil
  have hfront : Front.of c (cs ++ line) = .lexeme t.kind t.lexeme.toList :=
    Front.of_lexical ht hk (by rw [hcs, List.cons_append]) hl
  rw [hcs, List.length_cons] at h
  rw [hcs] at hfront
  rw [hcs, List.cons_append, scanRest_lexeme hfront, h, ← hcs, String.ofList_toList]
  rfl

/-- The token as it stands on a line. -/
def line (t : Token) : List Char :=
  if t.kind = .comment then '/' :: '/' :: t.lexeme.toList else t.lexeme.toList

theorem line_of_comment {t : Token} (h : t.kind = .comment) :
    t.line = '/' :: '/' :: t.lexeme.toList := if_pos h

theorem line_of_ne_comment {t : Token} (h : t.kind ≠ .comment) : t.line = t.lexeme.toList :=
  if_neg h

/-- A comment with nothing but blanks behind it in its line. -/
theorem scanRest_comment {t : Token} (ht : t.Lexical) (hk : t.kind = .comment) {gap : List Char}
    (hg : ∀ c ∈ gap, Text.isBlank c = true) (row column : Nat) :
    scanRest row column 0 (t.line ++ gap) = .ok [⟨t.kind, t.lexeme, some ⟨row, column⟩⟩] := by
  have hremark : IsRemark t.lexeme.toList := by simpa [Lexical, hk] using ht
  have hcomment : ofComment ⟨row, column⟩ (t.lexeme.toList ++ gap)
      = [⟨.comment, String.ofList t.lexeme.toList, some ⟨row, column⟩⟩] := by
    rw [ofComment, Text.trim_append hg, hremark.trim]
    split
    · rename_i hnil
      exact absurd hnil hremark.ne_nil
    · rfl
  rw [line_of_comment hk, List.cons_append, scanRest, Front.of_comment ⟨rfl, rfl⟩]
  simp only [List.cons_append, List.tail_cons, hcomment, String.ofList_toList, hk]

/-- From every column of every row on, the text is scanned as the tokens, but for their places. -/
def ScansAs (cs : List Char) (ts : List Token) : Prop :=
  ∀ (row column : Nat) {l : List Char} {ls : List (List Char)}, Text.cutLines cs = l :: ls →
    ∃ us vs, scanRest row column 0 l = .ok us ∧ scanLines (row + 1) ls = .ok vs ∧
      (us ++ vs).map unplaced = ts.map unplaced

theorem scansAs_nil : ScansAs [] [] := by
  intro row column l ls hcut
  obtain ⟨rfl, rfl⟩ := List.cons.inj hcut
  exact ⟨[], [], rfl, rfl, rfl⟩

namespace ScansAs

variable {cs : List Char} {ts : List Token}

theorem blank (h : ScansAs cs ts) {c : Char} (hc : Text.isBlank c = true) :
    ScansAs (c :: cs) ts := by
  intro row column l ls hcut
  obtain ⟨l', ls', hcut'⟩ := List.exists_cons_of_ne_nil (Text.cutLines_ne_nil cs)
  by_cases hn : c = '\n'
  · rw [hn, Text.cutLines_break, hcut'] at hcut
    obtain ⟨rfl, rfl⟩ := List.cons.inj hcut
    obtain ⟨us, vs, hus, hvs, hmap⟩ := h (row + 1) 0 hcut'
    refine ⟨[], us ++ vs, rfl, ?_, hmap⟩
    simp only [scanLines, scanLine, hus, hvs]
  · have hline : '\n' ∉ [c] := fun hm => hn (List.mem_singleton.1 hm).symm
    rw [← List.singleton_append, Text.cutLines_append hline hcut'] at hcut
    obtain ⟨rfl, rfl⟩ := List.cons.inj hcut
    obtain ⟨us, vs, hus, hvs, hmap⟩ := h row (column + 1) hcut'
    refine ⟨us, vs, ?_, hvs, hmap⟩
    rw [List.singleton_append, scanRest, Front.of_blank hc]
    exact hus

theorem blanks (h : ScansAs cs ts) {gap : List Char} (hg : ∀ c ∈ gap, Text.isBlank c = true) :
    ScansAs (gap ++ cs) ts := by
  induction gap with
  | nil => exact h
  | cons c gap ih =>
    exact (ih fun d hd => hg d (List.mem_cons_of_mem c hd)).blank (hg c List.mem_cons_self)

theorem token (h : ScansAs cs ts) {t : Token} (ht : t.Lexical) (hk : t.kind ≠ .comment)
    (ha : ∀ c ∈ cs.head?, t.admits c = true) : ScansAs (t.lexeme.toList ++ cs) (t :: ts) := by
  intro row column l ls hcut
  obtain ⟨l', ls', hcut'⟩ := List.exists_cons_of_ne_nil (Text.cutLines_ne_nil cs)
  rw [Text.cutLines_append ht.unbroken hcut'] at hcut
  obtain ⟨rfl, rfl⟩ := List.cons.inj hcut
  obtain ⟨us, vs, hus, hvs, hmap⟩ := h row (column + t.lexeme.toList.length) hcut'
  have hadmit : ∀ c ∈ l'.head?, t.admits c = true :=
    fun c hc => ha c (Text.head?_of_cutLines hcut' hc)
  refine ⟨_, vs, scanRest_token ht hk hadmit hus, hvs, ?_⟩
  rw [List.cons_append, List.map_cons, hmap]
  rfl

/-- The line of a comment ends before what follows. -/
theorem comment (h : ScansAs cs ts) {t : Token} (ht : t.Lexical) (hk : t.kind = .comment)
    {gap : List Char} (hg : ∀ c ∈ gap, Text.isBlank c = true) (hn : '\n' ∉ gap)
    (hcs : ∀ c ∈ cs.head?, c = '\n') : ScansAs (t.line ++ gap ++ cs) (t :: ts) := by
  intro row column l ls hcut
  obtain ⟨ls', hcut'⟩ : ∃ ls', Text.cutLines cs = [] :: ls' := by
    cases cs with
    | nil => exact ⟨[], rfl⟩
    | cons c cs =>
      obtain rfl := hcs c rfl
      exact ⟨_, Text.cutLines_break cs⟩
  have hline : '\n' ∉ t.line ++ gap := by
    simpa [line_of_comment hk, hn] using ht.unbroken
  rw [Text.cutLines_append hline hcut', List.append_nil] at hcut
  obtain ⟨rfl, rfl⟩ := List.cons.inj hcut
  obtain ⟨us, vs, hus, hvs, hmap⟩ := h row column hcut'
  obtain rfl : [] = us := Except.ok.inj hus
  refine ⟨_, vs, scanRest_comment ht hk hg row column, hvs, ?_⟩
  rw [List.cons_append, List.map_cons, hmap]
  rfl

theorem scan (h : ScansAs cs ts) :
    ∃ us, Token.scan (String.ofList cs) = .ok us ∧ us.map unplaced = ts.map unplaced := by
  obtain ⟨l, ls, hcut⟩ := List.exists_cons_of_ne_nil (Text.cutLines_ne_nil cs)
  obtain ⟨us, vs, hus, hvs, hmap⟩ := h 0 0 hcut
  refine ⟨us ++ vs, ?_, hmap⟩
  rw [scan_eq_scanLines, String.toList_ofList, hcut]
  simp only [scanLines, scanLine, hus, hvs]

end ScansAs

/-! ## Tokens with blanks between them -/

/-- The tokens as they are written, each with the blanks behind it. -/
def spread (items : List (Token × List Char)) : List Char :=
  items.flatMap fun i => i.1.line ++ i.2

/-- What stands behind the tokens keeps them apart: blanks, at least one of them between two tokens
and a line feed among those between a comment and a token. -/
structure Spaced (items : List (Token × List Char)) : Prop where
  blank : ∀ i ∈ items, ∀ c ∈ i.2, Text.isBlank c = true
  ne_nil : ∀ i ∈ items.dropLast, i.2 ≠ []
  lineFeed : ∀ i ∈ items.dropLast, i.1.kind = .comment → '\n' ∈ i.2

theorem spread_cons (t : Token) (gap : List Char) (items : List (Token × List Char)) :
    spread ((t, gap) :: items) = t.line ++ gap ++ spread items := by
  simp [spread]

theorem Spaced.tail {i : Token × List Char} {items : List (Token × List Char)}
    (h : Spaced (i :: items)) : Spaced items := by
  have hlast : ∀ j ∈ items.dropLast, j ∈ (i :: items).dropLast := by
    intro j hj
    have hne : items ≠ [] := List.ne_nil_of_mem (List.dropLast_subset _ hj)
    rw [List.dropLast_cons_of_ne_nil hne]
    exact List.mem_cons_of_mem i hj
  exact ⟨fun j hj => h.blank j (List.mem_cons_of_mem i hj), fun j hj => h.ne_nil j (hlast j hj),
    fun j hj => h.lineFeed j (hlast j hj)⟩

theorem scansAs_spread {items : List (Token × List Char)} (hs : Spaced items)
    (hl : ∀ i ∈ items, i.1.Lexical) : ScansAs (spread items) (items.map Prod.fst) := by
  induction items with
  | nil => exact scansAs_nil
  | cons i items ih =>
    obtain ⟨t, gap⟩ := i
    have ht : t.Lexical := hl (t, gap) List.mem_cons_self
    have hg : ∀ c ∈ gap, Text.isBlank c = true := hs.blank (t, gap) List.mem_cons_self
    have hrest := ih hs.tail fun j hj => hl j (List.mem_cons_of_mem _ hj)
    -- What is asked of the blanks is asked unless nothing follows them.
    have hlast : items ≠ [] → (t, gap) ∈ ((t, gap) :: items).dropLast := by
      intro hne
      rw [List.dropLast_cons_of_ne_nil hne]
      exact List.mem_cons_self
    rw [spread_cons, List.map_cons]
    by_cases hk : t.kind = .comment
    · by_cases hn : '\n' ∈ gap
      · obtain ⟨front, back, rfl, hfront⟩ := List.eq_append_cons_of_mem hn
        have hback : ScansAs ('\n' :: back ++ spread items) (items.map Prod.fst) :=
          hrest.blanks fun c hc => hg c (List.mem_append_right front hc)
        have hcomment := hback.comment ht hk (fun c hc => hg c (List.mem_append_left _ hc)) hfront
          (by simp)
        simpa using hcomment
      · have hnil : items = [] := by
          by_contra hne
          exact hn (hs.lineFeed _ (hlast hne) hk)
        subst hnil
        exact scansAs_nil.comment ht hk hg hn (by simp)
    · rw [line_of_ne_comment hk, List.append_assoc]
      refine (hrest.blanks hg).token ht hk fun c hc => ?_
      cases gap with
      | nil =>
        have hnil : items = [] := by
          by_contra hne
          exact hs.ne_nil _ (hlast hne) rfl
        subst hnil
        exact absurd hc (by simp [spread])
      | cons d gap =>
        obtain rfl : d = c := by simpa using hc
        exact t.admits_blank (hg d List.mem_cons_self)

/-- The tokens of a text, written again with any blanks before the first, between them and behind
the last, are scanned as tokens of the same kinds with the same texts. -/
theorem scan_spread {source : String} {items : List (Token × List Char)}
    (h : scan source = .ok (items.map Prod.fst)) (hs : Spaced items) {lead : List Char}
    (hlead : ∀ c ∈ lead, Text.isBlank c = true) :
    ∃ us, scan (String.ofList (lead ++ spread items)) = .ok us ∧
      us.map unplaced = (items.map Prod.fst).map unplaced := by
  have hl : ∀ i ∈ items, i.1.Lexical :=
    fun i hi => lexical_of_scan h i.1 (List.mem_map_of_mem hi)
  exact ((scansAs_spread hs hl).blanks hlead).scan

/-- A number that does not go on with the point and the `e` behind it, a comment that starts with a
slash, and slashes in a string. -/
theorem scan_spread_slashes :
    scan "1.e//\r/ \n\"//\r\"" = .ok [⟨.number, "1", some ⟨0, 0⟩⟩, ⟨.mark .dot, ".", some ⟨0, 1⟩⟩,
        ⟨.name, "e", some ⟨0, 2⟩⟩, ⟨.comment, "/", some ⟨0, 3⟩⟩,
        ⟨.string, "\"//\r\"", some ⟨1, 0⟩⟩] ∧
      ∃ us, scan "\n1\t.\u2003e\r/// \n\"//\r\"" = .ok us ∧
        us.map unplaced = [bare .number "1", bare (.mark .dot) ".", bare .name "e",
          bare .comment "/", bare .string "\"//\r\""] := by
  let items : List (Token × List Char) :=
    [(⟨.number, "1", some ⟨0, 0⟩⟩, ['\t']), (⟨.mark .dot, ".", some ⟨0, 1⟩⟩, ['\u2003']),
      (⟨.name, "e", some ⟨0, 2⟩⟩, ['\r']), (⟨.comment, "/", some ⟨0, 3⟩⟩, [' ', '\n']),
      (⟨.string, "\"//\r\"", some ⟨1, 0⟩⟩, [])]
  have hgaps : (items.all fun i => i.2.all Text.isBlank) = true := rfl
  have hspaced : Spaced items :=
    ⟨fun i hi => List.all_eq_true.1 (List.all_eq_true.1 hgaps i hi), by decide, by decide⟩
  exact ⟨rfl, @scan_spread "1.e//\r/ \n\"//\r\"" items rfl hspaced ['\n']
    (List.forall_mem_singleton.2 rfl)⟩

end Token

end Offside
