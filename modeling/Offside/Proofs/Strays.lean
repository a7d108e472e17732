import Offside.Proofs.LineBreak
import Offside.Proofs.Lossless

/-!
# The first stray character

A text cannot be scanned exactly if there is a character in it with which nothing starts, and it is
the first of its kind that is reported (`Token.scan_eq_error_iff`). First means that all that stands
before it can be scanned by itself, and that no comment starts before it in its line.

The text before the stray character has the same tokens by itself as in its place: no lexeme goes on
with a character that starts nothing, and one that runs over it, a string or a mark, is not found
without it (`Front.of_cut`). `Token.Plain` is a line that is scanned to its end without a comment,
which is what the scanner has gone over when it meets the stray character.
-/

namespace Offside

open Lexeme

/-- Nothing starts with the character, when the rest of its line stands behind it. -/
structure Text.StartsNothing (c : Char) (cs : List Char) : Prop where
  blank : isBlank c = false
  alphanum : c.isAlphanum = false
  comment : ¬ ['/', '/'] <+: c :: cs
  mark : ∀ m : Mark, ¬ m.spelling.toList <+: c :: cs
  quote : c = '"' → '"' ∉ cs

namespace Front

open Text

theorem of_eq_stray_iff {c : Char} {cs : List Char} :
    Front.of c cs = .stray ↔ StartsNothing c cs := by
  constructor
  · intro h
    unfold Front.of at h
    split at h
    · simp at h
    rename_i hslash
    split at h
    · simp at h
    rename_i hstring
    split at h
    · simp at h
    rename_i halpha
    split at h
    · simp at h
    rename_i hdigit
    split at h
    · simp at h
    rename_i hmark
    split at h
    · simp at h
    rename_i hblank
    have halphanum : c.isAlphanum = false := by simp [Char.isAlphanum, halpha, hdigit]
    refine ⟨by simpa using hblank, halphanum, ?_, fun m hm => ?_, ?_⟩
    · rintro ⟨rest, hrest⟩
      obtain ⟨rfl, rfl⟩ := List.cons.inj hrest
      exact hslash ⟨rfl, rfl⟩
    · exact List.find?_eq_none.1 hmark m m.mem_all (List.isPrefixOf_iff_prefix.2 hm)
    · rintro rfl
      simpa [string?] using hstring
  · intro h
    have hslash : ¬ (c = '/' ∧ cs.head? = some '/') := by
      rintro ⟨rfl, hhead⟩
      obtain ⟨rest, rfl⟩ := List.head?_eq_some_iff.1 hhead
      exact h.comment ⟨rest, rfl⟩
    have hstring : string? (c :: cs) = none := by
      by_cases hc : c = '"'
      · subst hc
        simpa [string?] using h.quote rfl
      · exact string?_of_ne hc cs
    have hmark : mark? (c :: cs) = none :=
      List.find?_eq_none.2 fun m _ hm => h.mark m (List.isPrefixOf_iff_prefix.1 hm)
    have halnum := h.alphanum
    rw [Char.isAlphanum, Bool.or_eq_false_iff] at halnum
    simp only [Front.of, if_neg hslash, hstring, halnum.1, halnum.2, hmark, h.blank,
      Bool.false_eq_true, if_false]

end Front

/-- The second character of a mark is a mark by itself, unless the mark is a doubled `&` or `|`. -/
theorem Mark.spelling_of_append {m : Mark} {c d : Char} {cs ds : List Char}
    (h : m.spelling.toList = c :: (cs ++ d :: ds)) :
    cs = [] ∧ ((∃ n : Mark, n.spelling.toList = [d]) ∨ c = '&' ∨ c = '|') := by
  have hlength : m.spelling.toList.length ≤ 2 := by cases m <;> decide
  have hsecond : m.spelling.toList.length = 2 →
      (∃ n ∈ Mark.all, n.spelling.toList = m.spelling.toList.drop 1) ∨
        m.spelling.toList.head? = some '&' ∨ m.spelling.toList.head? = some '|' := by
    cases m <;> decide
  rw [h, List.length_cons, List.length_append, List.length_cons] at hlength
  obtain rfl : cs = [] := List.length_eq_zero_iff.1 (by omega)
  obtain rfl : ds = [] := List.length_eq_zero_iff.1 (by omega)
  refine ⟨rfl, ?_⟩
  rcases hsecond (by rw [h]; rfl) with ⟨n, -, hn⟩ | hhead | hhead
  · exact .inl ⟨n, by rw [hn, h]; rfl⟩
  · rw [h] at hhead
    exact .inr (.inl (Option.some.inj hhead))
  · rw [h] at hhead
    exact .inr (.inr (Option.some.inj hhead))

/-! ## A text that is cut before a stray character -/

namespace Text.StartsNothing

variable {c d : Char} {cs rest : List Char}

theorem spelling_ne (h : StartsNothing d rest) (m : Mark) : m.spelling.toList ≠ [d] :=
  fun hm => h.mark m (by rw [hm]; exact ⟨rest, rfl⟩)

theorem isLoose (h : StartsNothing d rest) : Lexeme.isLoose d = true := by
  have hdot : d ≠ '.' := by
    rintro rfl
    exact h.spelling_ne .dot rfl
  have hminus : d ≠ '-' := by
    rintro rfl
    exact h.spelling_ne .minus rfl
  simp [Lexeme.isLoose, isApart, h.alphanum, hdot, hminus]

/-- A quote that is not closed. -/
theorem of_quote (h : '"' ∉ cs) : StartsNothing '"' cs where
  blank := by decide
  alphanum := by decide
  comment := by simp
  mark m hm := by
    obtain ⟨e, es, hs, hquote, -⟩ := Front.spelling_toList m
    rw [hs, List.cons_prefix_cons] at hm
    exact hquote hm.1
  quote _ := h

end Text.StartsNothing

namespace Front

open Text

variable {c d : Char} {cs rest : List Char}

/-- What is found before a stray character is found whether or not the character is there. -/
theorem of_append_stray (h : StartsNothing d rest) (hstray : Front.of c cs ≠ .stray)
    (hcomment : ∀ body, Front.of c cs ≠ .comment body) :
    Front.of c (cs ++ d :: rest) = Front.of c cs := by
  refine Front.of_append ?_ ?_ ?_ fun m hm => ?_
  · rintro ⟨rfl, hhead⟩
    cases cs with
    | nil =>
      obtain rfl : d = '/' := Option.some.inj hhead
      exact h.spelling_ne .slash rfl
    | cons e es => exact hcomment _ (Front.of_comment ⟨rfl, hhead⟩)
  · intro e he
    obtain rfl : d = e := Option.some.inj he
    exact h.isLoose
  · rintro rfl -
    by_contra hq
    exact hstray (of_eq_stray_iff.2 (.of_quote hq))
  · rcases List.prefix_or_prefix_of_prefix hm (List.prefix_append (c :: cs) (d :: rest)) with
      hshort | ⟨ds, hds⟩
    · exact hshort
    rw [← hds, List.prefix_append_right_inj] at hm
    cases ds with
    | nil => exact ⟨[], by simpa using hds.symm⟩
    | cons e es =>
      -- The mark runs over the stray character, so it is its second character.
      obtain ⟨rfl, -⟩ := List.cons_prefix_cons.1 hm
      obtain ⟨rfl, hmark | hand | hor⟩ := Mark.spelling_of_append hds.symm
      · obtain ⟨n, hn⟩ := hmark
        exact absurd hn (h.spelling_ne n)
      · exact absurd (hand ▸ rfl) hstray
      · exact absurd (hor ▸ rfl) hstray

/-- What starts with a stray character, when more is put at the end of the line, runs into it. -/
theorem length_lt_of_stray (h : StartsNothing c cs) {kind : Kind} {text : List Char}
    (hf : Front.of c (cs ++ rest) = .lexeme kind text) : cs.length + 1 < text.length := by
  by_contra hlength
  have hfront := Front.starts_of c (cs ++ rest)
  rw [hf] at hfront
  have hp : text <+: c :: cs := by
    refine List.prefix_of_prefix_length_le hfront.2.2 (List.prefix_append (c :: cs) rest) ?_
    rw [List.length_cons]
    omega
  have halnum := h.alphanum
  rw [Char.isAlphanum, Bool.or_eq_false_iff] at halnum
  unfold Front.of at hf
  split at hf
  · simp at hf
  split at hf
  · rename_i hstring
    obtain ⟨-, rfl⟩ := Front.lexeme.inj hf
    unfold string? at hstring
    split at hstring
    · rename_i ds heq
      obtain ⟨rfl, -⟩ := List.cons.inj heq
      split at hstring
      · obtain rfl := Option.some.inj hstring
        rw [List.cons_append, List.cons_prefix_cons] at hp
        exact h.quote rfl (hp.2.subset (by simp))
      · simp at hstring
    · simp at hstring
  split at hf
  · rename_i halpha
    exact absurd halpha (by simp [halnum.1])
  split at hf
  · rename_i hdigit
    exact absurd hdigit (by simp [halnum.2])
  split at hf
  · obtain ⟨-, rfl⟩ := Front.lexeme.inj hf
    exact h.mark _ hp
  · split at hf <;> simp at hf

/-- The scanner stays within `n` characters: it passes over a blank or over a lexeme. -/
def Passes (n : Nat) : Front → Prop
  | .blank => True
  | .lexeme _ text => text.length ≤ n
  | .comment _ | .stray => False

/-- What the scanner passes over before it meets a stray character is there without it. -/
theorem of_cut (h : StartsNothing d rest)
    (hpasses : (Front.of c (cs ++ d :: rest)).Passes (cs.length + 1)) :
    Front.of c cs = Front.of c (cs ++ d :: rest) := by
  rcases hf : Front.of c cs with _ | body | ⟨kind, text⟩ | _
  · rw [of_append_stray h (by simp [hf]) (by simp [hf]), hf]
  · have hfront := Front.starts_of c cs
    rw [hf] at hfront
    obtain ⟨rfl, rfl⟩ := List.cons.inj hfront
    rw [Front.of_comment ⟨rfl, rfl⟩] at hpasses
    exact hpasses.elim
  · rw [of_append_stray h (by simp [hf]) (by simp [hf]), hf]
  · have hstray := of_eq_stray_iff.1 hf
    rcases hlong : Front.of c (cs ++ d :: rest) with _ | body | ⟨kind, text⟩ | _
    · have hblank := Front.starts_of c (cs ++ d :: rest)
      rw [hlong] at hblank
      exact absurd hblank (by simp [Starts, hstray.blank])
    · rw [hlong] at hpasses
      exact hpasses.elim
    · rw [hlong] at hpasses
      exact absurd hpasses (Nat.not_le.2 (length_lt_of_stray hstray hlong))
    · rfl

/-- A lexeme is at the front of what it was found in. -/
theorem exists_of_lexeme {kind : Kind} {text : List Char} (hf : Front.of c cs = .lexeme kind text) :
    kind ≠ .comment ∧ ∃ text' rest, text = c :: text' ∧ cs = text' ++ rest := by
  have hfront := Front.starts_of c cs
  rw [hf] at hfront
  obtain ⟨hk, hn, rest, hrest⟩ := hfront
  obtain ⟨e, text', rfl⟩ := List.exists_cons_of_ne_nil hn
  obtain ⟨rfl, rfl⟩ := List.cons.inj hrest
  exact ⟨hk, text', rest, rfl, rfl⟩

end Front

/-! ## Lines without a comment -/

namespace Token

open Text

/-- The line is scanned as the tokens from the column on, and has no comment. -/
inductive Plain (row : Nat) : Nat → List Char → List Token → Prop where
  | nil {column : Nat} : Plain row column [] []
  | blank {column : Nat} {c : Char} {cs : List Char} {ts : List Token}
      (hf : Front.of c cs = .blank) (h : Plain row (column + 1) cs ts) :
      Plain row column (c :: cs) ts
  | lexeme {column : Nat} {c : Char} {text rest : List Char} {kind : Kind} {ts : List Token}
      (hf : Front.of c (text ++ rest) = .lexeme kind (c :: text))
      (h : Plain row (column + (text.length + 1)) rest ts) :
      Plain row column (c :: (text ++ rest))
        (⟨kind, String.ofList (c :: text), some ⟨row, column⟩⟩ :: ts)

variable {row column : Nat} {cs : List Char} {ts : List Token}

theorem Plain.scanRest_eq (h : Plain row column cs ts) : scanRest row column 0 cs = .ok ts := by
  induction h with
  | nil => rfl
  | blank hf _ ih => rw [scanRest, hf]; exact ih
  | lexeme hf _ ih => rw [scanRest_lexeme hf, ih]; rfl

/-- The scanner comes to the stray character at the end of such a line. -/
theorem Plain.scanRest_stray (h : Plain row column cs ts) {c : Char} {rest : List Char}
    (hs : StartsNothing c rest) :
    scanRest row column 0 (cs ++ c :: rest) =
      .error ⟨c, Position.place ⟨row, column + cs.length⟩⟩ := by
  induction h with
  | nil => rw [List.nil_append, scanRest, Front.of_eq_stray_iff.2 hs]; rfl
  | blank hf _ ih =>
    rw [List.cons_append, scanRest, Front.of_append_stray hs (by simp [hf]) (by simp [hf]), hf]
    simp only [ih, List.length_cons, Nat.add_assoc, Nat.add_comm 1]
  | @lexeme column d text rest' kind ts hf _ ih =>
    have hfront : Front.of d (text ++ rest' ++ c :: rest) = Front.of d (text ++ rest') :=
      Front.of_append_stray hs (by simp [hf]) (by simp [hf])
    rw [hf, List.append_assoc] at hfront
    rw [List.cons_append, List.append_assoc, scanRest_lexeme hfront, ih]
    simp only [scanThen, List.length_cons, List.length_append, Nat.add_assoc, Nat.add_comm 1]

/-- A stray character is met at the end of such a line. -/
theorem exists_plain_of_scanRest {s : Stray} :
    ∀ {column skip : Nat}, scanRest row column skip cs = .error s →
      ∃ before after ts, cs.drop skip = before ++ s.char :: after ∧ StartsNothing s.char after ∧
        s.place = Position.place ⟨row, column + skip + before.length⟩ ∧
        Plain row (column + skip) before ts := by
  induction cs with
  | nil =>
    intro column skip h
    rw [scanRest] at h
    simp at h
  | cons c cs ih =>
    intro column skip h
    cases skip with
    | succ skip =>
      rw [scanRest] at h
      obtain ⟨before, after, ts, hcs, hs, hplace, hplain⟩ := ih h
      have hcolumn : column + 1 + skip = column + (skip + 1) := by omega
      rw [hcolumn] at hplace hplain
      exact ⟨before, after, ts, hcs, hs, hplace, hplain⟩
    | zero =>
      rw [scanRest] at h
      split at h
      · rename_i hf
        obtain ⟨before, after, ts, hcs, hs, hplace, hplain⟩ := ih h
        rw [List.drop_zero] at hcs
        subst hcs
        have hcut : Front.of c before = .blank := by
          rw [Front.of_cut hs (by rw [hf]; trivial), hf]
        refine ⟨c :: before, after, ts, rfl, hs, ?_, .blank hcut hplain⟩
        have hcolumn : column + 0 + (c :: before).length = column + 1 + 0 + before.length := by
          rw [List.length_cons]
          omega
        rw [hplace, hcolumn]
      · simp at h
      · rename_i kind text hf
        obtain ⟨-, text', rest, rfl, rfl⟩ := Front.exists_of_lexeme hf
        split at h
        · simp at h
        rename_i e hrest
        obtain rfl := Except.error.inj h
        obtain ⟨before, after, ts, hcs, hs, hplace, hplain⟩ := ih hrest
        rw [List.length_cons, Nat.add_sub_cancel, List.drop_left] at hcs
        subst hcs
        have hstart : column + 1 + ((c :: text').length - 1) = column + (text'.length + 1) := by
          rw [List.length_cons]
          omega
        rw [hstart] at hplace hplain
        rw [← List.append_assoc] at hf
        have hcut : Front.of c (text' ++ before) = .lexeme kind (c :: text') := by
          rw [Front.of_cut hs (by rw [hf]; simp [Front.Passes]), hf]
        refine ⟨c :: (text' ++ before), after, _, by simp, hs, ?_, .lexeme hcut hplain⟩
        have hcolumn : column + 0 + (c :: (text' ++ before)).length
            = column + (text'.length + 1) + before.length := by
          rw [List.length_cons, List.length_append]
          omega
        rw [hplace, hcolumn]
      · rename_i hf
        obtain rfl := Except.error.inj h
        exact ⟨[], cs, [], rfl, Front.of_eq_stray_iff.1 hf, rfl, .nil⟩

/-- A comment starts at the position, if no other does before it: two slashes stand there, and no
token but a comment has them in it. -/
def CommentAt (lines : List (List Char)) (ts : List Token) (p : Position) : Prop :=
  (∃ chars, lines[p.row]? = some chars ∧ ['/', '/'] <+: chars.drop p.column) ∧
    ∀ t ∈ ts, t.kind ≠ .comment → ¬ t.Covers lines p

section Comments

variable {lines : List (List Char)} {chars : List Char}

/-- In a line without a comment every character is blank or in a token that is none. -/
theorem Plain.covered (h : Plain row column cs ts) (hl : lines[row]? = some chars) :
    chars.drop column = cs → ∀ i d, column ≤ i → chars[i]? = some d →
      isBlank d = true ∨ ∃ t ∈ ts, t.kind ≠ .comment ∧ t.Covers lines ⟨row, i⟩ := by
  induction h with
  | @nil column =>
    intro hd i d hi hc
    have hlength := List.drop_eq_nil_iff.1 hd
    have hlt := (List.getElem?_eq_some_iff.1 hc).1
    omega
  | @blank column c cs ts hf _ ih =>
    intro hd i d hi hc
    obtain ⟨hfirst, htail⟩ := next_of_drop hd
    by_cases heq : i = column
    · subst heq
      obtain rfl := Option.some.inj (hfirst.symm.trans hc)
      have hblank := Front.starts_of c cs
      rw [hf] at hblank
      exact .inl hblank
    · exact ih htail i d (by omega) hc
  | @lexeme column c text rest kind ts hf _ ih =>
    intro hd i d hi hc
    by_cases hin : i < column + (text.length + 1)
    · have hk := (Front.exists_of_lexeme hf).1
      refine .inr ⟨_, List.mem_cons_self, hk, column, chars, rfl, hl, hi, ?_⟩
      rwa [stop, if_neg hk, String.toList_ofList, List.length_cons]
    · have hdrop : chars.drop (column + (text.length + 1)) = rest := by
        rw [← List.drop_drop, hd, List.drop_succ_cons, List.drop_left]
      rcases ih hdrop i d (by omega) hc with hblank | ⟨t, ht, hcovers⟩
      · exact .inl hblank
      · exact .inr ⟨t, List.mem_cons_of_mem _ ht, hcovers⟩

theorem Plain.not_commentAt (h : Plain row 0 chars ts) (hl : lines[row]? = some chars) (i : Nat) :
    ¬ CommentAt lines ts ⟨row, i⟩ := by
  rintro ⟨⟨chars', hl', rest, hrest⟩, hfree⟩
  obtain rfl := Option.some.inj (hl.symm.trans hl')
  obtain ⟨hslash, -⟩ := next_of_drop hrest.symm
  rcases h.covered hl rfl i '/' (Nat.zero_le i) hslash with hblank | ⟨t, ht, hk, hcovers⟩
  · exact absurd hblank (by decide)
  · exact hfree t ht hk hcovers

/-- A line that can be scanned and in which no comment starts has none. -/
theorem plain_of_scanRest (hl : lines[row]? = some chars) :
    ∀ {column skip : Nat} {ts : List Token}, chars.drop column = cs →
      scanRest row column skip cs = .ok ts →
      (∀ i, column + skip ≤ i → ¬ CommentAt lines ts ⟨row, i⟩) →
        Plain row (column + skip) (cs.drop skip) ts := by
  induction cs with
  | nil =>
    intro column skip ts _ h _
    rw [scanRest] at h
    obtain rfl := Except.ok.inj h
    rw [List.drop_nil]
    exact .nil
  | cons c cs ih =>
    intro column skip ts hd h hfree
    obtain ⟨-, htail⟩ := next_of_drop hd
    cases skip with
    | succ skip =>
      rw [scanRest] at h
      have hcolumn : column + (skip + 1) = column + 1 + skip := by omega
      rw [hcolumn] at hfree ⊢
      exact ih htail h hfree
    | zero =>
      rw [scanRest] at h
      split at h
      · rename_i hf
        exact .blank hf (ih htail h fun i hi => hfree i (by omega))
      · rename_i body hf
        have hslashes := Front.starts_of c cs
        rw [hf] at hslashes
        refine absurd ⟨⟨chars, hl, body, hslashes.symm.trans hd.symm⟩, fun t ht hk => ?_⟩
          (hfree column (Nat.le_refl _))
        obtain rfl := Except.ok.inj h
        unfold ofComment at ht
        split at ht
        · simp at ht
        · obtain rfl := List.mem_singleton.1 ht
          exact absurd rfl hk
      · rename_i kind text hf
        obtain ⟨hk, text', rest, rfl, rfl⟩ := Front.exists_of_lexeme hf
        split at h
        swap
        · simp at h
        rename_i us hus
        obtain rfl := Except.ok.inj h
        have hstart : column + 1 + ((c :: text').length - 1) = column + (text'.length + 1) := by
          rw [List.length_cons]
          omega
        have hrest := ih htail hus fun i hi => ?_
        · rw [hstart, List.length_cons, Nat.add_sub_cancel, List.drop_left] at hrest
          exact .lexeme hf hrest
        · rw [hstart] at hi
          rintro ⟨hslashes, hothers⟩
          refine hfree i (by omega) ⟨hslashes, List.forall_mem_cons.2 ⟨fun _ => ?_, hothers⟩⟩
          rintro ⟨start, chars', hp, -, -, hstop⟩
          obtain ⟨-, rfl⟩ := Position.mk.inj (Option.some.inj hp)
          rw [stop, if_neg hk, String.toList_ofList, List.length_cons] at hstop
          exact Nat.not_lt.2 hi hstop
      · simp at h

end Comments

end Token

/-! ## The lines of a text -/

theorem Text.cutLines_intercalate : ∀ {ls : List (List Char)}, ls ≠ [] → (∀ l ∈ ls, '\n' ∉ l) →
    cutLines (['\n'].intercalate ls) = ls
  | [l], _, h => by
    rw [List.intercalate_singleton, cutLines_of_unbroken (h l List.mem_cons_self)]
  | l :: l' :: ls, _, h => by
    have htail := cutLines_intercalate (List.cons_ne_nil l' ls)
      fun m hm => h m (List.mem_cons_of_mem l hm)
    rw [List.intercalate_cons_cons, List.append_assoc, List.singleton_append,
      cutLines_append_break, htail, cutLines_of_unbroken (h l List.mem_cons_self),
      List.singleton_append]

namespace Token

open Text

theorem scanLines_singleton (row : Nat) (l : List Char) : scanLines row [l] = scanLine row l := by
  rw [scanLines, scanLines]
  cases scanLine row l with
  | error e => rfl
  | ok ts => simp

/-- The stray character of some lines is that of the first of them that has one. -/
theorem exists_line_of_scanLines {s : Stray} {ls : List (List Char)} :
    ∀ {row : Nat}, scanLines row ls = .error s → ∃ above line below ts,
      ls = above ++ line :: below ∧ scanLines row above = .ok ts ∧
        scanLine (row + above.length) line = .error s := by
  induction ls with
  | nil =>
    intro row h
    rw [scanLines] at h
    simp at h
  | cons l ls ih =>
    intro row h
    rw [scanLines] at h
    split at h
    · rename_i e hline
      obtain rfl := Except.error.inj h
      exact ⟨[], l, ls, [], rfl, rfl, hline⟩
    · rename_i ts hline
      split at h
      · rename_i e hlines
        obtain rfl := Except.error.inj h
        obtain ⟨above, line, below, us, rfl, habove, hstray⟩ := ih hlines
        refine ⟨l :: above, line, below, ts ++ us, rfl, ?_, ?_⟩
        · rw [scanLines, hline, habove]
        · rwa [List.length_cons, Nat.add_comm above.length, ← Nat.add_assoc]
      · simp at h

/-- The tokens of lines stand in these lines, not in the one below. -/
theorem not_covers_of_scanLines {above lines : List (List Char)} {ts : List Token}
    (h : scanLines 0 above = .ok ts) : ∀ t ∈ ts, ∀ i, ¬ t.Covers lines ⟨above.length, i⟩ := by
  rintro t ht i ⟨start, -, hp, -⟩
  obtain ⟨q, chars, -, hq, hline, -⟩ := (arranged_of_scanLines List.drop_zero h).written t ht
  obtain rfl := Option.some.inj (hp.symm.trans hq)
  exact Nat.lt_irrefl _ (List.getElem?_eq_some_iff.1 hline).1

/-- The scan of some lines and the start of the next one. -/
theorem scanLines_concat (above : List (List Char)) (before : List Char) :
    scanLines 0 (above ++ [before]) =
      scanThen (scanLines 0 above) (scanRest above.length 0 0 before) := by
  rw [scanLines_append, scanLines_singleton, Nat.zero_add]
  rfl

end Token

/-- The stray character is the first one of the text. It stands in the line and in the column of its
place, all that is before it can be scanned by itself, no comment starts before it in its line, and
nothing starts with it. -/
def Stray.IsFirst (source : String) (s : Stray) : Prop :=
  ∃ above before after below ts,
    Text.lines source.toList = above ++ (before ++ s.char :: after) :: below ∧
      s.place = Position.place ⟨above.length, before.length⟩ ∧
      Token.scan (String.ofList (['\n'].intercalate (above ++ [before]))) = .ok ts ∧
      (∀ column, ¬ Token.CommentAt (above ++ [before]) ts ⟨above.length, column⟩) ∧
      Text.StartsNothing s.char after

namespace Token

open Text

/-- The lines before a stray character, and its line up to it, are those of the text made of
them. -/
theorem scan_intercalate {source : String} {above below : List (List Char)}
    {before rest : List Char}
    (h : lines source.toList = above ++ (before ++ rest) :: below) :
    scan (String.ofList (['\n'].intercalate (above ++ [before]))) =
      scanThen (scanLines 0 above) (scanRest above.length 0 0 before) := by
  have hunbroken : ∀ l ∈ above ++ (before ++ rest) :: below, '\n' ∉ l :=
    fun l hl => not_mem_cutLines (h ▸ hl)
  have hlines : ∀ l ∈ above ++ [before], '\n' ∉ l := by
    intro l hl
    rcases List.mem_append.1 hl with hl | hl
    · exact hunbroken l (List.mem_append_left _ hl)
    · obtain rfl := List.mem_singleton.1 hl
      exact fun hn => hunbroken _ (List.mem_append_right _ List.mem_cons_self)
        (List.mem_append_left _ hn)
  rw [scan_eq_scanLines, String.toList_ofList, cutLines_intercalate (by simp) hlines,
    scanLines_concat]

theorem isFirst_of_scan {source : String} {s : Stray} (h : scan source = .error s) :
    s.IsFirst source := by
  obtain ⟨above, line, below, ts, hlines, habove, hline⟩ := exists_line_of_scanLines h
  rw [Nat.zero_add] at hline
  obtain ⟨before, after, us, rfl, hs, hplace, hplain⟩ := exists_plain_of_scanRest hline
  rw [Nat.zero_add] at hplace hplain
  refine ⟨above, before, after, below, ts ++ us, hlines, hplace, ?_, fun column hc => ?_, hs⟩
  · rw [scan_intercalate hlines, habove, hplain.scanRest_eq]
    rfl
  · have hlast : (above ++ [before])[above.length]? = some before := List.getElem?_concat_length
    refine hplain.not_commentAt hlast column ⟨hc.1, fun t ht => ?_⟩
    exact hc.2 t (List.mem_append_right _ ht)

theorem scan_of_isFirst {source : String} {s : Stray} (h : s.IsFirst source) :
    scan source = .error s := by
  obtain ⟨c, place⟩ := s
  obtain ⟨above, before, after, below, all, hlines, rfl, hscan, hfree, hs⟩ := h
  rw [scan_intercalate hlines] at hscan
  -- The scan of the first part is that of the lines above, and of the line up to the character.
  rcases habove : scanLines 0 above with e | ts
  · rw [habove] at hscan
    simp [scanThen] at hscan
  rcases hbefore : scanRest above.length 0 0 before with e | us
  · rw [habove, hbefore] at hscan
    simp [scanThen] at hscan
  rw [habove, hbefore] at hscan
  obtain rfl := Except.ok.inj hscan
  have hlast : (above ++ [before])[above.length]? = some before := List.getElem?_concat_length
  have hplain : Plain above.length 0 before us := by
    refine plain_of_scanRest hlast rfl hbefore fun i _ hc => ?_
    refine hfree i ⟨hc.1, fun t ht hk => ?_⟩
    rcases List.mem_append.1 ht with ht | ht
    · exact not_covers_of_scanLines habove t ht i
    · exact hc.2 t ht hk
  have hline := hplain.scanRest_stray hs
  rw [Nat.zero_add] at hline
  rw [scan, hlines, scanLines_append, habove, Nat.zero_add, scanLines, scanLine, hline]
  rfl

/-- A text cannot be scanned exactly if there is a first stray character in it, which is then the
one that is reported. There is at most one, and a text without any is scanned. -/
theorem scan_eq_error_iff (source : String) :
    (∀ s, scan source = .error s ↔ s.IsFirst source) ∧
      (∀ s s' : Stray, s.IsFirst source → s'.IsFirst source → s = s') ∧
      ((∀ s : Stray, ¬ s.IsFirst source) → ∃ ts, scan source = .ok ts) := by
  refine ⟨fun s => ⟨isFirst_of_scan, scan_of_isFirst⟩, fun s s' h h' => ?_, fun h => ?_⟩
  · exact Except.error.inj ((scan_of_isFirst h).symm.trans (scan_of_isFirst h'))
  · rcases hscan : scan source with s | ts
    · exact absurd (isFirst_of_scan hscan) (h s)
    · exact ⟨ts, rfl⟩

/-- The `@` is in a comment and the two `&` before the last one are a mark. -/
theorem scan_eq_error_iff_ampersand :
    scan "// @\n&&&" = .error ⟨'&', ⟨2, 3⟩⟩ ∧ Stray.IsFirst "// @\n&&&" ⟨'&', ⟨2, 3⟩⟩ := by
  have hscan : scan "// @\n&&&" = .error ⟨'&', ⟨2, 3⟩⟩ := rfl
  exact ⟨hscan, ((scan_eq_error_iff _).1 _).1 hscan⟩

end Token

end Offside
