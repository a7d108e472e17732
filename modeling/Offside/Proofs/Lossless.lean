import Offside.Proofs.Placed

/-!
# Nothing is lost in scanning

The tokens of a text stand where their positions say, one behind the other, and what stands between
them means nothing (`Token.layout_of_scan`): blanks, and two slashes with nothing but blanks behind
them. A comment takes the rest of its line.

What the scanner does with a line is said once, as a relation between the line from some column on
and the tokens found there (`Token.Cut`). The scanner keeps to it (`Token.cut_of_scanRest`), and
each of the properties is an induction over it.
-/

namespace Offside

/-! ## What stands at the front -/

/-- The next element of a list that is read from the front, and what is left behind it. -/
theorem Text.next_of_drop {α : Type} {xs rest : List α} {i : Nat} {x : α}
    (h : xs.drop i = x :: rest) : xs[i]? = some x ∧ xs.drop (i + 1) = rest := by
  constructor
  · rw [← List.head?_drop, h, List.head?_cons]
  · rw [← List.drop_drop, h, List.drop_one, List.tail_cons]

theorem Text.blank_of_trim_eq_nil {cs : List Char} (h : trim cs = []) :
    ∀ c ∈ cs, isBlank c = true := by
  have hblank : ∀ c ∈ cs.dropWhile isBlank, isBlank c = true := by
    intro c hc
    exact List.dropWhile_eq_nil_iff.1 (List.reverse_eq_nil_iff.1 h) c (List.mem_reverse.2 hc)
  refine List.dropWhile_eq_nil_iff.1 ?_
  rcases hd : cs.dropWhile isBlank with _ | ⟨c, rest⟩
  · rfl
  · have hnot := List.head?_dropWhile_not isBlank cs
    rw [hd] at hblank hnot
    simp [hblank c List.mem_cons_self] at hnot

namespace Lexeme

theorem isPrefix_append {cs front text : List Char} (h : front <+: cs)
    (ht : text <+: cs.drop front.length) : front ++ text <+: cs := by
  obtain ⟨rest, rfl⟩ := h
  rw [List.drop_left] at ht
  exact (List.prefix_append_right_inj front).2 ht

theorem isPrefix_string? {cs text : List Char} (h : string? cs = some text) : text <+: cs := by
  unfold string? at h
  split at h
  · rename_i ds
    split at h
    · rename_i hq
      obtain rfl := Option.some.inj h
      rw [List.contains_iff_mem] at hq
      rcases hd : ds.dropWhile (· ≠ '"') with _ | ⟨q, rest⟩
      · have hall := List.dropWhile_eq_nil_iff.1 hd '"' hq
        simp at hall
      · have hnot := List.head?_dropWhile_not (fun c => decide (c ≠ '"')) ds
        rw [hd] at hnot
        obtain rfl : q = '"' := by simpa using hnot
        refine ⟨rest, ?_⟩
        rw [List.cons_append, List.cons_append, List.append_assoc, List.singleton_append, ← hd,
          List.takeWhile_append_dropWhile]
    · simp at h
  · simp at h

theorem string?_ne_nil {cs text : List Char} (h : string? cs = some text) : text ≠ [] := by
  rintro rfl
  unfold string? at h
  split at h
  · split at h <;> simp at h
  · simp at h

theorem IsNumber.ne_nil {cs : List Char} (h : IsNumber cs) : cs ≠ [] := by
  obtain ⟨whole, part, power, hw, -, -, rfl⟩ := h
  simp [hw.1]

theorem isPrefix_fraction (cs : List Char) : fraction cs <+: cs := by
  unfold fraction
  split
  · split
    · exact List.nil_prefix
    · exact (List.prefix_cons_inj _).2 (List.takeWhile_prefix _)
  · exact List.nil_prefix

theorem isPrefix_exponent (cs : List Char) : exponent cs <+: cs := by
  unfold exponent
  split
  · split
    · exact List.nil_prefix
    · exact (List.prefix_cons_inj _).2 ((List.prefix_cons_inj _).2 (List.takeWhile_prefix _))
  · split
    · exact List.nil_prefix
    · exact (List.prefix_cons_inj _).2 (List.takeWhile_prefix _)
  · exact List.nil_prefix

theorem isPrefix_number (cs : List Char) : number cs <+: cs := by
  have hwhole : digits cs <+: cs := List.takeWhile_prefix _
  have hpart := isPrefix_append hwhole (isPrefix_fraction _)
  refine isPrefix_append hpart ?_
  rw [List.length_append]
  exact isPrefix_exponent _

end Lexeme

/-- The characters start with what is said to stand at their front. -/
def Front.Starts (c : Char) (cs : List Char) : Front → Prop
  | .blank => Text.isBlank c = true
  | .comment body => c :: cs = '/' :: '/' :: body
  | .lexeme kind text => kind ≠ .comment ∧ text ≠ [] ∧ text <+: c :: cs
  | .stray => True

open Lexeme in
theorem Front.starts_of (c : Char) (cs : List Char) : (Front.of c cs).Starts c cs := by
  unfold Front.of
  split
  · rename_i hslash
    obtain ⟨rest, rfl⟩ := List.head?_eq_some_iff.1 hslash.2
    exact congrArg (· :: '/' :: rest) hslash.1
  split
  · rename_i text hs
    exact ⟨by simp, string?_ne_nil hs, isPrefix_string? hs⟩
  split
  · rename_i halpha
    refine ⟨?_, (isWord_word halpha cs).1, List.takeWhile_prefix _⟩
    unfold wordKind
    split <;> simp
  split
  · rename_i hdigit
    exact ⟨by simp, (isNumber_number hdigit cs).ne_nil, isPrefix_number _⟩
  split
  · rename_i m hm
    obtain ⟨d, ds, hspell, -⟩ := spelling_toList m
    have hp := List.find?_some hm
    exact ⟨by simp, by simp [hspell], List.isPrefixOf_iff_prefix.1 hp⟩
  split
  · assumption
  · trivial

namespace Token

/-! ## A line as the scanner cuts it -/

/-- The line holds the tokens from the column on: lexemes with blanks between them, and perhaps a
comment behind them. -/
inductive Cut (row : Nat) (chars : List Char) : Nat → List Token → Prop where
  | nil {column : Nat} (h : chars.length ≤ column) : Cut row chars column []
  | blank {column : Nat} {c : Char} {ts : List Token} (hc : chars[column]? = some c)
      (hb : Text.isBlank c = true) (h : Cut row chars (column + 1) ts) : Cut row chars column ts
  | comment {column : Nat} {body : List Char} (h : chars.drop column = '/' :: '/' :: body) :
      Cut row chars column (ofComment ⟨row, column⟩ body)
  | lexeme {column : Nat} {kind : Kind} {text : List Char} {ts : List Token}
      (hk : kind ≠ .comment) (hn : text ≠ []) (hp : text <+: chars.drop column)
      (h : Cut row chars (column + text.length) ts) :
      Cut row chars column (⟨kind, String.ofList text, some ⟨row, column⟩⟩ :: ts)

theorem cut_of_scanRest {row : Nat} {chars cs : List Char} :
    ∀ {column skip : Nat} {ts : List Token}, chars.drop column = cs →
      scanRest row column skip cs = .ok ts → Cut row chars (column + skip) ts := by
  induction cs with
  | nil =>
    intro column skip ts hd h
    rw [scanRest] at h
    obtain rfl := Except.ok.inj h
    have hlen := List.drop_eq_nil_iff.1 hd
    exact .nil (by omega)
  | cons c cs ih =>
    intro column skip ts hd h
    obtain ⟨hc, htail⟩ := Text.next_of_drop hd
    rcases skip with _ | skip
    · have hfront := Front.starts_of c cs
      rw [Nat.add_zero]
      rw [scanRest] at h
      split at h <;> rename_i hf <;> rw [hf] at hfront
      · have hrest := ih htail h
        exact .blank hc hfront hrest
      · obtain rfl := Except.ok.inj h
        exact .comment (hd.trans hfront)
      · obtain ⟨hk, hn, hp⟩ := hfront
        split at h
        · rename_i us hus
          obtain rfl := Except.ok.inj h
          have hrest := ih htail hus
          have hlen := List.length_pos_of_ne_nil hn
          rw [Nat.add_assoc, Nat.add_sub_cancel' hlen] at hrest
          exact .lexeme hk hn (hd ▸ hp) hrest
        · simp at h
      · simp at h
    · rw [scanRest] at h
      have hrest := ih htail h
      rwa [Nat.add_right_comm, Nat.add_assoc] at hrest

/-- The token stands in the line as its text says: a comment as two slashes, with its text behind
them, and any other token as its text. -/
structure WrittenAt (chars : List Char) (column : Nat) (t : Token) : Prop where
  inside : column < chars.length
  lexeme : t.kind ≠ .comment → t.lexeme.toList <+: chars.drop column
  comment : t.kind = .comment → ['/', '/'] <+: chars.drop column ∧
    t.lexeme.toList = Text.trim (chars.drop (column + 2)) ∧ t.lexeme.toList ≠ []

/-- The first column of the line that is behind the token. -/
def stop (chars : List Char) (column : Nat) (t : Token) : Nat :=
  if t.kind = .comment then chars.length else column + t.lexeme.toList.length

/-- What a line has from a column on stands there, or further on. -/
theorem Cut.written {row column : Nat} {chars : List Char} {ts : List Token}
    (h : Cut row chars column ts) :
    ∀ t ∈ ts, ∃ c, column ≤ c ∧ t.position = some ⟨row, c⟩ ∧ t.WrittenAt chars c := by
  induction h with
  | nil => simp
  | blank _ _ _ ih =>
    intro t ht
    obtain ⟨c, hc, hwritten⟩ := ih t ht
    exact ⟨c, by omega, hwritten⟩
  | @comment column body hline =>
    intro t ht
    unfold ofComment at ht
    split at ht
    · simp at ht
    rename_i hne
    obtain rfl := List.mem_singleton.1 ht
    have hin : column < chars.length :=
      Nat.lt_of_not_le (mt List.drop_eq_nil_iff.2 (by simp [hline]))
    have hbody : chars.drop (column + 2) = body :=
      (Text.next_of_drop (Text.next_of_drop hline).2).2
    refine ⟨column, Nat.le_refl _, rfl, hin, fun hk => absurd rfl hk, fun _ => ⟨?_, ?_, ?_⟩⟩
    · exact ⟨body, hline.symm⟩
    · rw [hbody, String.toList_ofList]
    · rw [String.toList_ofList]
      exact hne
  | @lexeme column kind text ts hk hn hp _ ih =>
    have hin : column < chars.length :=
      Nat.lt_of_not_le (mt List.drop_eq_nil_iff.2 (hp.ne_nil hn))
    intro t ht
    rcases List.mem_cons.1 ht with rfl | ht
    · refine ⟨column, Nat.le_refl _, rfl, hin, fun _ => ?_, fun hc => absurd hc hk⟩
      rwa [String.toList_ofList]
    · obtain ⟨c, hc, hwritten⟩ := ih t ht
      exact ⟨c, by omega, hwritten⟩

/-- The first token ends before the second one starts. -/
def EndsBefore (lines : List (List Char)) (t u : Token) : Prop :=
  ∃ p q chars, t.position = some p ∧ u.position = some q ∧ lines[p.row]? = some chars ∧
    (p.row < q.row ∨ p.row = q.row ∧ t.stop chars p.column ≤ q.column)

theorem Cut.pairwise {row column : Nat} {chars : List Char} {ts : List Token}
    (h : Cut row chars column ts) {lines : List (List Char)} (hl : lines[row]? = some chars) :
    ts.Pairwise (EndsBefore lines) := by
  induction h with
  | nil => exact .nil
  | blank _ _ _ ih => exact ih
  | comment =>
    unfold ofComment
    split
    · exact .nil
    · exact List.pairwise_singleton _ _
  | @lexeme column kind text ts hk _ _ h ih =>
    refine List.pairwise_cons.2 ⟨fun u hu => ?_, ih⟩
    obtain ⟨c, hc, hpos, -⟩ := h.written u hu
    refine ⟨_, _, chars, rfl, hpos, hl, .inr ⟨rfl, ?_⟩⟩
    rw [stop, if_neg hk, String.toList_ofList]
    exact hc

/-- The character at the position belongs to the token. -/
def Covers (lines : List (List Char)) (t : Token) (p : Position) : Prop :=
  ∃ start chars, t.position = some ⟨p.row, start⟩ ∧ lines[p.row]? = some chars ∧
    start ≤ p.column ∧ p.column < t.stop chars start

theorem EndsBefore.not_covers {lines : List (List Char)} {t u : Token} (h : t.EndsBefore lines u)
    (p : Position) : ¬ (t.Covers lines p ∧ u.Covers lines p) := by
  rintro ⟨⟨start, chars, ht, hl, -, hstop⟩, start', chars', hu, -, hstart, -⟩
  obtain ⟨q, q', chars'', hq, hq', hl'', hends⟩ := h
  obtain rfl := Option.some.inj (ht.symm.trans hq)
  obtain rfl := Option.some.inj (hu.symm.trans hq')
  obtain rfl := Option.some.inj (hl.symm.trans hl'')
  simp only [lt_irrefl, true_and, false_or] at hends
  omega

end Token

/-- The column is that of one of two slashes behind which the line is blank. -/
def Text.EmptyComment (chars : List Char) (column : Nat) : Prop :=
  ∃ start, start ≤ column ∧ column < start + 2 ∧ ['/', '/'] <+: chars.drop start ∧
    ∀ c ∈ chars.drop (start + 2), isBlank c = true

namespace Token

/-- A character behind the column is in a token, or means nothing. -/
theorem Cut.accounts {row column : Nat} {chars : List Char} {ts : List Token}
    (h : Cut row chars column ts) {lines : List (List Char)} (hl : lines[row]? = some chars) :
    ∀ i c, column ≤ i → chars[i]? = some c →
      (∃ t ∈ ts, t.Covers lines ⟨row, i⟩) ∨ Text.isBlank c = true ∨ Text.EmptyComment chars i := by
  induction h with
  | nil hlen =>
    intro i c hi hc
    have hlt := (List.getElem?_eq_some_iff.1 hc).1
    omega
  | @blank column d ts hd hb _ ih =>
    intro i c hi hc
    by_cases heq : i = column
    · subst heq
      obtain rfl := Option.some.inj (hc.symm.trans hd)
      exact .inr (.inl hb)
    · exact ih i c (by omega) hc
  | @comment column body hline =>
    intro i c hi hc
    have hbody : chars.drop (column + 2) = body :=
      (Text.next_of_drop (Text.next_of_drop hline).2).2
    have hlt := (List.getElem?_eq_some_iff.1 hc).1
    unfold ofComment
    split
    · rename_i htrim
      have hblank := Text.blank_of_trim_eq_nil htrim
      by_cases hslash : i < column + 2
      · exact .inr (.inr ⟨column, hi, hslash, ⟨body, hline.symm⟩, hbody ▸ hblank⟩)
      · refine .inr (.inl (hblank c (hbody ▸ List.mem_of_getElem? (i := i - (column + 2)) ?_)))
        rw [List.getElem?_drop, Nat.add_sub_cancel' (by omega), hc]
    · refine .inl ⟨_, List.mem_singleton.2 rfl, column, chars, rfl, hl, hi, ?_⟩
      simpa [stop] using hlt
  | @lexeme column kind text ts hk hn hp _ ih =>
    intro i c hi hc
    by_cases hin : i < column + text.length
    · refine .inl ⟨_, List.mem_cons_self, column, chars, rfl, hl, hi, ?_⟩
      rwa [stop, if_neg hk, String.toList_ofList]
    · rcases ih i c (by omega) hc with ⟨t, ht, hcovers⟩ | hmeans
      · exact .inl ⟨t, List.mem_cons_of_mem _ ht, hcovers⟩
      · exact .inr hmeans

/-! ## The lines of a text -/

/-- How the tokens stand in the lines from the given row on. -/
structure Arranged (lines : List (List Char)) (row : Nat) (ts : List Token) : Prop where
  written : ∀ t ∈ ts, ∃ p chars, row ≤ p.row ∧ t.position = some p ∧ lines[p.row]? = some chars ∧
    t.WrittenAt chars p.column
  pairwise : ts.Pairwise (EndsBefore lines)
  accounts : ∀ p chars c, row ≤ p.row → lines[p.row]? = some chars → chars[p.column]? = some c →
    (∃ t ∈ ts, t.Covers lines p) ∨ Text.isBlank c = true ∨ Text.EmptyComment chars p.column

/-- The tokens of one line, and those of the lines below. -/
theorem Arranged.cons {lines : List (List Char)} {chars : List Char} {row : Nat}
    {ts us : List Token} (hl : lines[row]? = some chars) (hline : Cut row chars 0 ts)
    (h : Arranged lines (row + 1) us) : Arranged lines row (ts ++ us) where
  written t ht := by
    rcases List.mem_append.1 ht with ht | ht
    · obtain ⟨c, -, hpos, hwritten⟩ := hline.written t ht
      exact ⟨⟨row, c⟩, chars, Nat.le_refl _, hpos, hl, hwritten⟩
    · obtain ⟨p, l, hrow, hwritten⟩ := h.written t ht
      exact ⟨p, l, Nat.le_of_succ_le hrow, hwritten⟩
  pairwise := by
    refine List.pairwise_append.2 ⟨hline.pairwise hl, h.pairwise, fun t ht u hu => ?_⟩
    obtain ⟨c, -, hpos, -⟩ := hline.written t ht
    obtain ⟨q, -, hrow, hpos', -⟩ := h.written u hu
    exact ⟨_, q, chars, hpos, hpos', hl, .inl hrow⟩
  accounts p l c hrow hp hc := by
    by_cases heq : p.row = row
    · obtain ⟨_, column⟩ := p
      obtain rfl : _ = row := heq
      obtain rfl := Option.some.inj (hl.symm.trans hp)
      rcases hline.accounts hl column c (Nat.zero_le _) hc with ⟨t, ht, hcovers⟩ | hmeans
      · exact .inl ⟨t, List.mem_append_left _ ht, hcovers⟩
      · exact .inr hmeans
    · rcases h.accounts p l c (by omega) hp hc with ⟨t, ht, hcovers⟩ | hmeans
      · exact .inl ⟨t, List.mem_append_right _ ht, hcovers⟩
      · exact .inr hmeans

theorem arranged_of_scanLines {lines ls : List (List Char)} :
    ∀ {row : Nat} {ts : List Token}, lines.drop row = ls → scanLines row ls = .ok ts →
      Arranged lines row ts := by
  induction ls with
  | nil =>
    intro row ts hd h
    rw [scanLines] at h
    obtain rfl := Except.ok.inj h
    have hlen := List.drop_eq_nil_iff.1 hd
    refine ⟨by simp, .nil, fun p chars c hrow hp _ => ?_⟩
    have hlt := (List.getElem?_eq_some_iff.1 hp).1
    omega
  | cons l ls ih =>
    intro row ts hd h
    rw [scanLines] at h
    split at h
    · simp at h
    rename_i us hus
    split at h
    · simp at h
    rename_i vs hvs
    obtain rfl := Except.ok.inj h
    obtain ⟨hl, htail⟩ := Text.next_of_drop hd
    have hcut : Cut row l 0 us := cut_of_scanRest rfl hus
    exact .cons hl hcut (ih htail hvs)

/-- Nothing is lost in scanning. Every token of a text stands in a line of it, where its position
says and as its text says. They stand one behind the other, no two of them have a character in
common, and a character that is in no token is blank, or one of two slashes at the end of a line
with only blanks behind them. -/
theorem layout_of_scan {source : String} {ts : List Token} (h : scan source = .ok ts) :
    (∀ t ∈ ts, ∃ p chars, t.position = some p ∧
        (Text.lines source.toList)[p.row]? = some chars ∧ t.WrittenAt chars p.column) ∧
      ts.Pairwise Precedes ∧
      (ts.Pairwise fun t u => ∀ p, ¬ (t.Covers (Text.lines source.toList) p ∧
        u.Covers (Text.lines source.toList) p)) ∧
      ∀ p chars c, (Text.lines source.toList)[p.row]? = some chars → chars[p.column]? = some c →
        (∃ t ∈ ts, t.Covers (Text.lines source.toList) p) ∨ Text.isBlank c = true ∨
          Text.EmptyComment chars p.column := by
  have harranged : Arranged (Text.lines source.toList) 0 ts :=
    arranged_of_scanLines List.drop_zero h
  refine ⟨fun t ht => ?_, pairwise_scan h, harranged.pairwise.imp EndsBefore.not_covers,
    fun p chars c => harranged.accounts p chars c (Nat.zero_le _)⟩
  obtain ⟨p, chars, -, hwritten⟩ := harranged.written t ht
  exact ⟨p, chars, hwritten⟩

/-- A comment behind a name, and in the next line one that is empty. -/
theorem layout_of_scan_comments :
    scan "a//  x \r\n//\t" = .ok [⟨.name, "a", some ⟨0, 0⟩⟩, ⟨.comment, "x", some ⟨0, 1⟩⟩] ∧
      WrittenAt "a//  x ".toList 1 ⟨.comment, "x", some ⟨0, 1⟩⟩ ∧
      Text.EmptyComment "//\t".toList 1 := by
  have hscan : scan "a//  x \r\n//\t" =
      .ok [⟨.name, "a", some ⟨0, 0⟩⟩, ⟨.comment, "x", some ⟨0, 1⟩⟩] := rfl
  have hlines : Text.lines "a//  x \r\n//\t".toList = ["a//  x ".toList, "//\t".toList] := rfl
  obtain ⟨hwritten, -, -, hrest⟩ := layout_of_scan hscan
  rw [hlines] at hwritten hrest
  refine ⟨hscan, ?_, ?_⟩
  · obtain ⟨p, chars, hp, hline, hat⟩ := hwritten ⟨.comment, "x", some ⟨0, 1⟩⟩ (by simp)
    obtain rfl := Option.some.inj hp
    obtain rfl := Option.some.inj hline
    exact hat
  · rcases hrest ⟨1, 1⟩ _ '/' rfl rfl with ⟨t, ht, start, chars, hp, -⟩ | hblank | hempty
    · simp only [List.mem_cons, List.not_mem_nil, or_false] at ht
      rcases ht with rfl | rfl <;> simp at hp
    · exact absurd hblank (by decide)
    · exact hempty

end Token

end Offside
