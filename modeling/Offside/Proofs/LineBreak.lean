import Offside.Proofs.Lexical
import Mathlib.Data.List.Infix

/-!
# Scanning on both sides of a line break

No token goes over the end of a line, so a text with a line break in it is scanned as what stands
before the break and what stands behind it, the rows of the latter being further down
(`Token.scan_break`).

A line ends in a line feed, which may have a carriage return before it, and which of the two it is
makes no difference (`Token.scan_lineEnd`). A carriage return at the end of a line is a blank there,
and leaving it out changes nothing (`Token.scanRest_return`): it belongs to no lexeme, and a comment
is trimmed. So the pass that takes it off changes no token and no place (`Token.scan_eq_scanLines`),
and with it go all the questions about where that pass finds a pair: at a seam, in a run of carriage
returns, or behind a pair that it has just replaced.
-/

namespace Offside

open Lexeme

/-! ## Characters with which no lexeme goes on -/

theorem Text.trim_concat {c : Char} (hc : isBlank c = true) (cs : List Char) :
    trim (cs ++ [c]) = trim cs := by
  have hend : ∀ l : List Char, trim l = (l.dropWhile isBlank).rdropWhile isBlank := fun _ => rfl
  rw [hend, hend, List.dropWhile_append]
  split
  · rename_i hempty
    rw [List.isEmpty_iff.1 hempty]
    simp [hc]
  · exact List.rdropWhile_concat_pos _ _ _ hc

namespace Lexeme

theorem takeWhile_append_of_head {p : Char → Bool} {rest : List Char}
    (hr : ∀ c ∈ rest.head?, p c = false) (cs : List Char) :
    (cs ++ rest).takeWhile p = cs.takeWhile p := by
  induction cs with
  | nil => exact takeWhile_of_all (by simp) hr
  | cons d cs ih => rw [List.cons_append, List.takeWhile_cons, List.takeWhile_cons, ih]

/-- What is taken ends at a character that is in the first part already. -/
theorem takeWhile_append_of_mem {p : Char → Bool} {c : Char} (hc : p c = false) (rest : List Char) :
    ∀ {cs : List Char}, c ∈ cs → (cs ++ rest).takeWhile p = cs.takeWhile p
  | d :: cs, h => by
    rw [List.cons_append, List.takeWhile_cons, List.takeWhile_cons]
    rcases List.mem_cons.1 h with rfl | h
    · simp [hc]
    · rw [takeWhile_append_of_mem hc rest h]

/-- A character that is in no word and in no number, whatever stands before it. -/
def isLoose (c : Char) : Bool := isApart c && c ≠ '-'

theorem isApart_of_isLoose {c : Char} (h : isLoose c = true) : isApart c = true :=
  (Bool.and_eq_true_iff.1 h).1

theorem ne_minus_of_isLoose {c : Char} (h : isLoose c = true) : c ≠ '-' :=
  of_decide_eq_true (Bool.and_eq_true_iff.1 h).2

section Loose

variable {rest : List Char} (hr : ∀ c ∈ rest.head?, isLoose c = true)

include hr

theorem word_append_loose (cs : List Char) : word (cs ++ rest) = word cs :=
  takeWhile_append_of_head (fun c hc => isAlpha_of_isApart (isApart_of_isLoose (hr c hc))) cs

theorem digits_append_loose (cs : List Char) : digits (cs ++ rest) = digits cs :=
  takeWhile_append_of_head (fun c hc => isDigit_of_isApart (isApart_of_isLoose (hr c hc))) cs

theorem fraction_append_loose (cs : List Char) : fraction (cs ++ rest) = fraction cs := by
  cases cs with
  | nil =>
    refine fraction_append (.inl rfl) fun c hc => ?_
    have happart := isApart_of_isLoose (hr c hc)
    refine ⟨?_, isDigit_of_isApart happart⟩
    rintro rfl
    exact absurd happart (by decide)
  | cons c cs =>
    by_cases hc : c = '.'
    · subst hc
      simp only [List.cons_append, fraction, digits_append_loose hr]
    · simp [fraction, hc]

theorem exponent_append_loose (cs : List Char) : exponent (cs ++ rest) = exponent cs := by
  have happart : ∀ c ∈ rest.head?, isApart c = true := fun c hc => isApart_of_isLoose (hr c hc)
  match cs with
  | [] => exact exponent_append (.inl rfl) happart
  | c :: cs =>
    by_cases hc : c = 'e'
    swap
    · simp [exponent, hc]
    subst hc
    match cs with
    | [] =>
      -- The `e` stands alone, and what is behind it is neither a digit nor a minus.
      cases rest with
      | nil => rfl
      | cons d rest =>
        have hd : d ≠ '-' := ne_minus_of_isLoose (hr d rfl)
        have hdigit : d.isDigit = false := isDigit_of_isApart (happart d rfl)
        simp [exponent, digits, hd, hdigit]
    | d :: cs =>
      have hdigits := digits_append_loose hr (d :: cs)
      rw [List.cons_append] at hdigits
      by_cases hd : d = '-'
      · subst hd
        simp only [List.cons_append, exponent, digits_append_loose hr]
      · simp [exponent, hd, hdigits]

omit hr in
theorem length_digits_le (cs : List Char) : (digits cs).length ≤ cs.length :=
  (List.takeWhile_prefix _).length_le

omit hr in
theorem length_fraction_le (cs : List Char) : (fraction cs).length ≤ cs.length := by
  unfold fraction
  split
  · rename_i ds
    have := length_digits_le ds
    split
    · simp
    · simpa using this
  · simp

theorem number_append_loose (cs : List Char) : number (cs ++ rest) = number cs := by
  have hwhole := length_digits_le cs
  have hpart : (digits cs).length + (fraction (cs.drop (digits cs).length)).length ≤ cs.length := by
    have := length_fraction_le (cs.drop (digits cs).length)
    rw [List.length_drop] at this
    omega
  simp only [number, digits_append_loose hr]
  rw [List.drop_append_of_le_length hwhole, fraction_append_loose hr,
    List.drop_append_of_le_length hpart, exponent_append_loose hr]

end Loose

theorem mark?_append_of_prefix {cs rest : List Char}
    (h : ∀ m : Mark, m.spelling.toList <+: cs ++ rest → m.spelling.toList <+: cs) :
    mark? (cs ++ rest) = mark? cs := by
  unfold mark?
  congr 1
  funext m
  rw [Bool.eq_iff_iff, List.isPrefixOf_iff_prefix, List.isPrefixOf_iff_prefix]
  exact ⟨h m, fun hp => hp.trans (List.prefix_append _ _)⟩

theorem string?_append_of_quote {c : Char} {cs rest : List Char}
    (h : c = '"' → '"' ∈ rest → '"' ∈ cs) : string? (c :: cs ++ rest) = string? (c :: cs) := by
  by_cases hc : c = '"'
  · subst hc
    by_cases hq : '"' ∈ cs
    · have htake : (cs ++ rest).takeWhile (· ≠ '"') = cs.takeWhile (· ≠ '"') :=
        takeWhile_append_of_mem (by decide) _ hq
      simp only [List.cons_append, string?, htake]
      simp [hq]
    · have hrest : '"' ∉ rest := fun hm => hq (h rfl hm)
      simp [string?, hq, hrest]
  · simp [string?, hc]

end Lexeme

theorem Front.of_comment {c : Char} {cs : List Char} (h : c = '/' ∧ cs.head? = some '/') :
    Front.of c cs = .comment cs.tail := by
  rw [Front.of, if_pos h]

/-- What a line goes on with stays the same if more is put at its end: something with which no word
and no number goes on, which closes no string, completes no mark and does not stand behind two
slashes. -/
theorem Front.of_append {c : Char} {cs rest : List Char}
    (hslash : ¬ (c = '/' ∧ (cs ++ rest).head? = some '/'))
    (hloose : ∀ d ∈ rest.head?, isLoose d = true) (hquote : c = '"' → '"' ∈ rest → '"' ∈ cs)
    (hmark : ∀ m : Mark, m.spelling.toList <+: c :: cs ++ rest → m.spelling.toList <+: c :: cs) :
    Front.of c (cs ++ rest) = Front.of c cs := by
  have hslash' : ¬ (c = '/' ∧ cs.head? = some '/') := by
    rintro ⟨hc, hd⟩
    exact hslash ⟨hc, by rw [List.head?_append, hd, Option.some_or]⟩
  rw [Front.of, Front.of, if_neg hslash, if_neg hslash', ← List.cons_append,
    string?_append_of_quote hquote, word_append_loose hloose, number_append_loose hloose,
    mark?_append_of_prefix hmark]

/-! ## A carriage return at the end of a line -/

/-- What a line goes on with is the same whether or not a carriage return ends the line, unless it
is a comment, which has the carriage return in its body. -/
theorem Front.of_return {c : Char} {cs : List Char} (h : ¬ (c = '/' ∧ cs.head? = some '/')) :
    Front.of c (cs ++ ['\r']) = Front.of c cs := by
  refine Front.of_append ?_ (by simp; decide) (by simp) fun m hm => ?_
  · cases cs with
    | nil => exact fun hslash => absurd hslash.2 (by decide)
    | cons d ds => exact h
  · refine (List.prefix_concat_iff.1 hm).resolve_left fun heq => ?_
    have hmem : '\r' ∈ m.spelling.toList := by simp [heq]
    exact absurd hmem (by cases m <;> decide)

namespace Token

theorem ofComment_return (position : Position) (body : List Char) :
    ofComment position (body ++ ['\r']) = ofComment position body := by
  rw [ofComment, ofComment, Text.trim_concat (by decide)]

theorem scanRest_return (row : Nat) (cs : List Char) : ∀ column skip : Nat,
    scanRest row column skip (cs ++ ['\r']) = scanRest row column skip cs := by
  induction cs with
  | nil =>
    intro column skip
    cases skip with
    | zero => rfl
    | succ skip => simp [scanRest]
  | cons c cs ih =>
    intro column skip
    cases skip with
    | succ skip => exact ih (column + 1) skip
    | zero =>
      rw [List.cons_append, scanRest, scanRest]
      by_cases hc : c = '/' ∧ cs.head? = some '/'
      · obtain ⟨d, ds, rfl⟩ := List.exists_cons_of_ne_nil (l := cs) fun hnil => by simp [hnil] at hc
        have hr : c = '/' ∧ (d :: ds ++ ['\r']).head? = some '/' := hc
        rw [Front.of_comment hc, Front.of_comment hr]
        simp only [List.cons_append, List.tail_cons, ofComment_return]
      · rw [Front.of_return hc]
        simp only [ih]

end Token

/-! ## Texts and lines on both sides of a break -/

namespace Text

theorem cutLines_append : ∀ {cs rest l : List Char} {ls : List (List Char)}, '\n' ∉ cs →
    cutLines rest = l :: ls → cutLines (cs ++ rest) = (cs ++ l) :: ls
  | [], _, _, _, _, h => h
  | c :: cs, rest, l, ls, hn, h => by
    have hc : c ≠ '\n' := by
      rintro rfl
      exact hn List.mem_cons_self
    have htail := cutLines_append (fun hm => hn (List.mem_cons_of_mem c hm)) h
    rw [List.cons_append, cutLines, if_neg hc, htail]
    rfl

theorem cutLines_of_unbroken {l : List Char} (h : '\n' ∉ l) : cutLines l = [l] := by
  have hcut : cutLines (l ++ []) = [l ++ []] := cutLines_append h rfl
  rwa [List.append_nil] at hcut

theorem cutLines_append_break (cs ds : List Char) :
    cutLines (cs ++ '\n' :: ds) = cutLines cs ++ cutLines ds := by
  induction cs with
  | nil => rw [List.nil_append, cutLines_break]; rfl
  | cons c cs ih =>
    obtain ⟨l, ls, hcut⟩ := List.exists_cons_of_ne_nil (cutLines_ne_nil cs)
    rw [List.cons_append, cutLines, cutLines, ih, hcut]
    split
    · rfl
    · rfl

/-- A character at the end of a text is at the end of its last line. -/
theorem cutLines_concat {c : Char} (hc : c ≠ '\n') (cs : List Char) :
    ∃ ls l, cutLines cs = ls ++ [l] ∧ cutLines (cs ++ [c]) = ls ++ [l ++ [c]] := by
  induction cs with
  | nil => exact ⟨[], [], rfl, by simp [cutLines, hc]⟩
  | cons d cs ih =>
    obtain ⟨ls, l, hcut, hconcat⟩ := ih
    by_cases hd : d = '\n'
    · subst hd
      refine ⟨[] :: ls, l, ?_, ?_⟩
      · rw [cutLines_break, hcut]
        rfl
      · rw [List.cons_append, cutLines_break, hconcat]
        rfl
    · rw [List.cons_append, cutLines, cutLines, if_neg hd, if_neg hd, hcut, hconcat]
      cases ls with
      | nil => exact ⟨[], d :: l, rfl, rfl⟩
      | cons l' ls => exact ⟨(d :: l') :: ls, l, rfl, rfl⟩

theorem length_cutLines (cs : List Char) : (cutLines cs).length = cs.count '\n' + 1 := by
  induction cs with
  | nil => rfl
  | cons c cs ih =>
    by_cases hc : c = '\n'
    · subst hc
      rw [cutLines_break, List.length_cons, ih, List.count_cons_self]
    · obtain ⟨l, ls, hcut⟩ := List.exists_cons_of_ne_nil (cutLines_ne_nil cs)
      rw [cutLines, if_neg hc, hcut, List.count_cons_of_ne hc, ← ih, hcut]
      rfl

end Text

namespace Token

/-- The token in a row further down. -/
def lower (rows : Nat) (t : Token) : Token :=
  { t with position := t.position.map fun p => ⟨p.row + rows, p.column⟩ }

end Token

/-- The stray character in a line further down. -/
def Stray.lower (rows : Nat) (s : Stray) : Stray :=
  { s with place := ⟨s.place.line + rows, s.place.column⟩ }

namespace Token

/-- What was scanned, in rows further down. -/
def lowerScan (rows : Nat) : Except Stray (List Token) → Except Stray (List Token)
  | .ok ts => .ok (ts.map (lower rows))
  | .error s => .error (s.lower rows)

theorem ofComment_lower (rows : Nat) (p : Position) (body : List Char) :
    ofComment ⟨p.row + rows, p.column⟩ body = (ofComment p body).map (lower rows) := by
  unfold ofComment
  split <;> rfl

theorem scanRest_lower (rows row : Nat) (cs : List Char) : ∀ column skip : Nat,
    scanRest (row + rows) column skip cs = lowerScan rows (scanRest row column skip cs) := by
  induction cs with
  | nil => exact fun _ _ => rfl
  | cons c cs ih =>
    intro column skip
    cases skip with
    | succ skip => exact ih (column + 1) skip
    | zero =>
      rw [scanRest, scanRest]
      split
      · exact ih (column + 1) 0
      · rw [lowerScan, ← ofComment_lower]
      · rw [ih]
        cases scanRest row (column + 1) _ cs <;> rfl
      · simp only [lowerScan, Stray.lower, Position.place, Nat.add_right_comm]

theorem scanLines_lower (rows : Nat) (ls : List (List Char)) : ∀ row : Nat,
    scanLines (row + rows) ls = lowerScan rows (scanLines row ls) := by
  induction ls with
  | nil => exact fun _ => rfl
  | cons l ls ih =>
    intro row
    rw [scanLines, scanLines, scanLine, scanLine, scanRest_lower, Nat.add_right_comm, ih]
    cases scanRest row 0 0 l with
    | error e => rfl
    | ok ts =>
      cases scanLines (row + 1) ls with
      | error e => rfl
      | ok us => simp [lowerScan]

/-- Tokens behind tokens, unless there is a stray character before them. -/
def scanThen : Except Stray (List Token) → Except Stray (List Token) → Except Stray (List Token)
  | .ok ts, .ok us => .ok (ts ++ us)
  | .ok _, .error e => .error e
  | .error e, _ => .error e

/-- A lexeme at the front of a line. -/
theorem scanRest_lexeme {row column : Nat} {c : Char} {text rest : List Char} {kind : Kind}
    (hf : Front.of c (text ++ rest) = .lexeme kind (c :: text)) :
    scanRest row column 0 (c :: (text ++ rest)) =
      scanThen (.ok [⟨kind, String.ofList (c :: text), some ⟨row, column⟩⟩])
        (scanRest row (column + (text.length + 1)) 0 rest) := by
  rw [scanRest, hf]
  simp only [List.length_cons, Nat.add_sub_cancel]
  rw [scanRest_skip, List.drop_left, Nat.add_assoc, Nat.add_comm 1]
  cases scanRest row (column + (text.length + 1)) 0 rest <;> rfl

theorem scanLines_append (ls ls' : List (List Char)) : ∀ row : Nat,
    scanLines row (ls ++ ls') = scanThen (scanLines row ls) (scanLines (row + ls.length) ls') := by
  induction ls with
  | nil =>
    intro row
    simp only [List.nil_append, scanLines, List.length_nil, Nat.add_zero]
    cases scanLines row ls' <;> rfl
  | cons l ls ih =>
    intro row
    have hrow : row + (ls.length + 1) = row + 1 + ls.length := by omega
    rw [List.cons_append, scanLines, scanLines, ih, List.length_cons, hrow]
    cases scanLine row l with
    | error e => rfl
    | ok ts =>
      cases scanLines (row + 1) ls with
      | error e => rfl
      | ok us =>
        cases scanLines (row + 1 + ls.length) ls' with
        | error e => rfl
        | ok vs => simp [scanThen]

/-- A carriage return at the end of a text adds no token and no line. -/
theorem scanLines_return (cs : List Char) (row : Nat) :
    scanLines row (Text.cutLines (cs ++ ['\r'])) = scanLines row (Text.cutLines cs) ∧
      (Text.cutLines (cs ++ ['\r'])).length = (Text.cutLines cs).length := by
  obtain ⟨ls, l, hcut, hconcat⟩ := Text.cutLines_concat (c := '\r') (by decide) cs
  rw [hcut, hconcat]
  refine ⟨?_, by simp⟩
  have hlast : ∀ row', scanLines row' [l ++ ['\r']] = scanLines row' [l] := by
    intro row'
    simp only [scanLines, scanLine, scanRest_return]
  rw [scanLines_append, scanLines_append, hlast]

end Token

/-! ## Both ways to end a line -/

namespace Text

inductive LineEnd where
  | feed
  | returnFeed

def LineEnd.chars : LineEnd → List Char
  | feed => ['\n']
  | returnFeed => ['\r', '\n']

/-- The texts have the same characters, but for how their lines end. -/
inductive SameLines : List Char → List Char → Prop where
  | nil : SameLines [] []
  | char (c : Char) {cs ds : List Char} (h : SameLines cs ds) : SameLines (c :: cs) (c :: ds)
  | lineEnd (e e' : LineEnd) {cs ds : List Char} (h : SameLines cs ds) :
      SameLines (e.chars ++ cs) (e'.chars ++ ds)

theorem sameLines_unifyBreaks (cs : List Char) : SameLines cs (unifyBreaks cs) := by
  fun_induction unifyBreaks cs with
  | case1 cs ih => exact .lineEnd .returnFeed .feed ih
  | case2 c cs _ ih => exact .char c ih
  | case3 => exact .nil

theorem SameLines.count_eq {cs ds : List Char} (h : SameLines cs ds) :
    cs.count '\n' = ds.count '\n' := by
  induction h with
  | nil => rfl
  | char c _ ih => rw [List.count_cons, List.count_cons, ih]
  | lineEnd e e' _ ih =>
    have hone : ∀ e : LineEnd, e.chars.count '\n' = 1 := by rintro (_ | _) <;> rfl
    rw [List.count_append, List.count_append, hone, hone, ih]

theorem length_lines (cs : List Char) : (lines cs).length = cs.count '\n' + 1 := by
  rw [lines, length_cutLines, (sameLines_unifyBreaks cs).count_eq]

end Text

namespace Token

open Text

/-- A line feed ends the line before it, with or without a carriage return. -/
theorem scanLines_lineEnd (e : LineEnd) (cs ds : List Char) (row : Nat) :
    scanLines row (cutLines (cs ++ e.chars ++ ds)) =
      scanThen (scanLines row (cutLines cs))
        (scanLines (row + (cutLines cs).length) (cutLines ds)) := by
  cases e with
  | feed =>
    rw [LineEnd.chars, List.append_assoc, List.singleton_append, cutLines_append_break,
      scanLines_append]
  | returnFeed =>
    obtain ⟨hsame, hlength⟩ := scanLines_return cs row
    have hseam : cs ++ LineEnd.returnFeed.chars ++ ds = (cs ++ ['\r']) ++ '\n' :: ds := by
      simp [LineEnd.chars]
    rw [hseam, cutLines_append_break, scanLines_append, hsame, hlength]

/-- The lines of two such texts are scanned alike, whatever stands before them. -/
theorem scanLines_sameLines {cs ds : List Char} (h : SameLines cs ds) (row : Nat) :
    ∀ front : List Char,
      scanLines row (cutLines (front ++ cs)) = scanLines row (cutLines (front ++ ds)) := by
  induction h with
  | nil => exact fun _ => rfl
  | char c _ ih =>
    intro front
    rw [List.append_cons, ih, ← List.append_cons]
  | lineEnd e e' _ ih =>
    intro front
    rw [← List.append_assoc, ih, scanLines_lineEnd, ← scanLines_lineEnd e', List.append_assoc]

/-- To scan a text one can cut it at its line feeds and leave the carriage returns in the lines. -/
theorem scan_eq_scanLines (s : String) : scan s = scanLines 0 (cutLines s.toList) :=
  (scanLines_sameLines (sameLines_unifyBreaks s.toList) 0 []).symm

theorem scan_append_lineEnd (e : LineEnd) (s t : String) :
    scan (s ++ String.ofList e.chars ++ t) =
      scanThen (scan s) (lowerScan (s.toList.count '\n' + 1) (scan t)) := by
  have htext : (s ++ String.ofList e.chars ++ t).toList = s.toList ++ e.chars ++ t.toList := by simp
  rw [scan_eq_scanLines, htext, scanLines_lineEnd, ← scan_eq_scanLines, length_cutLines,
    scanLines_lower, ← scan_eq_scanLines]

/-- A text with a line break in it has the tokens of what stands before the break and, further down,
of what stands behind it. -/
theorem scan_break (s t : String) : scan (s ++ "\n" ++ t) =
    scanThen (scan s) (lowerScan (Text.lines s.toList).length (scan t)) := by
  rw [Text.length_lines]
  exact scan_append_lineEnd .feed s t

/-- A text in which a line ends in one way or the other is scanned as what stands before the end of
that line and, as many rows further down as there are line feeds up to it, what stands behind it. So
texts that differ only in how their lines end have the same tokens in the same places, or the same
stray character. -/
theorem scan_lineEnd :
    (∀ (e : LineEnd) (s t : String), scan (s ++ String.ofList e.chars ++ t) =
      scanThen (scan s) (lowerScan (s.toList.count '\n' + 1) (scan t))) ∧
    ∀ s t : String, SameLines s.toList t.toList → scan s = scan t := by
  refine ⟨scan_append_lineEnd, fun s t h => ?_⟩
  rw [scan_eq_scanLines, scan_eq_scanLines]
  exact scanLines_sameLines h 0 []

/-- Two carriage returns at the end of a comment, the second of them part of the break, and a stray
character in the line below. -/
theorem scan_lineEnd_returns :
    SameLines "a//b\r\r\n@".toList "a//b\r\n@".toList ∧
      scan "a//b\r\r\n@" = scan "a//b\r\n@" ∧
      scan ("a//b\r" ++ String.ofList LineEnd.returnFeed.chars ++ "@") = .error ⟨'@', ⟨2, 1⟩⟩ := by
  have hsame : SameLines "a//b\r\r\n@".toList "a//b\r\n@".toList :=
    .char 'a' (.char '/' (.char '/' (.char 'b' (.char '\r'
      (.lineEnd .returnFeed .feed (.char '@' .nil))))))
  refine ⟨hsame, scan_lineEnd.2 _ _ hsame, ?_⟩
  rw [scan_lineEnd.1]
  rfl

end Token

end Offside
