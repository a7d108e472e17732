import Offside.Proofs.Face
import Mathlib.Data.List.DropRight
import Mathlib.Data.List.TakeWhile

/-!
# Classes of lexemes

The texts that a token of each kind can have (`Token.Lexical`), and the two ways in which they are
those that the scanner finds. Every token of a text that can be scanned has a text of its class
(`Token.lexical_of_scan`), and a text of a class, with nothing behind it that could make it longer,
is what the scanner finds at its front (`Front.of_lexical`).
-/

namespace Offside

namespace Lexeme

def IsWord (cs : List Char) : Prop := cs ≠ [] ∧ ∀ c ∈ cs, c.isAlpha = true

def IsDigits (cs : List Char) : Prop := cs ≠ [] ∧ ∀ c ∈ cs, c.isDigit = true

def IsFraction (cs : List Char) : Prop := cs = [] ∨ ∃ ds, IsDigits ds ∧ cs = '.' :: ds

def IsExponent (cs : List Char) : Prop :=
  cs = [] ∨ ∃ ds, IsDigits ds ∧ (cs = 'e' :: ds ∨ cs = 'e' :: '-' :: ds)

def IsNumber (cs : List Char) : Prop :=
  ∃ whole part power, IsDigits whole ∧ IsFraction part ∧ IsExponent power ∧
    cs = whole ++ part ++ power

/-- What can stand between the quotes of a string. -/
def IsContent (cs : List Char) : Prop := '"' ∉ cs ∧ '\n' ∉ cs

/-- What a comment can say: something on one line, without blanks at its ends. -/
structure IsRemark (cs : List Char) : Prop where
  ne_nil : cs ≠ []
  unbroken : '\n' ∉ cs
  head : ∀ c ∈ cs.head?, Text.isBlank c = false
  last : ∀ c ∈ cs.getLast?, Text.isBlank c = false

/-! ## What is found is of its class -/

theorem isWord_word {c : Char} (h : c.isAlpha = true) (cs : List Char) :
    IsWord (word (c :: cs)) := by
  refine ⟨by simp [word, h], fun d hd => ?_⟩
  exact List.mem_takeWhile_imp hd

theorem isDigits_digits {cs : List Char} (h : digits cs ≠ []) : IsDigits (digits cs) :=
  ⟨h, fun _ hd => List.mem_takeWhile_imp hd⟩

theorem isFraction_fraction (cs : List Char) : IsFraction (fraction cs) := by
  unfold fraction
  split
  · split
    · exact Or.inl rfl
    · rename_i hne
      exact Or.inr ⟨_, isDigits_digits hne, rfl⟩
  · exact Or.inl rfl

theorem isExponent_exponent (cs : List Char) : IsExponent (exponent cs) := by
  unfold exponent
  split
  · split
    · exact Or.inl rfl
    · rename_i hne
      exact Or.inr ⟨_, isDigits_digits hne, Or.inr rfl⟩
  · split
    · exact Or.inl rfl
    · rename_i hne
      exact Or.inr ⟨_, isDigits_digits hne, Or.inl rfl⟩
  · exact Or.inl rfl

theorem isNumber_number {c : Char} (h : c.isDigit = true) (cs : List Char) :
    IsNumber (number (c :: cs)) :=
  ⟨_, _, _, isDigits_digits (by simp [digits, h]), isFraction_fraction _, isExponent_exponent _,
    rfl⟩

theorem string?_eq_some {cs text : List Char} (h : string? cs = some text) (hl : '\n' ∉ cs) :
    ∃ content, IsContent content ∧ text = '"' :: content ++ ['"'] := by
  unfold string? at h
  split at h
  · rename_i cs'
    split at h
    · refine ⟨cs'.takeWhile (· ≠ '"'), ⟨fun hq => ?_, fun hn => hl ?_⟩, (Option.some.inj h).symm⟩
      · have := List.mem_takeWhile_imp hq
        simp at this
      · exact List.mem_cons_of_mem _ (List.takeWhile_subset _ hn)
    · simp at h
  · simp at h

theorem isRemark_trim {cs : List Char} (hn : '\n' ∉ cs) (h : Text.trim cs ≠ []) :
    IsRemark (Text.trim cs) := by
  have heq : Text.trim cs = (cs.dropWhile Text.isBlank).rdropWhile Text.isBlank := rfl
  have hfront : Text.trim cs <+: cs.dropWhile Text.isBlank :=
    heq ▸ List.rdropWhile_prefix Text.isBlank _
  refine ⟨h, fun hm => ?_, fun c hc => ?_, fun c hc => ?_⟩
  · exact hn ((List.dropWhile_sublist _).subset (hfront.subset hm))
  · have hhead : (cs.dropWhile Text.isBlank).head? = some c := by
      obtain ⟨rest, hrest⟩ := hfront
      rw [← hrest, List.head?_append_of_ne_nil _ h]
      exact hc
    have := List.head?_dropWhile_not Text.isBlank cs
    rw [hhead] at this
    simpa using this
  · have hlast := List.rdropWhile_last_not Text.isBlank (cs.dropWhile Text.isBlank) (heq ▸ h)
    rw [Option.mem_def, List.getLast?_eq_some_getLast h, Option.some.injEq] at hc
    rw [← hc]
    exact Bool.eq_false_iff.2 hlast

/-! ## What is of a class is found -/

/-- Trimming takes nothing off the text of a comment. -/
theorem IsRemark.trim {cs : List Char} (h : IsRemark cs) : Text.trim cs = cs := by
  have hhead : cs.dropWhile Text.isBlank = cs := by
    refine List.dropWhile_eq_self_iff.2 fun hlen => ?_
    have := h.head _ (List.head?_eq_getElem? ▸ List.getElem?_eq_getElem hlen)
    simpa using this
  have hlast : cs.rdropWhile Text.isBlank = cs := by
    refine List.rdropWhile_eq_self_iff.2 fun hne => ?_
    have := h.last _ (List.getLast?_eq_some_getLast hne)
    simpa using this
  calc Text.trim cs = (cs.dropWhile Text.isBlank).rdropWhile Text.isBlank := rfl
    _ = cs := by rw [hhead, hlast]

theorem takeWhile_of_all {p : Char → Bool} {cs rest : List Char} (h : ∀ c ∈ cs, p c = true)
    (hr : ∀ c ∈ rest.head?, p c = false) : (cs ++ rest).takeWhile p = cs := by
  rw [List.takeWhile_append_of_pos h]
  cases rest with
  | nil => simp
  | cons c rest => simp [hr c rfl]

/-- A character that neither a word nor a number can go on with. -/
def isApart (c : Char) : Bool := !c.isAlphanum && c ≠ '.'

theorem isAlpha_of_isApart {c : Char} (h : isApart c = true) : c.isAlpha = false := by
  simp only [isApart, Char.isAlphanum, Bool.and_eq_true, Bool.not_eq_true',
    Bool.or_eq_false_iff] at h
  exact h.1.1

theorem isDigit_of_isApart {c : Char} (h : isApart c = true) : c.isDigit = false := by
  simp only [isApart, Char.isAlphanum, Bool.and_eq_true, Bool.not_eq_true',
    Bool.or_eq_false_iff] at h
  exact h.1.2

theorem word_append {cs rest : List Char} (h : IsWord cs)
    (hr : ∀ c ∈ rest.head?, isApart c = true) :
    word (cs ++ rest) = cs :=
  takeWhile_of_all h.2 fun c hc => isAlpha_of_isApart (hr c hc)

theorem digits_append {cs rest : List Char} (h : IsDigits cs)
    (hr : ∀ c ∈ rest.head?, c.isDigit = false) : digits (cs ++ rest) = cs :=
  takeWhile_of_all h.2 hr

theorem exponent_append {cs rest : List Char} (h : IsExponent cs)
    (hr : ∀ c ∈ rest.head?, isApart c = true) : exponent (cs ++ rest) = cs := by
  have hd : ∀ c ∈ rest.head?, c.isDigit = false := fun c hc => isDigit_of_isApart (hr c hc)
  rcases h with rfl | ⟨ds, hds, rfl | rfl⟩
  · cases rest with
    | nil => rfl
    | cons c rest =>
      have he : c ≠ 'e' := by
        rintro rfl
        exact absurd (hr 'e' rfl) (by decide)
      unfold exponent
      split
      · rename_i heq
        exact absurd (List.cons.inj heq).1 he
      · rename_i heq
        exact absurd (List.cons.inj heq).1 he
      · rfl
  · obtain ⟨d, ds', rfl⟩ := List.exists_cons_of_ne_nil hds.1
    have hm : d ≠ '-' := by
      rintro rfl
      exact absurd (hds.2 '-' (by simp)) (by decide)
    have hall := digits_append hds hd
    simp only [List.cons_append] at hall ⊢
    simp [exponent, hm, hall]
  · have hall := digits_append hds hd
    simp [exponent, hall, hds.1]

theorem fraction_append {cs rest : List Char} (h : IsFraction cs)
    (hr : ∀ c ∈ rest.head?, c ≠ '.' ∧ c.isDigit = false) : fraction (cs ++ rest) = cs := by
  rcases h with rfl | ⟨ds, hds, rfl⟩
  · cases rest with
    | nil => rfl
    | cons c rest =>
      unfold fraction
      split
      · rename_i heq
        exact absurd (List.cons.inj heq).1 (hr c rfl).1
      · rfl
  · have hall := digits_append hds fun c hc => (hr c hc).2
    simp [fraction, hall, hds.1]

theorem head?_exponent {cs rest : List Char} (h : IsExponent cs)
    (hr : ∀ c ∈ rest.head?, isApart c = true) :
    ∀ c ∈ (cs ++ rest).head?, c ≠ '.' ∧ c.isDigit = false := by
  rcases h with rfl | ⟨ds, -, rfl | rfl⟩
  · intro c hc
    have h := hr c hc
    refine ⟨?_, isDigit_of_isApart h⟩
    rintro rfl
    exact absurd h (by decide)
  · simp
  · simp

theorem number_append {cs rest : List Char} (h : IsNumber cs)
    (hr : ∀ c ∈ rest.head?, isApart c = true) : number (cs ++ rest) = cs := by
  obtain ⟨whole, part, power, hw, hp, he, rfl⟩ := h
  have hhead : ∀ c ∈ (part ++ (power ++ rest)).head?, c.isDigit = false := by
    rcases hp with rfl | ⟨ds, -, rfl⟩
    · exact fun c hc => (head?_exponent he hr c hc).2
    · simp
  have hwhole : digits (whole ++ (part ++ (power ++ rest))) = whole := digits_append hw hhead
  have hpart : fraction (part ++ (power ++ rest)) = part :=
    fraction_append hp (head?_exponent he hr)
  have hpower : exponent (power ++ rest) = power := exponent_append he hr
  simp only [number, List.append_assoc, hwhole, List.drop_left, hpart]
  rw [← List.drop_drop, List.drop_left, List.drop_left, hpower]

theorem string?_append {cs : List Char} (h : IsContent cs) (rest : List Char) :
    string? ('"' :: cs ++ ['"'] ++ rest) = some ('"' :: cs ++ ['"']) := by
  have ht : (cs ++ '"' :: rest).takeWhile (· ≠ '"') = cs := by
    refine takeWhile_of_all (fun c hc => ?_) (by simp)
    simp only [decide_eq_true_eq]
    rintro rfl
    exact h.1 hc
  simp only [List.cons_append, List.append_assoc, List.nil_append, string?, ht]
  simp

end Lexeme

/-- No mark is spelled as this one with the character behind it, and no comment starts so. -/
def Mark.admits (m : Mark) (c : Char) : Bool :=
  Mark.all.all (fun n => n.spelling.toList != m.spelling.toList ++ [c]) &&
    !(m == .slash && c == '/')

theorem Lexeme.mark?_append (m : Mark) {rest : List Char}
    (hr : ∀ c ∈ rest.head?, m.admits c = true) : mark? (m.spelling.toList ++ rest) = some m := by
  cases rest with
  | nil => cases m <;> decide
  | cons c rest =>
    have := hr c rfl
    cases m <;> simp_all [mark?, Mark.all, Mark.admits, Mark.spelling, List.isPrefixOf]

namespace Token

open Lexeme

/-- The text is one that a token of the kind can have. -/
def Lexical (t : Token) : Prop :=
  match t.kind with
  | .number => IsNumber t.lexeme.toList
  | .string => ∃ content, IsContent content ∧ t.lexeme.toList = '"' :: content ++ ['"']
  | .comment => IsRemark t.lexeme.toList
  | .name => IsWord t.lexeme.toList ∧ Keyword.ofSpelling? t.lexeme = none
  | .mark m => t.lexeme = m.spelling
  | .keyword k => t.lexeme = k.spelling
  | .eof => False

/-- The token does not go on with the character behind it. -/
def admits (t : Token) (c : Char) : Bool :=
  match t.kind with
  | .number | .name | .keyword _ => isApart c
  | .mark m => m.admits c
  | _ => true

end Token

namespace Front

open Lexeme

theorem isAlpha_ne {c : Char} (h : c.isAlpha = true) : c ≠ '/' ∧ c ≠ '"' := by
  constructor <;> rintro rfl <;> exact absurd h (by decide)

theorem isDigit_ne {c : Char} (h : c.isDigit = true) : c ≠ '/' ∧ c ≠ '"' ∧ c.isAlpha = false := by
  refine ⟨?_, ?_, ?_⟩
  · rintro rfl
    exact absurd h (by decide)
  · rintro rfl
    exact absurd h (by decide)
  · have halpha : c.isAlpha = (decide (c.val ≥ 'A'.val ∧ c.val ≤ 'Z'.val)
        || decide (c.val ≥ 'a'.val) && decide (c.val ≤ 'z'.val)) := rfl
    simp only [Char.isDigit, halpha, Bool.and_eq_true, decide_eq_true_eq,
      Bool.or_eq_false_iff, Bool.and_eq_false_imp, UInt32.le_iff_toNat_le,
      decide_eq_false_iff_not, ge_iff_le] at h ⊢
    have h0 : '0'.val.toNat = 48 := rfl
    have h9 : '9'.val.toNat = 57 := rfl
    have hA : 'A'.val.toNat = 65 := rfl
    have ha : 'a'.val.toNat = 97 := rfl
    omega

theorem string?_of_ne {c : Char} (h : c ≠ '"') (cs : List Char) : string? (c :: cs) = none := by
  unfold string?
  split
  · rename_i heq
    exact absurd (List.cons.inj heq).1 h
  · rfl

theorem of_word {c : Char} {cs text rest : List Char} (heq : text ++ rest = c :: cs)
    (h : IsWord text) (hr : ∀ d ∈ rest.head?, isApart d = true) :
    Front.of c cs = .lexeme (wordKind text) text := by
  have hc : c.isAlpha = true := by
    obtain ⟨d, text', rfl⟩ := List.exists_cons_of_ne_nil h.1
    rw [← (List.cons.inj heq).1]
    exact h.2 d (by simp)
  have hw : word (c :: cs) = text := heq ▸ word_append h hr
  simp only [Front.of, (isAlpha_ne hc).1, false_and, if_false, string?_of_ne (isAlpha_ne hc).2, hc,
    if_true, hw]

theorem of_number {c : Char} {cs text rest : List Char} (heq : text ++ rest = c :: cs)
    (h : IsNumber text) (hr : ∀ d ∈ rest.head?, isApart d = true) :
    Front.of c cs = .lexeme .number text := by
  have hc : c.isDigit = true := by
    obtain ⟨whole, part, power, hw, -, -, rfl⟩ := h
    obtain ⟨d, whole', rfl⟩ := List.exists_cons_of_ne_nil hw.1
    rw [← (List.cons.inj heq).1]
    exact hw.2 d (by simp)
  have hn : number (c :: cs) = text := heq ▸ number_append h hr
  obtain ⟨hslash, hquote, halpha⟩ := isDigit_ne hc
  simp only [Front.of, hslash, false_and, if_false, string?_of_ne hquote, halpha, hc, if_true, hn,
    Bool.false_eq_true]

theorem of_string {cs content rest : List Char} (heq : content ++ ['"'] ++ rest = cs)
    (h : IsContent content) : Front.of '"' cs = .lexeme .string ('"' :: content ++ ['"']) := by
  have hs : string? ('"' :: cs) = some ('"' :: content ++ ['"']) := heq ▸ string?_append h rest
  simp [Front.of, hs]

theorem spelling_toList (m : Mark) : ∃ c cs, m.spelling.toList = c :: cs ∧ c ≠ '"' ∧
    c.isAlpha = false ∧ c.isDigit = false ∧ (c = '/' → m = .slash) := by
  cases m <;> exact ⟨_, _, rfl, by decide, by decide, by decide, by decide⟩

theorem of_mark (m : Mark) {c : Char} {cs rest : List Char}
    (heq : m.spelling.toList ++ rest = c :: cs)
    (hr : ∀ d ∈ rest.head?, m.admits d = true) :
    Front.of c cs = .lexeme (.mark m) m.spelling.toList := by
  have hm : mark? (c :: cs) = some m := heq ▸ mark?_append m hr
  obtain ⟨c', cs', hspell, hquote, halpha, hdigit, hslash⟩ := spelling_toList m
  obtain ⟨rfl, hcs⟩ : c' = c ∧ cs' ++ rest = cs := by
    rw [hspell] at heq
    exact List.cons.inj heq
  have hcomment : ¬ (c' = '/' ∧ cs.head? = some '/') := by
    rintro ⟨hc, hd⟩
    obtain rfl := hslash hc
    obtain rfl : [] = cs' := (List.cons.inj hspell).2
    rw [← hcs] at hd
    exact absurd (hr '/' hd) (by decide)
  simp only [Front.of, hcomment, if_false, string?_of_ne hquote, halpha, hdigit, hm,
    Bool.false_eq_true]

theorem isWord_spelling (k : Keyword) : IsWord k.spelling.toList := by
  cases k <;> exact ⟨by decide, List.all_eq_true.1 rfl⟩

/-- A text of a class is what the scanner finds, if it does not go on. -/
theorem of_lexical {t : Token} (h : t.Lexical) (hk : t.kind ≠ .comment) {c : Char}
    {cs rest : List Char} (heq : t.lexeme.toList ++ rest = c :: cs)
    (hr : ∀ d ∈ rest.head?, t.admits d = true) :
    Front.of c cs = .lexeme t.kind t.lexeme.toList := by
  obtain ⟨kind, lexeme, position⟩ := t
  cases kind with
  | number => exact of_number heq h hr
  | string =>
    obtain ⟨content, hc, htext⟩ := h
    change lexeme.toList = _ at htext
    change lexeme.toList ++ rest = _ at heq
    rw [htext] at heq
    obtain ⟨rfl, rfl⟩ := List.cons.inj heq
    change Front.of '"' _ = .lexeme .string lexeme.toList
    rw [htext]
    exact of_string rfl hc
  | comment => exact absurd rfl hk
  | name =>
    have hw : wordKind lexeme.toList = .name := by
      have : Keyword.ofSpelling? lexeme = none := h.2
      simp [wordKind, this]
    exact hw ▸ of_word heq h.1 hr
  | mark m =>
    obtain rfl : lexeme = m.spelling := h
    exact of_mark m heq hr
  | keyword k =>
    obtain rfl : lexeme = k.spelling := h
    have hw : wordKind k.spelling.toList = .keyword k := by
      simp [wordKind, Keyword.ofSpelling?_spelling]
    exact hw ▸ of_word heq (isWord_spelling k) hr
  | eof => exact absurd h (by simp [Token.Lexical])

/-! ## Scanned tokens -/

theorem eq_tail_of_comment {c : Char} {cs body : List Char} (h : Front.of c cs = .comment body) :
    body = cs.tail := by
  unfold Front.of at h
  split at h
  · exact (Front.comment.inj h).symm
  split at h
  · simp at h
  split at h
  · simp at h
  split at h
  · simp at h
  split at h
  · simp at h
  · split at h <;> simp at h

theorem lexical_of {c : Char} {cs text : List Char} {kind : Kind}
    (h : Front.of c cs = .lexeme kind text) (hl : '\n' ∉ c :: cs) (position : Option Position) :
    Token.Lexical ⟨kind, String.ofList text, position⟩ := by
  unfold Front.of at h
  split at h
  · simp at h
  split at h
  · rename_i hs
    obtain ⟨rfl, rfl⟩ := Front.lexeme.inj h
    obtain ⟨content, hc, rfl⟩ := string?_eq_some hs hl
    exact ⟨content, hc, by simp⟩
  split at h
  · rename_i halpha
    obtain ⟨rfl, rfl⟩ := Front.lexeme.inj h
    have hw := isWord_word halpha cs
    unfold wordKind
    cases hk : Keyword.ofSpelling? (String.ofList (word (c :: cs))) with
    | none => exact ⟨by simpa using hw, hk⟩
    | some k =>
      have := List.find?_some hk
      exact (eq_of_beq this).symm
  split at h
  · rename_i hdigit
    obtain ⟨rfl, rfl⟩ := Front.lexeme.inj h
    change IsNumber (String.ofList _).toList
    rw [String.toList_ofList]
    exact isNumber_number hdigit cs
  split at h
  · obtain ⟨rfl, rfl⟩ := Front.lexeme.inj h
    change String.ofList _ = _
    rw [String.ofList_toList]
  · split at h <;> simp at h

end Front

namespace Token

theorem lexical_of_ofComment {position : Position} {body : List Char} {t : Token}
    (hn : '\n' ∉ body) (h : t ∈ ofComment position body) : t.Lexical := by
  unfold ofComment at h
  split at h
  · simp at h
  · rename_i hne
    obtain rfl := List.mem_singleton.1 h
    change Lexeme.IsRemark (String.ofList _).toList
    rw [String.toList_ofList]
    exact Lexeme.isRemark_trim hn hne

theorem lexical_of_scanRest {row : Nat} {line : List Char} (hl : '\n' ∉ line) :
    ∀ {column skip : Nat} {ts : List Token}, scanRest row column skip line = .ok ts →
      ∀ t ∈ ts, t.Lexical := by
  induction line with
  | nil =>
    intro column skip ts h
    rw [scanRest] at h
    obtain rfl := Except.ok.inj h
    simp
  | cons c cs ih =>
    intro column skip ts h
    have hcs : '\n' ∉ cs := fun hm => hl (List.mem_cons_of_mem _ hm)
    cases skip with
    | succ skip =>
      rw [scanRest] at h
      exact ih hcs h
    | zero =>
      rw [scanRest] at h
      split at h
      · exact ih hcs h
      · rename_i body hfront
        obtain rfl := Except.ok.inj h
        obtain rfl := Front.eq_tail_of_comment hfront
        exact fun t ht => lexical_of_ofComment (fun hm => hcs (List.mem_of_mem_tail hm)) ht
      · rename_i kind text hfront
        split at h
        · rename_i us hus
          obtain rfl := Except.ok.inj h
          intro t ht
          rcases List.mem_cons.1 ht with rfl | ht
          · exact Front.lexical_of hfront hl _
          · exact ih hcs hus t ht
        · simp at h
      · simp at h

end Token

theorem Text.not_mem_cutLines : ∀ {cs l : List Char}, l ∈ cutLines cs → '\n' ∉ l
  | [], l, h => by
    rw [cutLines, List.mem_singleton] at h
    rw [h]
    simp
  | c :: cs, l, h => by
    rw [cutLines] at h
    split at h
    · rcases List.mem_cons.1 h with rfl | h
      · simp
      · exact not_mem_cutLines h
    · rename_i hc
      split at h
      · rename_i hnil
        exact absurd hnil (cutLines_ne_nil cs)
      · rename_i l' ls hcut
        rcases List.mem_cons.1 h with rfl | h
        · intro hm
          rcases List.mem_cons.1 hm with rfl | hm
          · exact hc rfl
          · exact not_mem_cutLines (hcut ▸ List.mem_cons_self) hm
        · exact not_mem_cutLines (hcut ▸ List.mem_cons_of_mem _ h)

namespace Token

theorem lexical_of_scanLines : ∀ {lines : List (List Char)} {row : Nat} {ts : List Token},
    (∀ l ∈ lines, '\n' ∉ l) → scanLines row lines = .ok ts → ∀ t ∈ ts, t.Lexical
  | [], row, ts, _, h => by
    rw [scanLines] at h
    obtain rfl := Except.ok.inj h
    simp
  | l :: ls, row, ts, hl, h => by
    rw [scanLines] at h
    split at h
    · simp at h
    rename_i us hus
    split at h
    · simp at h
    rename_i vs hvs
    obtain rfl := Except.ok.inj h
    intro t ht
    rcases List.mem_append.1 ht with ht | ht
    · exact lexical_of_scanRest (hl l List.mem_cons_self) hus t ht
    · exact lexical_of_scanLines (fun l' h' => hl l' (List.mem_cons_of_mem _ h')) hvs t ht

theorem lexical_of_scan {source : String} {ts : List Token} (h : scan source = .ok ts) :
    ∀ t ∈ ts, t.Lexical :=
  lexical_of_scanLines (fun _ => Text.not_mem_cutLines) h

theorem Lexical.face {t : Token} (h : t.Lexical) : t.face = t.unplaced := by
  obtain ⟨kind, lexeme, position⟩ := t
  cases kind with
  | mark m =>
    obtain rfl : lexeme = m.spelling := h
    rfl
  | keyword k =>
    obtain rfl : lexeme = k.spelling := h
    rfl
  | number | string | comment | name | eof => rfl

/-- No token of a text ends the input. -/
theorem beforeEnd_of_lexical {ts : List Token} (h : ∀ t ∈ ts, t.Lexical) : beforeEnd ts = ts := by
  refine List.takeWhile_eq_self_iff.2 fun t ht => ?_
  simp only [ne_eq, decide_eq_true_eq]
  intro hk
  have := h t ht
  simp [Lexical, hk] at this

end Token

end Offside
