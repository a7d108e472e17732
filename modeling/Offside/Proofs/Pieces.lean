import Offside.Proofs.Spacing
import Mathlib.Data.List.Chain

/-!
# Texts made of pieces

A text that is put together from tokens, spaces and line breaks, where no token can be taken to go
on with the piece behind it (`Clean`). Scanning such a text gives back the tokens (`scan_textOf`),
and the text determines the pieces (`eq_of_textOf`). To see that a text is clean one goes through it
from its end: `Flows` says that pieces can be put before a clean text that starts with a character
in which no word goes on.
-/

namespace Offside

open Lexeme

inductive Piece where
  | token (t : Token)
  | space
  | newline

namespace Piece

def chars : Piece → List Char
  | token t => t.lexeme.toList
  | space => [' ']
  | newline => ['\n']

/-- A token has a text of its class, and is no comment. -/
def Sound : Piece → Prop
  | token t => t.Lexical ∧ t.kind ≠ .comment ∧ t.position = none
  | _ => True

def token? : Piece → Option Token
  | token t => some t
  | _ => none

/-- The piece does not go on with the character. -/
def admits : Piece → Char → Bool
  | token t, c => t.admits c
  | _, _ => true

/-- The second piece can stand right behind the first. -/
def Meets (p q : Piece) : Prop := ∀ c ∈ q.chars.head?, p.admits c = true

theorem Sound.ne_nil {p : Piece} (h : p.Sound) : p.chars ≠ [] := by
  cases p with
  | token t => exact h.1.ne_nil
  | space => simp [chars]
  | newline => simp [chars]

end Piece

/-- The characters of the pieces. -/
def textOf (ps : List Piece) : List Char := ps.flatMap Piece.chars

/-- The pieces are what they are taken for. -/
structure Clean (ps : List Piece) : Prop where
  sound : ∀ p ∈ ps, p.Sound
  meets : ps.IsChain Piece.Meets

theorem textOf_cons (p : Piece) (ps : List Piece) : textOf (p :: ps) = p.chars ++ textOf ps :=
  List.flatMap_cons

theorem textOf_append (ps qs : List Piece) : textOf (ps ++ qs) = textOf ps ++ textOf qs :=
  List.flatMap_append

theorem Clean.head {p : Piece} {ps : List Piece} (h : Clean (p :: ps)) : p.Sound :=
  h.sound p List.mem_cons_self

theorem Clean.tail {p : Piece} {ps : List Piece} (h : Clean (p :: ps)) : Clean ps :=
  ⟨fun q hq => h.sound q (List.mem_cons_of_mem _ hq), h.meets.tail⟩

/-- What stands behind the first piece does not go on with it. -/
theorem Clean.admits_head {p : Piece} {ps : List Piece} (h : Clean (p :: ps)) :
    ∀ c ∈ (textOf ps).head?, p.admits c = true := by
  intro c hc
  cases ps with
  | nil => simp [textOf] at hc
  | cons q ps =>
    have hq := h.tail.head.ne_nil
    rw [textOf_cons, List.head?_append_of_ne_nil _ hq] at hc
    exact (List.isChain_cons.1 h.meets).1 q rfl c hc

/-! ## Scanning -/

namespace Token

theorem unplaced_of_position {t : Token} (h : t.position = none) : t.unplaced = t := by
  obtain ⟨kind, lexeme, position⟩ := t
  obtain rfl : position = none := h
  rfl

theorem scansAs_textOf : ∀ {ps : List Piece}, Clean ps →
    ScansAs (textOf ps) (ps.filterMap Piece.token?)
  | [], _ => scansAs_nil
  | p :: ps, h => by
    have htail := scansAs_textOf h.tail
    rw [textOf_cons]
    cases p with
    | token t =>
      obtain ⟨ht, hk, -⟩ := h.head
      exact htail.token ht hk h.admits_head
    | space => exact htail.blank (c := ' ') (by decide)
    | newline => exact htail.blank (c := '\n') (by decide)

/-- Scanning a text made of pieces gives back its tokens. -/
theorem scan_textOf {ps : List Piece} (h : Clean ps) :
    ∃ ts, scan (String.ofList (textOf ps)) = .ok ts ∧
      ts.map unplaced = ps.filterMap Piece.token? := by
  obtain ⟨ts, hscan, hmap⟩ := (scansAs_textOf h).scan
  have hunplaced : (ps.filterMap Piece.token?).map unplaced = ps.filterMap Piece.token? := by
    refine (List.map_congr_left fun t ht => ?_).trans (List.map_id _)
    obtain ⟨p, hp, htoken⟩ := List.mem_filterMap.1 ht
    cases p with
    | token u =>
      obtain rfl : u = t := Option.some.inj htoken
      exact unplaced_of_position (h.sound _ hp).2.2
    | space | newline => exact absurd htoken (by simp [Piece.token?])
  exact ⟨ts, hscan, hmap.trans hunplaced⟩

end Token

/-! ## The pieces of a text -/

/-- What the scanner finds at the front of a text. -/
def Front.ofText : List Char → Front
  | [] => .stray
  | c :: cs => Front.of c (cs.takeWhile (· ≠ '\n'))

theorem Clean.front_token {t : Token} {ps : List Piece} (h : Clean (.token t :: ps)) :
    Front.ofText (textOf (.token t :: ps)) = .lexeme t.kind t.lexeme.toList := by
  obtain ⟨ht, hk, -⟩ := h.head
  obtain ⟨c, cs, hcs⟩ := List.exists_cons_of_ne_nil ht.ne_nil
  have hbreak := ht.unbroken
  have hline : (cs ++ textOf ps).takeWhile (· ≠ '\n') = cs ++ (textOf ps).takeWhile (· ≠ '\n') := by
    refine List.takeWhile_append_of_pos fun d hd => ?_
    simp only [decide_eq_true_eq]
    rintro rfl
    exact hbreak (hcs ▸ List.mem_cons_of_mem _ hd)
  have htext : textOf (.token t :: ps) = c :: (cs ++ textOf ps) := by
    rw [textOf_cons, Piece.chars, hcs, List.cons_append]
  rw [htext, Front.ofText, hline]
  refine Front.of_lexical ht hk (by rw [hcs, List.cons_append]) fun d hd => ?_
  refine h.admits_head d ?_
  cases hps : textOf ps with
  | nil => simp [hps] at hd
  | cons e es =>
    rw [hps, List.takeWhile_cons] at hd
    split at hd
    · exact hd
    · exact absurd hd (by simp)

theorem textOf_ne_nil {p : Piece} {ps : List Piece} (h : Clean (p :: ps)) :
    textOf (p :: ps) ≠ [] := by
  rw [textOf_cons]
  exact List.append_ne_nil_of_left_ne_nil h.head.ne_nil _

/-- The first piece is determined by the text. -/
theorem Clean.head_unique {p q : Piece} {ps qs : List Piece} (hp : Clean (p :: ps))
    (hq : Clean (q :: qs)) (h : textOf (p :: ps) = textOf (q :: qs)) : p = q := by
  have hblank : ∀ {r : Piece} {rs : List Piece}, Clean (r :: rs) → ∀ c : Char,
      Text.isBlank c = true → (textOf (r :: rs)).head? = some c → ∀ t, r ≠ .token t := by
    rintro r rs hr c hc hhead t rfl
    have hfront := hr.front_token
    cases htext : textOf (.token t :: rs) with
    | nil => exact absurd htext (textOf_ne_nil hr)
    | cons d ds =>
      rw [htext, List.head?_cons, Option.some.injEq] at hhead
      rw [htext, hhead, Front.ofText, Front.of_blank hc] at hfront
      exact absurd hfront (by simp)
  cases p with
  | token t =>
    cases q with
    | token u =>
      have hfront := hp.front_token
      rw [h, hq.front_token] at hfront
      obtain ⟨hk, hl⟩ := Front.lexeme.inj hfront
      rw [← Token.unplaced_of_position hp.head.2.2, ← Token.unplaced_of_position hq.head.2.2,
        Token.unplaced, Token.unplaced, hk, String.toList_inj.1 hl]
    | space => exact absurd rfl (hblank hp ' ' (by decide) (h ▸ rfl) t)
    | newline => exact absurd rfl (hblank hp '\n' (by decide) (h ▸ rfl) t)
  | space =>
    cases q with
    | token u => exact absurd rfl (hblank hq ' ' (by decide) (h ▸ rfl) u)
    | space => rfl
    | newline => exact absurd (congrArg List.head? h) (by simp [textOf_cons, Piece.chars])
  | newline =>
    cases q with
    | token u => exact absurd rfl (hblank hq '\n' (by decide) (h ▸ rfl) u)
    | space => exact absurd (congrArg List.head? h) (by simp [textOf_cons, Piece.chars])
    | newline => rfl

theorem eq_of_textOf : ∀ {ps qs : List Piece}, Clean ps → Clean qs → textOf ps = textOf qs → ps = qs
  | [], [], _, _, _ => rfl
  | [], _ :: _, _, hq, h => absurd h.symm (textOf_ne_nil hq)
  | _ :: _, [], hp, _, h => absurd h (textOf_ne_nil hp)
  | p :: ps, q :: qs, hp, hq, h => by
    obtain rfl := hp.head_unique hq h
    rw [textOf_cons, textOf_cons] at h
    rw [eq_of_textOf hp.tail hq.tail (List.append_cancel_left h)]

/-! ## Clean texts from their end -/

/-- No word or number goes on in what the pieces start with. -/
def Apart (ps : List Piece) : Prop := ∀ c ∈ (textOf ps).head?, isApart c = true

theorem apart_nil : Apart [] := by simp [Apart, textOf]

theorem apart_space (ps : List Piece) : Apart (.space :: ps) := by
  simp [Apart, textOf_cons, Piece.chars]
  decide

theorem apart_newline (ps : List Piece) : Apart (.newline :: ps) := by
  simp [Apart, textOf_cons, Piece.chars]
  decide

theorem apart_mark {m : Mark} (hm : m ≠ .dot) (ps : List Piece) : Apart (.token m.token :: ps) := by
  have hhead : m.spelling.toList.head?.all isApart = true := by
    cases m <;> first | exact absurd rfl hm | rfl
  intro c hc
  refine (Option.all_eq_true _ _).1 hhead c ?_
  obtain ⟨d, ds, hs, -⟩ := Front.spelling_toList m
  rw [textOf_cons, show (Piece.token m.token).chars = m.spelling.toList from rfl, hs] at hc
  rw [hs]
  exact hc

theorem clean_nil : Clean [] := ⟨by simp, List.isChain_nil⟩

theorem clean_cons {p : Piece} {ps : List Piece} (hp : p.Sound)
    (hm : ∀ c ∈ (textOf ps).head?, p.admits c = true) (h : Clean ps) : Clean (p :: ps) := by
  refine ⟨List.forall_mem_cons.2 ⟨hp, h.sound⟩, List.isChain_cons.2 ⟨?_, h.meets⟩⟩
  intro q hq c hc
  refine hm c ?_
  cases ps with
  | nil => exact absurd hq (by simp)
  | cons q' ps =>
    obtain rfl : q' = q := by simpa using hq
    rw [textOf_cons, List.head?_append_of_ne_nil _ h.head.ne_nil]
    exact hc

theorem clean_space {ps : List Piece} (h : Clean ps) : Clean (.space :: ps) :=
  clean_cons trivial (fun _ _ => rfl) h

theorem clean_newline {ps : List Piece} (h : Clean ps) : Clean (.newline :: ps) :=
  clean_cons trivial (fun _ _ => rfl) h

theorem sound_mark (m : Mark) : (Piece.token m.token).Sound := ⟨rfl, nofun, rfl⟩

theorem sound_keyword (k : Keyword) : (Piece.token k.token).Sound := ⟨rfl, nofun, rfl⟩

/-- A mark with which no longer one starts. -/
def Mark.isFree : Mark → Bool
  | .openBracket | .closeBracket | .openParen | .closeParen | .openBrace | .closeBrace => true
  | .comma | .dot | .minus => true
  | _ => false

theorem Mark.admits_of_isFree {m : Mark} (h : m.isFree = true) (c : Char) : m.admits c = true := by
  cases m <;> first | exact absurd h (by decide) | simp [admits, all, spelling]

theorem clean_free {m : Mark} (hm : m.isFree = true) {ps : List Piece} (h : Clean ps) :
    Clean (.token m.token :: ps) :=
  clean_cons (sound_mark m) (fun c _ => m.admits_of_isFree hm c) h

/-- Every token can stand before a space. -/
theorem clean_spaced {t : Token} (ht : (Piece.token t).Sound) {ps : List Piece} (h : Clean ps) :
    Clean (.token t :: .space :: ps) := by
  refine clean_cons ht (fun c hc => ?_) (clean_space h)
  obtain rfl : ' ' = c := by simpa [textOf_cons, Piece.chars] using hc
  exact t.admits_blank (by decide)

theorem clean_broken {t : Token} (ht : (Piece.token t).Sound) {ps : List Piece} (h : Clean ps) :
    Clean (.token t :: .newline :: ps) := by
  refine clean_cons ht (fun c hc => ?_) (clean_newline h)
  obtain rfl : '\n' = c := by simpa [textOf_cons, Piece.chars] using hc
  exact t.admits_blank (by decide)

/-- A token that is no mark can stand before a character in which no word goes on. -/
theorem clean_word {t : Token} (ht : (Piece.token t).Sound) (hk : ∀ m, t.kind ≠ .mark m)
    {ps : List Piece} (ha : Apart ps) (h : Clean ps) : Clean (.token t :: ps) := by
  refine clean_cons ht (fun c hc => ?_) h
  obtain ⟨kind, lexeme, position⟩ := t
  cases kind with
  | mark m => exact absurd rfl (hk m)
  | number | name | keyword => exact ha c hc
  | string | comment | eof => rfl

/-- The pieces can be put before a clean text that starts apart. -/
def Flows (ps : List Piece) : Prop := ∀ qs, Clean qs → Apart qs → Clean (ps ++ qs)

theorem flows_nil : Flows [] := fun _ h _ => h

theorem flows_word {t : Token} (ht : (Piece.token t).Sound) (hk : ∀ m, t.kind ≠ .mark m) :
    Flows [.token t] := fun _ h ha => clean_word ht hk ha h

/-- Pieces in marks that open and close. -/
theorem Flows.enclosed {ps : List Piece} (hps : Flows ps) {m n : Mark} (hm : m.isFree = true)
    (hn : n.isFree = true) (hd : n ≠ .dot) :
    Flows (.token m.token :: (ps ++ [.token n.token])) := by
  intro qs h ha
  rw [List.cons_append, List.append_assoc, List.singleton_append]
  exact clean_free hm (hps _ (clean_free hn h) (apart_mark hd qs))

/-- Behind a mark with which no longer one starts, any clean text can stand. -/
theorem Clean.append_free {ps qs : List Piece} {m : Mark} (h : Clean (ps ++ [.token m.token]))
    (hm : m.isFree = true) (hq : Clean qs) : Clean (ps ++ .token m.token :: qs) := by
  rw [List.append_cons]
  refine ⟨fun p hp => ?_, h.meets.append hq.meets fun x hx y _ c _ => ?_⟩
  · rcases List.mem_append.1 hp with hp | hp
    · exact h.sound p hp
    · exact hq.sound p hp
  · obtain rfl : Piece.token m.token = x := by simpa using hx
    exact m.admits_of_isFree hm c

end Offside
