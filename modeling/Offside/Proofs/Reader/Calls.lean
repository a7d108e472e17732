import Offside.Proofs.Grammatical
import Offside.Proofs.Reader.Refines

/-!
# A reader asked again and again

A reader that is asked for a program any number of times always answers, as `Block.readings` says it
does (`programs_ofTokens`). A call that fails has taken a token, and one that succeeds has taken all
of them, so after as many calls as there are tokens nothing is left to be read, and each further
call gives the empty program.
-/

namespace Offside

namespace Token

/-- The index of the first token that says that the input has ended. -/
def firstEnd (ts : List Token) : Nat := ts.findIdx (·.kind = .eof)

theorem length_beforeEnd (ts : List Token) : (beforeEnd ts).length = firstEnd ts := by
  have hnot : (fun t : Token => !decide (t.kind ≠ .eof)) = fun t => decide (t.kind = .eof) := by
    simp
  rw [beforeEnd, List.takeWhile_eq_take_findIdx_not, hnot, List.length_take, firstEnd]
  exact Nat.min_eq_left List.findIdx_le_length

theorem beforeEnd_ended (ts : List Token) : beforeEnd (ended ts) = beforeEnd ts := by
  rw [ended]
  split
  · rfl
  · rw [beforeEnd, List.takeWhile_append]
    split
    · rename_i hall
      have hwhole : beforeEnd ts = ts := (List.takeWhile_prefix _).eq_of_length hall
      rw [hwhole]
      simp [sentinel]
    · rfl

theorem firstEnd_ended_lt (ts : List Token) : firstEnd (ended ts) < (ended ts).length := by
  rw [firstEnd, List.findIdx_lt_length, ended]
  split
  · rename_i hlast
    cases hl : ts.getLast? with
    | none => simp [hl] at hlast
    | some t => exact ⟨t, List.mem_of_getLast? hl, by simpa [hl] using hlast⟩
  · exact ⟨sentinel, by simp, by simp [sentinel]⟩

end Token

namespace Grammar

variable {n : Nat} {ts : List Token}

/-- Reading takes a token if there is one, whatever comes of it. -/
theorem length_rest_program (hn : 0 < n) (ts : List Token) :
    (program n ts).rest.length ≤ ts.length - 1 := by
  obtain ⟨m, rfl⟩ := Nat.exists_eq_add_one.2 hn
  cases ts with
  | nil => exact Nat.zero_le _
  | cons t ts => exact (advances_program m t ts).length_le

theorem rest_of_result_ok {b : Block} (h : (program n ts).result = .ok b) :
    (program n ts).rest = [] := by
  cases hp : program n ts with
  | halted e => simp [hp, Outcome.result] at h
  | done b rest => exact rest_of_program_done hp

theorem ne_nil_of_result_error {f : Fault} (h : (program n ts).result = .error f) : ts ≠ [] := by
  rintro rfl
  exact nomatch h

end Grammar

theorem Block.resume_nil (limit : Nat) : ∀ calls, resume limit calls [] = .replicate calls (.ok [])
  | 0 => rfl
  | calls + 1 => congrArg _ (resume_nil limit calls)

namespace Reader

theorem sound_ofTokens (ts : List Token) : (ofTokens ts).Sound where
  ended := by
    rw [Token.length_beforeEnd]
    exact Token.firstEnd_ended_lt ts
  steps := List.isChain_singleton _
  cursor_le := by simp [trail, ofTokens]
  depth_le := by simp [trail, ofTokens]

theorem pending_ofTokens (ts : List Token) : (ofTokens ts).pending = Token.beforeEnd ts :=
  Token.beforeEnd_ended ts

theorem Sound.ordered {r : Reader} (h : r.Sound) :
    (r.trail.map Moment.cursor).Pairwise (· ≥ ·) := by
  have hsteps : (r.trail.map Moment.cursor).IsChain (· ≥ ·) := by
    refine (List.isChain_map _).2 (h.steps.imp fun later earlier hs => ?_)
    cases hs <;> simp
  exact hsteps.pairwise

theorem Sound.length_pending {r : Reader} (h : r.Sound) :
    r.now.cursor + r.pending.length = Token.firstEnd r.tokens := by
  have hle := h.cursor_le r.now List.mem_cons_self
  rw [pending, List.length_drop, ← Token.length_beforeEnd]
  omega

/-- One call of a reader that is not in the middle of reading. -/
theorem agrees_program {r : Reader} (h : r.Sound) (hd : r.now.depth = 0) :
    Agrees r (Grammar.program maxNesting r.pending) program :=
  refines_program maxNesting _ r h (by rw [hd, Nat.zero_add]) rfl

/-- Any number of calls of a reader that is not in the middle of reading. -/
theorem programs_eq (calls : Nat) {r : Reader} (h : r.Sound) (hd : r.now.depth = 0) :
    ∃ r' enough, (∀ steps, enough ≤ steps →
        programs steps calls r = some (Block.resume maxNesting calls r.pending, r')) ∧
      Follows r r' ∧ r'.pending.length ≤ r.pending.length - calls := by
  induction calls generalizing r with
  | zero => exact ⟨r, 0, fun _ _ => rfl, .refl h, le_rfl⟩
  | succ calls ih =>
    obtain ⟨r₁, enough₁, hcall, hfollows, hrest⟩ := agrees_program h hd
    obtain ⟨r₂, enough₂, hcalls, hfollows', hlen⟩ := ih hfollows.sound (hfollows.depth.trans hd)
    refine ⟨r₂, enough₁ + enough₂, fun steps hs => ?_, hfollows.trans hfollows', ?_⟩
    · rw [programs, hcall steps (by omega), Block.resume, ← hrest]
      show (programs steps calls r₁).bind _ = _
      rw [hcalls steps (by omega)]
      rfl
    · have hlen₁ := Grammar.length_rest_program (by decide : 0 < maxNesting) r.pending
      rw [← hrest] at hlen₁
      omega

/-- What a call does to a reader. Its trail has all the moments of all the calls so far: from each
to the next, one token is taken, or one level opened or closed. -/
structure Called (r : Reader) (result : Except Fault Block) (r' : Reader) : Prop where
  tokens : r'.tokens = r.tokens
  trail : r.trail <:+ r'.trail
  steps : r'.trail.IsChain fun later earlier => Moment.Step earlier later
  depth_before : r.now.depth = 0
  depth_after : r'.now.depth = 0
  depth_le : ∀ m ∈ r'.trail, m.depth ≤ maxNesting
  cursor_ordered : (r'.trail.map Moment.cursor).Pairwise (· ≥ ·)
  cursor_valid : ∀ m ∈ r'.trail, m.cursor < r'.tokens.length
  cursor_le : ∀ m ∈ r'.trail, m.cursor ≤ Token.firstEnd r'.tokens
  error : ∀ f, result = .error f → r.now.cursor < r'.now.cursor
  ok : ∀ b, result = .ok b → r'.now.cursor = Token.firstEnd r'.tokens ∧
    ∀ more, ∃ r'' enough, ∀ steps, enough ≤ steps →
      programs steps more r' = some (.replicate more (.ok []), r'')

theorem called_program {r : Reader} (h : r.Sound) (hd : r.now.depth = 0) :
    ∃ result r' enough, (∀ steps, enough ≤ steps → program steps r = some (result, r')) ∧
      Called r result r' ∧ (r.pending = [] → result = .ok []) := by
  obtain ⟨r', enough, hcall, hfollows, hrest⟩ := agrees_program h hd
  have hd' : r'.now.depth = 0 := hfollows.depth.trans hd
  have hbounds : ∀ m ∈ r'.trail, m.cursor ≤ Token.firstEnd r'.tokens := by
    rw [← Token.length_beforeEnd]
    exact hfollows.sound.cursor_le
  have hend : Token.firstEnd r'.tokens < r'.tokens.length := by
    rw [← Token.length_beforeEnd]
    exact hfollows.sound.ended
  have hbefore := h.length_pending
  have hafter := hfollows.sound.length_pending
  rw [hfollows.tokens] at hafter
  refine ⟨_, r', enough, hcall, ⟨hfollows.tokens, hfollows.trail, hfollows.sound.steps, hd, hd',
    hfollows.sound.depth_le, hfollows.sound.ordered, fun m hm => (hbounds m hm).trans_lt hend,
    hbounds, ?_, ?_⟩, ?_⟩
  · intro f hf
    have hlen := Grammar.length_rest_program (by decide : 0 < maxNesting) r.pending
    have hpos := List.length_pos_of_ne_nil (Grammar.ne_nil_of_result_error hf)
    rw [← hrest] at hlen
    omega
  · intro b hb
    have hnil : r'.pending = [] := hrest.trans (Grammar.rest_of_result_ok hb)
    refine ⟨by rw [hfollows.tokens, ← hafter, hnil, List.length_nil, Nat.add_zero], fun more => ?_⟩
    obtain ⟨r'', enough', hmore, -⟩ := programs_eq more hfollows.sound hd'
    exact ⟨r'', enough', fun steps hs => by rw [hmore steps hs, hnil, Block.resume_nil]⟩
  · intro hp
    rw [hp]
    rfl

/-- A reader that is given steps enough answers every call. With the tokens as they were, no level
open before and after it and never too many in between, a call moves the cursor forward only, up to
the first token that says that the input has ended: at least by one token if it fails, and all the
way if it succeeds. From then on, and after as many calls as there are tokens to be read at the
latest, calls give the empty program. What comes of the calls depends on nothing behind that
token. -/
theorem programs_ofTokens (ts : List Token) (calls : Nat) :
    ∃ r result r' enough,
      (∀ steps, enough ≤ steps →
        programs steps calls (ofTokens ts) = some (Block.readings maxNesting calls ts, r) ∧
        program steps r = some (result, r')) ∧
      r.tokens = Token.ended ts ∧ Called r result r' ∧
      (Token.firstEnd (Token.ended ts) ≤ calls → result = .ok []) ∧
      ∀ us, Token.beforeEnd us = Token.beforeEnd ts → ∃ s enough, ∀ steps, enough ≤ steps →
        programs steps calls (ofTokens us) = some (Block.readings maxNesting calls ts, s) := by
  have hprograms : ∀ us, Token.beforeEnd us = Token.beforeEnd ts →
      ∃ s enough, (∀ steps, enough ≤ steps →
          programs steps calls (ofTokens us) = some (Block.readings maxNesting calls ts, s)) ∧
        Follows (ofTokens us) s ∧ s.pending.length ≤ (Token.beforeEnd ts).length - calls := by
    intro us hus
    obtain ⟨s, enough, hs, hfollows, hlen⟩ := programs_eq calls (sound_ofTokens us) rfl
    rw [pending_ofTokens, hus] at hs hlen
    exact ⟨s, enough, hs, hfollows, hlen⟩
  obtain ⟨r, enough₁, hr, hfollows, hlen⟩ := hprograms ts rfl
  obtain ⟨result, r', enough₂, hcall, hcalled, hempty⟩ :=
    called_program hfollows.sound hfollows.depth
  refine ⟨r, result, r', enough₁ + enough₂,
    fun steps hs => ⟨hr steps (by omega), hcall steps (by omega)⟩, hfollows.tokens, hcalled,
    fun hn => hempty ?_, fun us hus => ?_⟩
  · rw [← Token.length_beforeEnd, Token.beforeEnd_ended] at hn
    exact List.length_eq_zero_iff.1 (by omega)
  · obtain ⟨s, enough, hs, -⟩ := hprograms us hus
    exact ⟨s, enough, hs⟩

end Reader

end Offside
