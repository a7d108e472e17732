import Offside.Grammar.Progress
import Offside.Proofs.Reader.Basic
import Mathlib.Data.List.Chain
import Mathlib.Data.List.TakeWhile

/-!
# The reader follows the rules

A reader in order has its cursor on one of its tokens, at most at the first that says that the input
has ended, and as many levels open as are allowed, at most; so it was at every moment of its trail.
What it does then is what the rule of the same name does with the tokens still to be read
(`refines_program`): given steps enough it comes to the same result, has the tokens left that the
rule leaves, and as many levels open as before.

An action that runs with `n` levels left refines a rule of `n` levels. The loops of the reader are
repetitions of the rules by `refines_loop`: an item that is read takes a token, so the induction is
on the number of tokens to be read.
-/

namespace Offside

/-- What can happen from one moment to the next. -/
inductive Moment.Step : Moment → Moment → Prop where
  | take (cursor depth : Nat) : Step ⟨cursor, depth⟩ ⟨cursor + 1, depth⟩
  | enter (cursor depth : Nat) : Step ⟨cursor, depth⟩ ⟨cursor, depth + 1⟩
  | leave (cursor depth : Nat) : Step ⟨cursor, depth + 1⟩ ⟨cursor, depth⟩

namespace Token

variable {ts : List Token} {i : Nat}

theorem getElem?_of_drop_beforeEnd {t : Token} {us : List Token}
    (h : (beforeEnd ts).drop i = t :: us) : ts[i]? = some t ∧ t.kind ≠ .eof := by
  have hi : (beforeEnd ts)[i]? = some t := by rw [← List.head?_drop, h, List.head?_cons]
  have hsplit : beforeEnd ts ++ ts.dropWhile (·.kind ≠ .eof) = ts := List.takeWhile_append_dropWhile
  constructor
  · rw [← hsplit, List.getElem?_append_left (List.getElem?_eq_some_iff.1 hi).1, hi]
  · simpa using List.mem_takeWhile_imp (List.mem_of_getElem? hi)

theorem getElem?_length_beforeEnd (h : (beforeEnd ts).length < ts.length) :
    ∃ t, ts[(beforeEnd ts).length]? = some t ∧ t.kind = .eof := by
  have hsplit : beforeEnd ts ++ ts.dropWhile (·.kind ≠ .eof) = ts := List.takeWhile_append_dropWhile
  cases hd : ts.dropWhile (·.kind ≠ .eof) with
  | nil =>
    rw [hd, List.append_nil] at hsplit
    rw [hsplit] at h
    exact absurd h (lt_irrefl _)
  | cons t us =>
    have hnot := List.head?_dropWhile_not (fun t : Token => decide (t.kind ≠ .eof)) ts
    rw [hd] at hnot
    have ht : (beforeEnd ts ++ t :: us)[(beforeEnd ts).length]? = some t := by simp
    rw [← hd, hsplit] at ht
    exact ⟨t, ht, by simpa using hnot⟩

/-- A complaint about the token is one about the first of the given ones. -/
def Represents (t : Token) (site : List Token) : Prop := ∀ c : Complaint, c.fault [t] = c.fault site

theorem represents_cons (t : Token) (ts : List Token) : t.Represents (t :: ts) := fun _ => rfl

theorem represents_nil {t : Token} (h : t.kind = .eof) : t.Represents [] := by
  intro c
  simp [Complaint.fault, place?, h]

end Token

namespace Reader

variable {α β : Type}

/-- The tokens that are still to be read. -/
def pending (r : Reader) : List Token := (Token.beforeEnd r.tokens).drop r.now.cursor

/-- The reader is in order, and always was. -/
structure Sound (r : Reader) : Prop where
  ended : (Token.beforeEnd r.tokens).length < r.tokens.length
  steps : r.trail.IsChain fun later earlier => Moment.Step earlier later
  cursor_le : ∀ m ∈ r.trail, m.cursor ≤ (Token.beforeEnd r.tokens).length
  depth_le : ∀ m ∈ r.trail, m.depth ≤ maxNesting

theorem Sound.become {r : Reader} (h : r.Sound) {m : Moment} (hs : Moment.Step r.now m)
    (hc : m.cursor ≤ (Token.beforeEnd r.tokens).length) (hd : m.depth ≤ maxNesting) :
    (r.become m).Sound where
  ended := h.ended
  steps := List.isChain_cons_cons.2 ⟨hs, h.steps⟩
  cursor_le := List.forall_mem_cons.2 ⟨hc, h.cursor_le⟩
  depth_le := List.forall_mem_cons.2 ⟨hd, h.depth_le⟩

theorem Sound.next_of_nil {r : Reader} (h : r.Sound) (hp : r.pending = []) :
    ∃ t, r.next? = some t ∧ t.kind = .eof := by
  have hge : (Token.beforeEnd r.tokens).length ≤ r.now.cursor := List.drop_eq_nil_iff.1 hp
  have hle := h.cursor_le r.now List.mem_cons_self
  have heq : r.now.cursor = (Token.beforeEnd r.tokens).length := le_antisymm hle hge
  rw [next?, heq]
  exact Token.getElem?_length_beforeEnd h.ended

theorem next_of_cons {r : Reader} {t : Token} {ts : List Token} (hp : r.pending = t :: ts) :
    r.next? = some t ∧ t.kind ≠ .eof := Token.getElem?_of_drop_beforeEnd hp

/-- The reader `r'` comes after `r`, with the same levels open. -/
structure Follows (r r' : Reader) : Prop where
  sound : r'.Sound
  tokens : r'.tokens = r.tokens
  depth : r'.now.depth = r.now.depth
  trail : r.trail <:+ r'.trail

theorem Follows.refl {r : Reader} (h : r.Sound) : Follows r r := ⟨h, rfl, rfl, List.suffix_rfl⟩

theorem Follows.trans {r r' r'' : Reader} (h : Follows r r') (h' : Follows r' r'') :
    Follows r r'' where
  sound := h'.sound
  tokens := h'.tokens.trans h.tokens
  depth := h'.depth.trans h.depth
  trail := h.trail.trans h'.trail

/-- From some number of steps on, what the reader does agrees with what came of a rule. -/
def Agrees (r : Reader) (o : Outcome α) (a : Nat → Action α) : Prop :=
  ∃ r' enough, (∀ steps, enough ≤ steps → a steps r = some (o.result, r')) ∧ Follows r r' ∧
    r'.pending = o.rest

/-- Where the next token is `next`, the action does what the rule does, `n` levels being left. -/
def RefinesAt (n : Nat) (next : Option Token) (a : Nat → Action α) (o : Rule α) : Prop :=
  ∀ r : Reader, r.Sound → r.now.depth + n = maxNesting → r.pending.head? = next →
    Agrees r (o r.pending) a

/-- The action does what the rule does, `n` levels being left. -/
def Refines (n : Nat) (a : Nat → Action α) (o : Rule α) : Prop := ∀ next, RefinesAt n next a o

/-- An action that, from some number of steps on, goes on as another does from a later reader. -/
theorem Agrees.from {r r' : Reader} {o : Outcome α} {a b : Nat → Action α} (h : Agrees r' o b)
    (hf : Follows r r') (enough : Nat) (he : ∀ steps, enough ≤ steps → a steps r = b steps r') :
    Agrees r o a := by
  obtain ⟨r'', enough', hb, hf', hp⟩ := h
  refine ⟨r'', enough + enough', fun steps hs => ?_, hf.trans hf', hp⟩
  rw [he steps (by omega), hb steps (by omega)]

/-- What a halt counts as read makes no difference to the reader. -/
theorem Agrees.recording {r : Reader} {o : Rule α} {ts : List Token} {a : Nat → Action α}
    (h : Agrees r (o ts) a) (before : Block) : Agrees r (Rule.recording before o ts) a := by
  obtain ⟨r', enough, ha, hf, hp⟩ := h
  refine ⟨r', enough, fun steps hs => ?_, hf, by rw [Rule.rest_recording, hp]⟩
  rw [ha steps hs, Rule.recording]
  cases o ts <;> rfl

theorem bind_of_ok {a : Action α} {r r' : Reader} {x : α} (f : α → Action β)
    (h : a r = some (.ok x, r')) : (a >>= f) r = f x r' := by
  show (a r).bind _ = _
  rw [h]
  rfl

theorem bind_of_error {a : Action α} {r r' : Reader} {e : Fault} (f : α → Action β)
    (h : a r = some (.error e, r')) : (a >>= f) r = some (.error e, r') := by
  show (a r).bind _ = _
  rw [h]
  rfl

section Actions

variable {n : Nat} {next : Option Token}

/-- An action that needs no steps. -/
theorem refines_of_exists {a : Action α} {o : Rule α}
    (h : ∀ r : Reader, r.Sound → ∃ r', a r = some ((o r.pending).result, r') ∧ Follows r r' ∧
      r'.pending = (o r.pending).rest) : Refines n (fun _ => a) o := by
  intro next r hr _ _
  obtain ⟨r', ha, hfollows, hrest⟩ := h r hr
  exact ⟨r', 0, fun _ _ => ha, hfollows, hrest⟩

theorem refines_pure (x : α) : Refines n (fun _ => pure x) (pure x) :=
  refines_of_exists fun r hr => ⟨r, rfl, .refl hr, rfl⟩

theorem refinesAt_pure (x : α) : RefinesAt n next (fun _ => pure x) (pure x) := refines_pure x next

theorem refinesAt_bind {a : Nat → Action α} {o : Rule α} {f : Nat → α → Action β}
    {g : α → Rule β} (h : RefinesAt n next a o)
    (hf : ∀ x, Refines n (fun steps => f steps x) (g x)) :
    RefinesAt n next (fun steps => a steps >>= f steps) (o >>= g) := by
  intro r hr hd hp
  obtain ⟨r', enough, ha, hfollows, hrest⟩ := h r hr hd hp
  rw [Rule.bind_apply]
  cases ho : o r.pending with
  | halted e =>
    rw [ho] at ha hrest
    exact ⟨r', enough, fun steps hs => bind_of_error _ (ha steps hs), hfollows, hrest⟩
  | done x rest =>
    rw [ho] at ha hrest
    replace hrest : r'.pending = rest := hrest
    have hthen := hf x _ r' hfollows.sound (hfollows.depth ▸ hd) rfl
    rw [hrest] at hthen
    exact hthen.from hfollows enough fun steps hs => bind_of_ok _ (ha steps hs)

theorem refines_bind {a : Nat → Action α} {o : Rule α} {f : Nat → α → Action β} {g : α → Rule β}
    (h : Refines n a o) (hf : ∀ x, Refines n (fun steps => f steps x) (g x)) :
    Refines n (fun steps => a steps >>= f steps) (o >>= g) :=
  fun next => refinesAt_bind (h next) hf

/-- One step more makes no difference in the end. -/
theorem refines_succ {a b : Nat → Action α} {o : Rule α} (hb : ∀ steps, b (steps + 1) = a steps)
    (h : Refines n a o) : Refines n b o := by
  intro next r hr hd hp
  obtain ⟨r', enough, ha, hfollows, hrest⟩ := h next r hr hd hp
  refine ⟨r', enough + 1, fun steps hs => ?_, hfollows, hrest⟩
  obtain ⟨steps, rfl⟩ := Nat.exists_eq_add_of_lt (Nat.lt_of_succ_le hs)
  show b (enough + steps + 1) r = _
  rw [hb]
  exact ha _ (Nat.le_add_right _ _)

theorem refines_failAt {t : Token} {site : List Token} (h : t.Represents site) (c : Complaint) :
    Refines n (fun _ => (failAt c t : Action α)) (Rule.haltAt c site) := by
  refine refines_of_exists fun r hr => ⟨r, ?_, .refl hr, rfl⟩
  show some (Except.error (c.fault [t]), r) = some (Except.error (c.fault site), r)
  rw [h c]

theorem refines_recording (before : Block) {a : Nat → Action α} {o : Rule α} (h : Refines n a o) :
    Refines n a (Rule.recording before o) :=
  fun next r hr hd hp => (h next r hr hd hp).recording before

theorem peek_of_next {r : Reader} {t : Token} (h : r.next? = some t) :
    peek r = some (.ok t, r) := by
  show (r.next?).bind _ = _
  rw [h]
  rfl

theorem nextIs_of_next {r : Reader} {t : Token} (k : Kind) (h : r.next? = some t) :
    nextIs k r = some (.ok (decide (t.kind = k)), r) := bind_of_ok _ (peek_of_next h)

/-- Looking at the next token, where the rule looks at its kind. -/
theorem refines_peek {f : Nat → Token → Action β} {g : Option Kind → Rule β}
    (hend : ∀ t, t.kind = .eof → RefinesAt n none (fun steps => f steps t) (g none))
    (h : ∀ t, t.kind ≠ .eof → RefinesAt n (some t) (fun steps => f steps t) (g (some t.kind))) :
    Refines n (fun steps => peek >>= f steps) (Rule.peek >>= g) := by
  intro next r hr hd _
  rw [Rule.bind_of_done g (show Rule.peek r.pending = _ from rfl)]
  cases hp : r.pending with
  | nil =>
    obtain ⟨t, ht, hk⟩ := hr.next_of_nil hp
    have hthen := hend t hk r hr hd (by rw [hp, List.head?_nil])
    rw [hp] at hthen
    exact hthen.from (.refl hr) 0 fun steps _ => bind_of_ok _ (peek_of_next ht)
  | cons t ts =>
    obtain ⟨ht, hk⟩ := next_of_cons hp
    have hthen := h t hk r hr hd (by rw [hp, List.head?_cons])
    rw [hp] at hthen
    exact hthen.from (.refl hr) 0 fun steps _ => bind_of_ok _ (peek_of_next ht)

/-- Looking at the next token, where the rule keeps all tokens to complain about the first. -/
theorem refines_pending {f : Nat → Token → Action β} {g : List Token → Rule β}
    (h : ∀ t site, t.Represents site → Refines n (fun steps => f steps t) (g site)) :
    Refines n (fun steps => peek >>= f steps) (Rule.pending >>= g) := by
  intro next r hr hd _
  rw [Rule.bind_of_done g (show Rule.pending r.pending = _ from rfl)]
  obtain ⟨t, ht, hsite⟩ : ∃ t, r.next? = some t ∧ t.Represents r.pending := by
    cases hp : r.pending with
    | nil =>
      obtain ⟨t, ht, hk⟩ := hr.next_of_nil hp
      exact ⟨t, ht, Token.represents_nil hk⟩
    | cons t ts => exact ⟨t, (next_of_cons hp).1, Token.represents_cons t ts⟩
  have hthen := h t r.pending hsite _ r hr hd rfl
  exact hthen.from (.refl hr) 0 fun steps _ => bind_of_ok _ (peek_of_next ht)

theorem Sound.nextIs_eq {r : Reader} (hr : r.Sound) {k : Kind} (hk : k ≠ .eof) :
    nextIs k r = some (.ok (r.pending.head?.map Token.kind == some k), r) := by
  cases hp : r.pending with
  | nil =>
    obtain ⟨t, ht, heof⟩ := hr.next_of_nil hp
    have hne : t.kind ≠ k := fun h => hk (h ▸ heof)
    rw [nextIs_of_next k ht, decide_eq_false hne]
    rfl
  | cons t ts =>
    rw [nextIs_of_next k (next_of_cons hp).1]
    by_cases h : t.kind = k <;> simp [h]

theorem refines_isNext {k : Kind} (hk : k ≠ .eof) :
    Refines n (fun _ => nextIs k) (Rule.nextIs k) :=
  refines_of_exists fun r hr => ⟨r, hr.nextIs_eq hk, .refl hr, rfl⟩

/-- Asking for the kind of the next token, which is known where the answer is yes. -/
theorem refines_nextIs {k : Kind} (hk : k ≠ .eof) {f : Nat → Bool → Action β} {g : Bool → Rule β}
    (hyes : ∀ t, RefinesAt n (some t) (fun steps => f steps true) (g true))
    (hno : Refines n (fun steps => f steps false) (g false)) :
    Refines n (fun steps => nextIs k >>= f steps) (Rule.nextIs k >>= g) := by
  intro next r hr hd _
  have hthen : Agrees r (g (r.pending.head?.map Token.kind == some k) r.pending)
      fun steps => f steps (r.pending.head?.map Token.kind == some k) := by
    cases hb : r.pending.head?.map Token.kind == some k with
    | false => exact hno _ r hr hd rfl
    | true =>
      obtain ⟨t, ht, -⟩ := Option.map_eq_some_iff.1 (beq_iff_eq.1 hb)
      exact hyes t r hr hd ht
  rw [Rule.bind_of_done g (show Rule.nextIs k r.pending = _ from rfl)]
  exact hthen.from (.refl hr) 0 fun steps _ => bind_of_ok _ (hr.nextIs_eq hk)

/-- The end of the input is where the next token says so. -/
theorem refines_atEnd : Refines n (fun _ => nextIs .eof) Rule.atEnd := by
  refine refines_of_exists fun r hr => ⟨r, ?_, .refl hr, rfl⟩
  cases hp : r.pending with
  | nil =>
    obtain ⟨t, ht, heof⟩ := hr.next_of_nil hp
    rw [nextIs_of_next _ ht, decide_eq_true heof]
    rfl
  | cons t ts =>
    obtain ⟨ht, hk⟩ := next_of_cons hp
    rw [nextIs_of_next _ ht, decide_eq_false hk]
    rfl

theorem take_of_eof {r : Reader} {t : Token} (h : r.next? = some t) (hk : t.kind = .eof) :
    take r = some (.ok t, r) := by
  show (r.next?).bind _ = _
  rw [h, Option.bind_some, if_pos hk]
  rfl

/-- Taking a token that is there. -/
theorem exists_take {r : Reader} (hr : r.Sound) {t : Token} {ts : List Token}
    (hp : r.pending = t :: ts) :
    ∃ r', take r = some (.ok t, r') ∧ Follows r r' ∧ r'.pending = ts := by
  obtain ⟨ht, hk⟩ := next_of_cons hp
  have hlt : r.now.cursor < (Token.beforeEnd r.tokens).length := by
    rw [← List.drop_eq_nil_iff.not.trans Nat.not_le]
    exact fun h => List.cons_ne_nil t ts (hp ▸ h)
  refine ⟨r.become ⟨r.now.cursor + 1, r.now.depth⟩, ?_, ⟨?_, rfl, rfl, List.suffix_cons _ _⟩, ?_⟩
  · show (r.next?).bind _ = _
    rw [ht, Option.bind_some, if_neg hk]
    rfl
  · exact hr.become (.take _ _) hlt (hr.depth_le r.now List.mem_cons_self)
  · have htail : ((Token.beforeEnd r.tokens).drop r.now.cursor).tail = ts := congrArg List.tail hp
    rwa [List.tail_drop] at htail

theorem refinesAt_take {t : Token} {f : Nat → Token → Action β} {g : Token → Rule β}
    (h : Refines n (fun steps => f steps t) (g t)) :
    RefinesAt n (some t) (fun steps => take >>= f steps) (Rule.take >>= g) := by
  intro r hr hd hhead
  obtain ⟨ts, hp⟩ := List.head?_eq_some_iff.1 hhead
  obtain ⟨r', ha, hfollows, rfl⟩ := exists_take hr hp
  have hthen := h _ r' hfollows.sound (hfollows.depth ▸ hd) rfl
  rw [hp, Rule.bind_of_done g (show Rule.take (t :: _) = _ from rfl)]
  exact hthen.from hfollows 0 fun steps _ => bind_of_ok _ ha

/-- Taking a token where there may be none. The reader goes on with the one that says so, and must
complain about it. -/
theorem refines_take {f : Nat → Token → Action β} {g : List Token → Token → Rule β}
    (hend : ∀ t, t.kind = .eof → ∃ c, ∀ steps, f steps t = failAt c t)
    (h : ∀ t site, t.Represents site → Refines n (fun steps => f steps t) (g site t)) :
    Refines n (fun steps => take >>= f steps)
      (Rule.pending >>= fun site => Rule.take >>= g site) := by
  intro next r hr hd hhead
  rw [Rule.bind_of_done _ (show Rule.pending r.pending = _ from rfl)]
  cases hp : r.pending with
  | nil =>
    obtain ⟨t, ht, heof⟩ := hr.next_of_nil hp
    obtain ⟨c, hc⟩ := hend t heof
    refine ⟨r, 0, fun steps _ => ?_, .refl hr, hp⟩
    show (take >>= f steps) r = _
    rw [bind_of_ok _ (take_of_eof ht heof), hc]
    show some (Except.error (c.fault [t]), r) = _
    rw [Token.represents_nil heof c]
    rfl
  | cons t ts =>
    rw [← hp]
    refine refinesAt_take (g := g r.pending) (h t _ ?_) r hr hd (by rw [hp, List.head?_cons])
    exact hp ▸ Token.represents_cons t ts

theorem refines_expect (m : Mark) : Refines n (fun _ => expect m) (Rule.expect m) := by
  refine refines_of_exists fun r hr => ?_
  cases hp : r.pending with
  | nil =>
    obtain ⟨t, ht, heof⟩ := hr.next_of_nil hp
    have hne : ¬ t.kind = .mark m := by simp [heof]
    refine ⟨r, ?_, .refl hr, hp⟩
    rw [expect, bind_of_ok _ (take_of_eof ht heof), if_neg hne]
    show some (Except.error ((Complaint.missing m).fault [t]), r) = _
    rw [Token.represents_nil heof]
    rfl
  | cons t ts =>
    obtain ⟨r', ha, hfollows, hrest⟩ := exists_take hr hp
    rw [Rule.expect, expect, bind_of_ok _ ha]
    by_cases hm : t.kind = .mark m
    · rw [if_pos hm, if_pos hm]
      exact ⟨r', rfl, hfollows, hrest⟩
    · rw [if_neg hm, if_neg hm]
      exact ⟨r', rfl, hfollows, hrest⟩

/-- Taking the next token if it is of the given kind. -/
theorem refines_accept {k : Kind} (hk : k ≠ .eof) {a b : Nat → Action β} {o o' : Rule β}
    (hyes : Refines n a o) (hno : Refines n b o') :
    Refines n
      (fun steps => nextIs k >>= fun found => if found then take >>= fun _ => a steps else b steps)
      (Rule.accept k >>= fun found => if found then o else o') := by
  have heq : (Rule.accept k >>= fun found => if found then o else o')
      = Rule.nextIs k >>= fun found => if found then Rule.take >>= fun _ => o else o' := by
    funext ts
    cases ts with
    | nil => rfl
    | cons t ts =>
      by_cases h : t.kind = k <;>
        simp [Rule.bind_apply, Rule.accept, Rule.nextIs, Rule.take, h]
  rw [heq]
  refine refines_nextIs hk (fun t => ?_) hno
  exact refinesAt_take (g := fun _ => o) hyes

/-! ## Levels -/

theorem refinesAt_nested {a : Nat → Action α} {o : Rule α} (h : RefinesAt n next a o) :
    RefinesAt (n + 1) next (fun steps => nested (a steps)) o := by
  intro r hr hd hp
  have hlt : r.now.depth < maxNesting := by omega
  have hcursor := hr.cursor_le r.now List.mem_cons_self
  have hin : (r.become ⟨r.now.cursor, r.now.depth + 1⟩).Sound := hr.become (.enter _ _) hcursor hlt
  obtain ⟨r', enough, ha, hfollows, hrest⟩ := h _ hin (by simp only [become]; omega) hp
  have hdepth : r'.now.depth = r.now.depth + 1 := hfollows.depth
  have hstep : Moment.Step r'.now ⟨r'.now.cursor, r'.now.depth - 1⟩ := by
    rw [show r'.now = ⟨r'.now.cursor, r.now.depth + 1⟩ from hdepth ▸ rfl]
    exact .leave _ _
  refine ⟨r'.become ⟨r'.now.cursor, r'.now.depth - 1⟩, enough, fun steps hs => ?_,
    ⟨?_, hfollows.tokens, ?_, ?_⟩, hrest⟩
  · show nested (a steps) r = _
    rw [nested, bind_of_ok _ (show enter r = _ from if_pos hlt)]
    show (a steps _).bind _ = _
    rw [ha steps hs]
    rfl
  · exact hfollows.sound.become hstep (hfollows.sound.cursor_le r'.now List.mem_cons_self)
      (by simp only; omega)
  · simp only [become]
    omega
  · exact ((List.suffix_cons _ _).trans hfollows.trail).trans (List.suffix_cons _ _)

theorem refines_nested {a : Nat → Action α} {o : Rule α} (h : Refines n a o) :
    Refines (n + 1) (fun steps => nested (a steps)) o := fun next => refinesAt_nested (h next)

/-- Where no level is left, nothing is nested. -/
theorem refines_tooDeep (a : Nat → Action α) :
    Refines 0 (fun steps => nested (a steps)) Rule.tooDeep := by
  intro next r hr hd _
  have henter : enter r = (peek >>= failAt .tooDeep) r := if_neg (by omega)
  obtain ⟨r', enough, ha, hfollows, hrest⟩ :=
    refines_pending (f := fun _ => failAt .tooDeep) (g := Rule.haltAt .tooDeep)
      (fun _ _ hsite => refines_failAt (n := 0) (α := Unit) hsite _) _ r hr hd rfl
  exact ⟨r', enough, fun steps hs => bind_of_error _ (henter.trans (ha steps hs)), hfollows, hrest⟩

/-! ## Loops -/

section Rounds

variable {item : Action (Option α)} {join : β → α → β} {k : Nat} (hk : 0 < k) {found : β}
  {r r' : Reader}
include hk

theorem loop_of_error {e : Fault} (h : item r = some (.error e, r')) :
    loop item join k found r = some (.error e, r') := by
  obtain ⟨k, rfl⟩ := Nat.exists_eq_add_one.2 hk
  rw [loop, bind_of_error _ h]

theorem loop_of_none (h : item r = some (.ok none, r')) :
    loop item join k found r = some (.ok found, r') := by
  obtain ⟨k, rfl⟩ := Nat.exists_eq_add_one.2 hk
  rw [loop, bind_of_ok _ h]
  rfl

theorem loop_of_some {x : α} (h : item r = some (.ok (some x), r')) :
    loop item join k found r = loop item join (k - 1) (join found x) r' := by
  obtain ⟨k, rfl⟩ := Nat.exists_eq_add_one.2 hk
  rw [loop, bind_of_ok _ h]
  rfl

end Rounds

/-- A repetition, folded, is what its first item gives and the rest, folded. -/
theorem bind_many {item : Rule (Option α)} (hi : Rule.TakesIf (·.isSome) item) (record : α → Block)
    (join : β → α → β) (found : β) {ts rest : List Token} {x : α}
    (h : item ts = .done (some x) rest) :
    (do return (← Rule.many item record).foldl join found : Rule β) ts
      = Rule.recording (record x)
          (do return (← Rule.many item record).foldl join (join found x)) rest := by
  have hmany := (congrFun (Rule.many_eq hi record) ts).trans (Rule.bind_of_done _ h)
  simp only [Rule.bind_apply, hmany, Rule.recording]
  cases Rule.many item record rest <;> rfl

/-- As many as needed, from some number of steps on. -/
def Grows (k : Nat → Nat) : Prop := ∀ m, ∃ enough, ∀ steps, enough ≤ steps → m ≤ k steps

theorem grows_id : Grows fun steps => steps := fun m => ⟨m, fun _ h => h⟩

theorem grows_further : Grows fun steps => (further steps).steps := by
  refine fun m => ⟨m + 1, fun steps hs => ?_⟩
  obtain ⟨steps, rfl⟩ := Nat.exists_eq_add_one.2 (Nat.zero_lt_of_lt hs)
  exact Nat.le_of_succ_le_succ hs

section Loops

variable {item : Rule (Option α)} (hi : Rule.TakesIf (·.isSome) item) (record : α → Block)
  {a : Nat → Action (Option α)} (ha : Refines n a item) (join : β → α → β) (found : β)
include hi ha

/-- A loop that may go round more often than there are tokens to be read. -/
theorem agrees_loop {r : Reader} (hr : r.Sound) (hd : r.now.depth + n = maxNesting) {k : Nat → Nat}
    (room : Nat) (hk : ∀ steps, room ≤ steps → r.pending.length < k steps) :
    Agrees r ((do return (← Rule.many item record).foldl join found : Rule β) r.pending)
      fun steps => loop (a steps) join (k steps) found := by
  -- the induction is on the tokens to be read: an item that is read takes one of them
  induction hlen : r.pending.length using Nat.strong_induction_on generalizing r found k room with
  | _ len ih =>
    obtain ⟨r', enough, hx, hfollows, hrest⟩ := ha _ r hr hd rfl
    have hpos : ∀ steps, room ≤ steps → 0 < k steps := fun steps hs =>
      Nat.zero_lt_of_lt (hk steps hs)
    cases hitem : item r.pending with
    | halted e =>
      rw [hitem] at hx hrest
      have hmany : Rule.many item record r.pending = .halted e := by
        rw [Rule.many_eq hi, Rule.bind_of_halted _ hitem]
      rw [Rule.bind_of_halted _ hmany]
      refine ⟨r', room + enough, fun steps hs => ?_, hfollows, hrest⟩
      exact loop_of_error (hpos steps (by omega)) (hx steps (by omega))
    | done o rest =>
      rw [hitem] at hx hrest
      cases o with
      | none =>
        have hmany : Rule.many item record r.pending = .done [] rest := by
          rw [Rule.many_eq hi, Rule.bind_of_done _ hitem]
          rfl
        rw [Rule.bind_of_done _ hmany]
        refine ⟨r', room + enough, fun steps hs => ?_, hfollows, hrest⟩
        exact loop_of_none (hpos steps (by omega)) (hx steps (by omega))
      | some x =>
        replace hrest : r'.pending = rest := hrest
        have hlt : r'.pending.length < len := hlen ▸ hrest ▸ hi _ _ _ hitem rfl
        have hthen := ih _ hlt (join found x) hfollows.sound (hfollows.depth ▸ hd)
          (k := fun steps => k steps - 1) room (fun steps hs => by have := hk steps hs; omega) rfl
        rw [bind_many hi record join found hitem, ← hrest]
        refine (hthen.recording (record x)).from hfollows (room + enough) fun steps hs => ?_
        exact loop_of_some (hpos steps (by omega)) (hx steps (by omega))

variable {k : Nat → Nat} (hk : Grows k)
include hk

theorem refines_loop : Refines n (fun steps => loop (a steps) join (k steps) found)
    (do return (← Rule.many item record).foldl join found) := by
  intro next r hr hd _
  obtain ⟨room, hroom⟩ := hk (r.pending.length + 1)
  exact agrees_loop hi record ha join found hr hd room hroom

theorem refines_collect (found : List α) :
    Refines n (fun steps => collect (a steps) (k steps) found)
      (do return found ++ (← Rule.many item record)) := by
  have hfold : ∀ xs : List α, xs.foldl (fun found x => found ++ [x]) found = found ++ xs := by
    simp [List.foldl_append_eq_append, ← List.flatMap_def]
  have hloop := refines_loop hi record ha (fun found x => found ++ [x]) found hk
  simp only [hfold] at hloop
  exact hloop

theorem refines_collect_nil :
    Refines n (fun steps => collect (a steps) (k steps) []) (Rule.many item record) := by
  have heq : (do return [] ++ (← Rule.many item record)) = Rule.many item record := by
    funext ts
    rw [Rule.bind_apply]
    cases Rule.many item record ts <;> rfl
  exact heq ▸ refines_collect hi record ha hk []

end Loops

end Actions

/-! ## Expressions -/

/-- The reader does what the rules for what is nested further in do. -/
structure InnerRefined (n : Nat) (inner : Inner) : Prop where
  ok : Grammar.InnerOK inner
  expression : Refines n (fun steps => (further steps).expression) inner.expression
  operand : Refines n (fun steps => (further steps).operand) inner.operand

section Inner

variable {n : Nat} {inner : Inner} (h : InnerRefined n inner)
include h

theorem refines_nextItem :
    Refines n (fun steps => nextItem (further steps)) (Grammar.nextItem inner) := by
  refine refines_accept (by decide) ?_ (refines_pure _)
  exact refines_bind h.expression fun _ => refines_pure _

theorem refines_items (close : Mark) :
    Refines n (fun steps => items (further steps) close) (Grammar.items inner close) := by
  refine refines_nextIs (by simp) (fun _ => refinesAt_pure _) ?_
  refine refines_bind h.expression fun first => ?_
  exact refines_collect (Grammar.takesIf_nextItem h.ok) _ (refines_nextItem h) grows_further [first]

theorem refines_keyed {start : Token} {site : List Token} (hs : start.Represents site)
    (key : Expr) :
    Refines n (fun steps => keyed (further steps) start key) (Grammar.keyed inner site key) := by
  refine refines_take (fun t heof => ⟨.unexpected, fun _ => by simp only [heof]⟩)
    fun t separator ht => ?_
  cases t.kind with
  | mark m =>
    cases m with
    | colon => exact refines_bind h.expression fun _ => refines_pure _
    | walrus =>
      refine refines_bind h.expression fun value => ?_
      cases key.name? with
      | some x => exact refines_pure _
      | none => exact refines_failAt hs _
    | _ => exact refines_failAt ht _
  | _ => exact refines_failAt ht _

theorem refines_entry : Refines n (fun steps => entry (further steps)) (Grammar.entry inner) := by
  refine refines_nextIs (by decide) (fun _ => refinesAt_pure _) ?_
  refine refines_pending fun start site hs => refines_bind h.expression fun key => ?_
  refine refines_accept (by decide) (refines_pure _) ?_
  refine refines_nextIs (by decide) (fun _ => refinesAt_pure _) ?_
  refine refines_bind (refines_keyed h hs key) fun e => ?_
  refine refines_nextIs (by decide) (fun _ => refinesAt_pure _) ?_
  exact refines_bind (refines_expect _) fun _ => refines_pure _

theorem refines_primary :
    Refines n (fun steps => primary (further steps)) (Grammar.primary inner) := by
  refine refines_take (fun t heof => ⟨.unexpected, fun _ => by simp only [heof]⟩)
    fun t site hs => ?_
  cases t.kind with
  | number => exact refines_pure _
  | string => exact refines_pure _
  | name => exact refines_pure _
  | comment => exact refines_failAt hs _
  | mark m =>
    cases m with
    | openParen =>
      exact refines_bind h.expression fun _ => refines_bind (refines_expect _) fun _ =>
        refines_pure _
    | openBrace =>
      refine refines_bind ?_ fun _ => refines_bind (refines_expect _) fun _ => refines_pure _
      exact refines_collect_nil (Grammar.takesIf_entry h.ok) _ (refines_entry h) grows_further
    | openBracket =>
      exact refines_bind (refines_items h _) fun _ => refines_bind (refines_expect _) fun _ =>
        refines_pure _
    | _ => exact refines_failAt hs _
  | _ => exact refines_failAt hs _

omit h in
theorem refines_memberName : Refines n (fun _ => memberName) Grammar.memberName := by
  refine refines_take (fun t heof => ⟨.noName, fun _ => by simp [heof]⟩) fun t site hs => ?_
  split
  · exact refines_pure _
  · exact refines_failAt hs _

theorem refines_suffix :
    Refines n (fun steps => suffix (further steps)) (Grammar.suffix inner) := by
  refine refines_peek (fun t heof => ?_) fun t _ => ?_
  · simp only [heof]
    exact refinesAt_pure _
  cases t.kind with
  | mark m =>
    cases m with
    | openParen =>
      exact refinesAt_take (refines_bind (refines_items h _) fun _ =>
        refines_bind (refines_expect _) fun _ => refines_pure _)
    | openBracket =>
      exact refinesAt_take (refines_bind h.expression fun _ =>
        refines_bind (refines_expect _) fun _ => refines_pure _)
    | dot => exact refinesAt_take (refines_bind refines_memberName fun _ => refines_pure _)
    | _ => exact refinesAt_pure _
  | _ => exact refinesAt_pure _

theorem refines_applied :
    Refines n (fun steps => applied (further steps)) (Grammar.applied inner) := by
  refine refines_bind (refines_primary h) fun first => ?_
  exact refines_loop (Grammar.takesIf_suffix h.ok) _ (refines_suffix h) _ first grows_further

theorem refines_unary : Refines n (fun steps => unary (further steps)) (Grammar.unary inner) := by
  refine refines_peek (fun t heof => ?_) fun t _ => ?_
  · simp only [heof]
    exact refines_applied h _
  cases Grammar.unaryOp? (some t.kind) with
  | some op => exact refinesAt_take (refines_bind h.operand fun _ => refines_pure _)
  | none => exact refines_applied h _

omit h in
theorem refines_operation (accepted : BinaryOp → Bool) {a : Nat → Action Expr} {o : Rule Expr}
    (ha : Refines n a o) :
    Refines n (fun steps => operation accepted (a steps)) (Grammar.operation accepted o) := by
  refine refines_peek (fun t heof => ?_) fun t _ => ?_
  · simp only [heof]
    exact refinesAt_pure _
  cases (Grammar.binaryOp? (some t.kind)).filter accepted with
  | some op => exact refinesAt_take (refines_bind ha fun _ => refines_pure _)
  | none => exact refinesAt_pure _

omit h in
theorem refines_operations (accepted : BinaryOp → Bool) {a : Nat → Action Expr} {o : Rule Expr}
    (hk : o.Keeps) (ha : Refines n a o) :
    Refines n (fun steps => operations accepted (a steps) (further steps).steps) (do
      let first ← o
      let rest ← Rule.many (Grammar.operation accepted o)
      return first.chain rest) := by
  refine refines_bind ha fun first => ?_
  exact refines_loop (Grammar.takesIf_operation accepted hk) _ (refines_operation accepted ha) _
    first grows_further

theorem refines_factor : Refines n (fun steps => factor (further steps)) (Grammar.factor inner) :=
  refines_operations _ (Grammar.keeps_unary h.ok) (refines_unary h)

theorem refines_binary : Refines n (fun steps => binary (further steps)) (Grammar.binary inner) :=
  refines_operations _ (Grammar.keeps_factor h.ok) (refines_factor h)

theorem refines_assignment :
    Refines n (fun steps => assignment (further steps)) (Grammar.assignment inner) := by
  refine refines_pending fun start site hs => refines_bind (refines_binary h) fun target => ?_
  refine refines_nextIs (by decide) (fun t => ?_) (refines_pure _)
  rw [if_pos rfl]
  cases target.target? with
  | some x => exact refinesAt_take (refines_bind h.expression fun _ => refines_pure _)
  | none => exact refines_failAt hs _ _

end Inner

theorem innerRefined : ∀ n, InnerRefined n (Grammar.inner n)
  | 0 => ⟨Grammar.innerOK 0, refines_succ (fun _ => rfl) (refines_tooDeep _),
      refines_succ (fun _ => rfl) (refines_tooDeep _)⟩
  | n + 1 => ⟨Grammar.innerOK (n + 1),
      refines_succ (fun _ => rfl) (refines_nested (refines_assignment (innerRefined n))),
      refines_succ (fun _ => rfl) (refines_nested (refines_unary (innerRefined n)))⟩

theorem refines_expression (n : Nat) :
    Refines n (fun steps => (further steps).expression) (Grammar.expression n) :=
  (innerRefined n).expression

/-! ## Statements -/

section Statements

variable {n : Nat} {rule : Rule Stmt} (hk : rule.Keeps) (ht : rule.Takes)
  (h : Refines n statement rule)
include hk ht h

theorem refines_statements {stop : Kind} {stopRule : Rule Bool} (hr : stopRule.Keeps)
    (hs : Refines n (fun _ => nextIs stop) stopRule) :
    Refines n (fun steps => collect (statementUnless stop (statement steps)) steps [])
      (Grammar.statements stopRule rule) := by
  have hitem : Refines n (fun steps => statementUnless stop (statement steps))
      (Grammar.statementUnless stopRule rule) := by
    refine refines_bind hs fun b => ?_
    cases b with
    | true => exact refines_pure _
    | false => exact refines_bind h fun _ => refines_pure _
  exact refines_collect_nil (Grammar.takesIf_statementUnless hr hk ht) _ hitem grows_id

theorem refines_block :
    Refines n (fun steps => block (statement steps) steps) (Grammar.block rule) := by
  refine refines_accept (by decide) ?_ ?_
  · refine refines_bind ?_ fun _ => refines_bind (refines_expect _) fun _ => refines_pure _
    exact refines_statements hk ht h (Rule.keeps_nextIs _) (refines_isNext (by decide))
  · exact refines_bind h fun _ => refines_pure _

theorem refinesAt_conditional (t : Token) :
    RefinesAt n (some t)
      (fun steps => conditional (further steps).expression (statement steps) steps)
      (Grammar.conditionalOf (Grammar.expression n) rule) := by
  refine refinesAt_take ?_
  refine refines_bind (refines_expect _) fun _ => refines_bind (refines_expression n) fun _ => ?_
  refine refines_bind (refines_expect _) fun _ => ?_
  refine refines_bind (refines_block hk ht h) fun body => ?_
  refine refines_accept (by decide) ?_ (refines_pure _)
  exact refines_bind (refines_recording body (refines_block hk ht h)) fun _ => refines_pure _

end Statements

/-- A statement, where those that start with `if` are read as `rule` reads them. -/
theorem refines_oneOf {n : Nat} {a : Nat → Action Stmt} {rule : Rule Stmt}
    (h : ∀ t, RefinesAt n (some t) a rule) :
    Refines n (fun steps => oneOf (further steps).expression (a steps))
      (Grammar.oneOf (Grammar.expression n) rule) := by
  have hexpr : Refines n (fun steps => (further steps).expression >>= fun e => pure (Stmt.expr e))
      (Grammar.expression n >>= fun e => pure (Stmt.expr e)) :=
    refines_bind (refines_expression n) fun _ => refines_pure _
  refine refines_peek (fun t heof => ?_) fun t _ => ?_
  · simp only [heof]
    exact hexpr _
  cases t.kind with
  | comment => exact refinesAt_take (refines_pure _)
  | keyword w =>
    cases w with
    | ifWord => exact h t
    | _ => exact hexpr _
  | _ => exact hexpr _

theorem refines_statement : ∀ n, Refines n statement (Grammar.statement n)
  | 0 => refines_succ (fun _ => rfl) (refines_oneOf fun _ => refines_tooDeep _ _)
  | n + 1 => refines_succ (fun _ => rfl) (refines_oneOf fun t => refinesAt_nested
      (refinesAt_conditional (Grammar.keeps_statement n) (Grammar.takes_statement n)
        (refines_statement n) t))

theorem refines_program (n : Nat) : Refines n program (Grammar.program n) :=
  refines_statements (Grammar.keeps_statement n) (Grammar.takes_statement n) (refines_statement n)
    Rule.keeps_atEnd refines_atEnd

end Reader

end Offside
