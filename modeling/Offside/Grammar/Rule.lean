import Offside.Fault
import Offside.Stmt.Basic

/-!
# Rules of a grammar

A rule reads from the front of the pending tokens. It is done with a value and the tokens it left,
or it halts. A halt keeps the tokens that were still pending, so that reading can go on behind it,
and the place it complains about as the tokens from the offending one on; no rule looks at the
position of a token.

All repetition is `Rule.many`. An item that is read takes at least one token, so there are no more
items than pending tokens, and the bound in `Rule.upTo` is never what ends a repetition.
-/

namespace Offside

structure Halt where
  complaint : Complaint
  /-- The tokens from the offending one on; none are left at the end of the input. -/
  site : List Token
  /-- The tokens still pending when reading stopped. -/
  rest : List Token
  /-- The statements read in full before, except those inside of another one of them. -/
  completed : Block

def Halt.fault (h : Halt) : Fault := h.complaint.fault h.site

inductive Outcome (α : Type) where
  | done (value : α) (rest : List Token)
  | halted (halt : Halt)

namespace Outcome

variable {α : Type}

/-- The tokens left by a rule, also by one that halted. -/
def rest : Outcome α → List Token
  | done _ ts => ts
  | halted h => h.rest

def result : Outcome α → Except Fault α
  | done a _ => .ok a
  | halted h => .error h.fault

end Outcome

def Rule (α : Type) : Type := List Token → Outcome α

namespace Rule

variable {α β : Type}

instance : Monad Rule where
  pure a := fun ts => .done a ts
  bind r f := fun ts =>
    match r ts with
    | .done a rest => f a rest
    | .halted h => .halted h

/-- The pending tokens. -/
def pending : Rule (List Token) := fun ts => .done ts ts

/-- The kind of the next token; none at the end of the input. -/
def peek : Rule (Option Kind) := fun ts => .done (ts.head?.map Token.kind) ts

def nextIs (k : Kind) : Rule Bool := fun ts => .done (ts.head?.map Token.kind == some k) ts

def atEnd : Rule Bool := fun ts => .done ts.isEmpty ts

/-- Stops with a complaint about the first token of `site`. -/
def haltAt (c : Complaint) (site : List Token) : Rule α := fun ts => .halted ⟨c, site, ts, []⟩

/-- Takes the next token, which must be there. -/
def take : Rule Token
  | [] => .halted ⟨.unexpected, [], [], []⟩
  | t :: ts => .done t ts

/-- Takes the next token, which must be the given mark. Another token is taken too, and complained
about. -/
def expect (m : Mark) : Rule Unit
  | [] => .halted ⟨.missing m, [], [], []⟩
  | t :: ts => if t.kind = .mark m then .done () ts else .halted ⟨.missing m, t :: ts, ts, []⟩

/-- Takes the next token if it is of the given kind, and says whether it did. -/
def accept (k : Kind) : Rule Bool
  | [] => .done false []
  | t :: ts => if t.kind = k then .done true ts else .done false (t :: ts)

/-- Complains that the next token would be nested too deeply. -/
def tooDeep : Rule α := fun ts => .halted ⟨.tooDeep, ts, ts, []⟩

/-- The rule, with `before` among the statements that a halt counts as read. -/
def recording (before : Block) (r : Rule α) : Rule α := fun ts =>
  match r ts with
  | .done a rest => .done a rest
  | .halted h => .halted { h with completed := before ++ h.completed }

/-- Items until there is none or `n` are read. A halt counts those already read, as `record` gives
them. -/
def upTo (item : Rule (Option α)) (record : α → Block) : Nat → Rule (List α)
  | 0 => pure []
  | n + 1 => do
    match ← item with
    | none => return []
    | some a =>
      let as ← recording (record a) (upTo item record n)
      return a :: as

/-- Items until there is none. -/
def many (item : Rule (Option α)) (record : α → Block := fun _ => []) : Rule (List α) :=
  fun ts => upTo item record (ts.length + 1) ts

theorem pure_apply (a : α) (ts : List Token) : (pure a : Rule α) ts = .done a ts := rfl

theorem bind_apply (r : Rule α) (f : α → Rule β) (ts : List Token) :
    (r >>= f) ts = match r ts with
      | .done a rest => f a rest
      | .halted h => .halted h := rfl

theorem bind_of_done {r : Rule α} {ts rest : List Token} {a : α} (f : α → Rule β)
    (h : r ts = .done a rest) : (r >>= f) ts = f a rest := by
  rw [bind_apply, h]

theorem bind_of_halted {r : Rule α} {ts : List Token} {e : Halt} (f : α → Rule β)
    (h : r ts = .halted e) : (r >>= f) ts = .halted e := by
  rw [bind_apply, h]

end Rule

end Offside
