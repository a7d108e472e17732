import Offside.Grammar.Stmt

/-!
# Programs

A text is read in two steps: its tokens, then the statements they make. Tokens are read up to the
first one that says that the input has ended.

Reading can be resumed behind a fault: `readings` reads the same tokens several times over, each
time from where the last reading stopped.
-/

namespace Offside

/-- How many levels of nesting a program may have. -/
def maxNesting : Nat := 128

namespace Token

/-- The tokens before the first one that says that the input has ended. -/
def beforeEnd (ts : List Token) : List Token := ts.takeWhile (·.kind ≠ .eof)

end Token

namespace Block

/-- Reads the statements of a token list, with at most `limit` levels of nesting. -/
def readTokens (limit : Nat) (ts : List Token) : Outcome Block :=
  Grammar.program limit (Token.beforeEnd ts)

/-- Reads a program with at most `limit` levels of nesting. -/
def parseWithin (limit : Nat) (source : String) : Except Fault Block :=
  match Token.scan source with
  | .error s => .error (.stray s)
  | .ok ts => (readTokens limit ts).result

/-- Reads a program. -/
def parse (source : String) : Except Fault Block := parseWithin maxNesting source

/-- What comes of reading the pending tokens `calls` times, each time from where reading stopped. -/
def resume (limit : Nat) : (calls : Nat) → List Token → List (Except Fault Block)
  | 0, _ => []
  | calls + 1, ts =>
    let outcome := Grammar.program limit ts
    outcome.result :: resume limit calls outcome.rest

/-- What comes of reading a token list `calls` times over. -/
def readings (limit calls : Nat) (ts : List Token) : List (Except Fault Block) :=
  resume limit calls (Token.beforeEnd ts)

end Block

end Offside
