import Offside.Text.Lines
import Offside.Token.Basic
import Offside.Token.Lexeme

/-!
# The tokens of a text

A text is scanned line by line and each line from left to right, so of several stray characters the
first one is reported. A comment with nothing but blanks in it leaves no token; any other comment
is a token whose text is its body without the blanks around it.
-/

namespace Offside

/-- A character with which no lexeme starts. -/
structure Stray where
  char : Char
  place : Place
  deriving DecidableEq

def Stray.message (s : Stray) : String :=
  "Could not recognize token `" ++ s.char.toString ++ "` on " ++ s.place.words

namespace Token

/-- The token of a comment at `position`. -/
def ofComment (position : Position) (body : List Char) : List Token :=
  match Text.trim body with
  | [] => []
  | text => [⟨.comment, String.ofList text, some position⟩]

/-- Scans what is left of a line: `skip` characters, which belong to the lexeme read last, are
passed over first. -/
def scanRest (row : Nat) : (column skip : Nat) → List Char → Except Stray (List Token)
  | _, _, [] => .ok []
  | column, skip + 1, _ :: cs => scanRest row (column + 1) skip cs
  | column, 0, c :: cs =>
    match Front.of c cs with
    | .blank => scanRest row (column + 1) 0 cs
    | .comment body => .ok (ofComment ⟨row, column⟩ body)
    | .lexeme kind text =>
      match scanRest row (column + 1) (text.length - 1) cs with
      | .ok ts => .ok (⟨kind, String.ofList text, some ⟨row, column⟩⟩ :: ts)
      | .error e => .error e
    | .stray => .error ⟨c, Position.place ⟨row, column⟩⟩

theorem scanRest_skip (row : Nat) : ∀ (column skip : Nat) (cs : List Char),
    scanRest row column skip cs = scanRest row (column + skip) 0 (cs.drop skip)
  | _, 0, _ => rfl
  | _, _ + 1, [] => by simp [scanRest]
  | column, skip + 1, _ :: cs => by
    rw [scanRest, scanRest_skip row (column + 1) skip cs, List.drop_succ_cons,
      Nat.add_right_comm, Nat.add_assoc]

def scanLine (row : Nat) (line : List Char) : Except Stray (List Token) := scanRest row 0 0 line

/-- Scans consecutive lines, the first of which is in the given row. -/
def scanLines : Nat → List (List Char) → Except Stray (List Token)
  | _, [] => .ok []
  | row, l :: ls =>
    match scanLine row l with
    | .error e => .error e
    | .ok ts =>
      match scanLines (row + 1) ls with
      | .error e => .error e
      | .ok us => .ok (ts ++ us)

/-- The tokens of a text, or its first stray character. -/
def scan (source : String) : Except Stray (List Token) := scanLines 0 (Text.lines source.toList)

/-- The tokens of a text and the sentinel after them. -/
def scanWithSentinel (source : String) : Except Stray (List Token) :=
  (scan source).map (· ++ [sentinel])

end Token

end Offside
