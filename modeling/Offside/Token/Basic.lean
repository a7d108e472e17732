import Offside.Token.Kind

/-!
# Tokens

A token has a kind, the text it was written as, and the position of its first character. Positions
count rows and columns from 0; a `Place` counts lines and columns from 1, and is what messages show.
The token for the end of the input has no place, whatever its position.
-/

namespace Offside

/-- Row and column from 0, the column in characters. -/
structure Position where
  row : Nat
  column : Nat
  deriving DecidableEq

/-- Line and column from 1. -/
structure Place where
  line : Nat
  column : Nat
  deriving DecidableEq

def Position.place (p : Position) : Place := ⟨p.row + 1, p.column + 1⟩

/-- The words with which messages name a place. -/
def Place.words (p : Place) : String :=
  "line " ++ toString p.line ++ " and column " ++ toString p.column

structure Token where
  kind : Kind
  lexeme : String
  position : Option Position
  deriving DecidableEq

namespace Token

/-- Stands after the last token of a text. -/
def sentinel : Token := ⟨.eof, "EOF", none⟩

def place? (t : Token) : Option Place :=
  if t.kind = .eof then none else t.position.map Position.place

/-- The token as a message shows it: kind, text and place, or the kind alone if it has no place. -/
def display (t : Token) : String :=
  match t.place? with
  | some p =>
    t.kind.label ++ " '" ++ t.lexeme ++ "' at (" ++ toString p.line ++ ", " ++
      toString p.column ++ ")"
  | none => t.kind.label

def isAny (t : Token) (kinds : List Kind) : Bool := kinds.contains t.kind

end Token

end Offside
