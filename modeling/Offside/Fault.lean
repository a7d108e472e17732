import Offside.Token.Scan

/-!
# Faults

Why a text is not a program. A complaint about a token is shown with the token's place; if the
offending token has no place, because the input has ended or because the token came without a
position, the fault is that the input ended too early, whatever the complaint was.
-/

namespace Offside

/-- What can be wrong with a token where it stands. -/
inductive Complaint where
  /-- No rule goes on with this token. -/
  | unexpected
  /-- A comment in the place of an expression. -/
  | comment
  /-- Another mark had to stand here. -/
  | missing (mark : Mark)
  /-- A name had to stand here. -/
  | noName
  /-- What starts here is assigned to but is not a bare name. -/
  | badTarget
  /-- The nesting would pass its limit here. -/
  | tooDeep
  deriving DecidableEq

inductive Fault where
  | stray (stray : Stray)
  | unexpectedEnd
  /-- A complaint about the token with the text `found`. -/
  | located (complaint : Complaint) (found : String) (place : Place)
  deriving DecidableEq

namespace Complaint

/-- The complaint in words, about a token with the text `found`. -/
def words (found : String) : Complaint → String
  | unexpected => "Unexpected Token `" ++ found ++ "`"
  | comment => "Unexpected Comment"
  | missing m => "Expected `" ++ m.spelling ++ "`"
  | noName => "Expected Identifier"
  | badTarget => "Invalid left hand of assignment"
  | tooDeep => "Expression nested too deeply"

/-- The fault that a complaint is about the first of the given tokens. -/
def fault (c : Complaint) : List Token → Fault
  | [] => .unexpectedEnd
  | t :: _ =>
    match t.place? with
    | some p => .located c t.lexeme p
    | none => .unexpectedEnd

end Complaint

def Fault.message : Fault → String
  | stray s => s.message
  | unexpectedEnd => "SyntaxError: Unexpected End of File"
  | located c found p => "SyntaxError: " ++ c.words found ++ " on " ++ p.words

end Offside
