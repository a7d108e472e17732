import Offside.Text.Blank
import Offside.Token.Kind

/-!
# Lexemes

What stands at the front of a piece of a line. The classes are tried in a fixed order: a comment,
which runs to the end of the line, a closed string, a word, a number, a mark. A character with
which none of them starts is a blank, or it is stray.

A word takes every letter there is and a number every digit. The fraction and the exponent of a
number are each taken only if at least one digit follows the point or the `e`, so `1.x` starts with
the number `1`. A quote without a second one on its line starts no string.
-/

namespace Offside

namespace Lexeme

/-- The quoted text at the front, its two quotes included. -/
def string? : List Char → Option (List Char)
  | '"' :: cs =>
    if cs.contains '"' then some ('"' :: cs.takeWhile (· ≠ '"') ++ ['"']) else none
  | _ => none

def word (cs : List Char) : List Char := cs.takeWhile Char.isAlpha

def digits (cs : List Char) : List Char := cs.takeWhile Char.isDigit

/-- A point and the digits after it; nothing if there are none. -/
def fraction : List Char → List Char
  | '.' :: cs => if digits cs = [] then [] else '.' :: digits cs
  | _ => []

/-- An `e`, possibly a minus, and the digits after them; nothing if there are none. -/
def exponent : List Char → List Char
  | 'e' :: '-' :: cs => if digits cs = [] then [] else 'e' :: '-' :: digits cs
  | 'e' :: cs => if digits cs = [] then [] else 'e' :: digits cs
  | _ => []

def number (cs : List Char) : List Char :=
  let whole := digits cs
  let part := fraction (cs.drop whole.length)
  whole ++ part ++ exponent (cs.drop (whole.length + part.length))

def mark? (cs : List Char) : Option Mark :=
  Mark.all.find? fun m => m.spelling.toList.isPrefixOf cs

/-- A word is a keyword if one is spelled so, and a name otherwise. -/
def wordKind (cs : List Char) : Kind :=
  match Keyword.ofSpelling? (String.ofList cs) with
  | some k => .keyword k
  | none => .name

end Lexeme

/-- What the characters ahead begin with. -/
inductive Front where
  /-- A character that separates and means nothing. -/
  | blank
  /-- Two slashes and the rest of the line after them. -/
  | comment (body : List Char)
  | lexeme (kind : Kind) (text : List Char)
  /-- A character with which nothing starts. -/
  | stray

open Lexeme in
/-- What a line goes on with at the character `c`, with `cs` behind it. -/
def Front.of (c : Char) (cs : List Char) : Front :=
  if c = '/' ∧ cs.head? = some '/' then .comment cs.tail
  else match string? (c :: cs) with
    | some text => .lexeme .string text
    | none =>
      if c.isAlpha then .lexeme (wordKind (word (c :: cs))) (word (c :: cs))
      else if c.isDigit then .lexeme .number (number (c :: cs))
      else match mark? (c :: cs) with
        | some m => .lexeme (.mark m) m.spelling.toList
        | none => if Text.isBlank c then .blank else .stray

end Offside
