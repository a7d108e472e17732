import Offside.Grammar.Rule

/-!
# The grammar of expressions

From the loosest to the tightest: assignment, which is right associative; the operators other than
`*`, `/` and `%`, all of one strength; those three; the operators before an operand; calls, indexing
and members; and the primary expressions. The two levels of binary operators associate to the left.

An expression inside of another, and the operand of an operator before it, are one level further in.
The rules take the rules of that level as an argument, and `Grammar.inner n` is what is left of the
nesting when `n` more levels are allowed.
-/

namespace Offside

/-- The rules for what is nested one level further in. -/
structure Inner where
  expression : Rule Expr
  operand : Rule Expr

/-- What can follow an expression and make a longer one of it. -/
inductive Suffix where
  | call (args : List Expr)
  | index (index : Expr)
  | member (name : String)

def Suffix.attach (e : Expr) : Suffix → Expr
  | call args => (Form.call e args).bare
  | index i => (Form.index e i).bare
  | member x => (Form.member e x).bare

namespace Expr

/-- Applies operators and their right operands from left to right. -/
def chain (first : Expr) (rest : List (BinaryOp × Expr)) : Expr :=
  rest.foldl (fun left r => (Form.binary r.1 left r.2).bare) first

def attach (first : Expr) (suffixes : List Suffix) : Expr := suffixes.foldl Suffix.attach first

/-- The key that stands before a colon, or alone: a name is meant as the string of its letters. -/
def asKey (e : Expr) : Expr :=
  match e.name? with
  | some x => (Form.string x).bare
  | none => e

/-- What a word that is no keyword means: the words for truth and falsehood are values. -/
def ofWord (word : String) : Expr :=
  if word = "T" then (Form.truth true).bare
  else if word = "F" then (Form.truth false).bare
  else (Form.name word).bare

/-- The text between the quotes of a string token; a text that is not quoted is taken whole. -/
def unquote (lexeme : String) : String :=
  match lexeme.toList with
  | '"' :: cs => if cs.getLast? = some '"' then String.ofList cs.dropLast else lexeme
  | _ => lexeme

end Expr

namespace Grammar

open Rule

/-- A comma and the expression behind it. -/
def nextItem (inner : Inner) : Rule (Option Expr) := do
  if ← accept (.mark .comma) then
    let e ← inner.expression
    return some e
  else
    return none

/-- Expressions with commas between them, up to the closing mark, which is left. -/
def items (inner : Inner) (close : Mark) : Rule (List Expr) := do
  if ← nextIs (.mark close) then
    return []
  else
    let first ← inner.expression
    let rest ← many (nextItem inner)
    return first :: rest

/-- The separator and the value of a dictionary entry, `start` being where its key started. Before
`:=` the key must be a name, and stays one. -/
def keyed (inner : Inner) (start : List Token) (key : Expr) : Rule Entry := do
  let site ← pending
  let separator ← take
  match separator.kind with
  | .mark .colon =>
    let value ← inner.expression
    return ⟨key.asKey, value⟩
  | .mark .walrus =>
    let value ← inner.expression
    match key.name? with
    | some _ => return ⟨key, value⟩
    | none => haltAt .noName start
  | _ => haltAt .unexpected site

/-- An entry and the comma behind it, which only the last one may lack. A key alone is its own
value. -/
def entry (inner : Inner) : Rule (Option Entry) := do
  if ← nextIs (.mark .closeBrace) then
    return none
  else
    let start ← pending
    let key ← inner.expression
    if ← accept (.mark .comma) then
      return some ⟨key.asKey, key⟩
    else if ← nextIs (.mark .closeBrace) then
      return some ⟨key.asKey, key⟩
    else
      let entry ← keyed inner start key
      if ← nextIs (.mark .closeBrace) then
        return some entry
      else
        expect .comma
        return some entry

def primary (inner : Inner) : Rule Expr := do
  let site ← pending
  let token ← take
  match token.kind with
  | .number => return (Form.number token.lexeme).bare
  | .string => return (Form.string (Expr.unquote token.lexeme)).bare
  | .name => return Expr.ofWord token.lexeme
  | .mark .openParen =>
    let e ← inner.expression
    expect .closeParen
    return e.group
  | .mark .openBrace =>
    let entries ← many (entry inner)
    expect .closeBrace
    return (Form.dict entries).bare
  | .mark .openBracket =>
    let elements ← items inner .closeBracket
    expect .closeBracket
    return (Form.list elements).bare
  | .comment => haltAt .comment site
  | _ => haltAt .unexpected site

def memberName : Rule String := do
  let site ← pending
  let token ← take
  if token.kind = .name then return token.lexeme else haltAt .noName site

def suffix (inner : Inner) : Rule (Option Suffix) := do
  match ← peek with
  | some (.mark .openParen) =>
    let _ ← take
    let args ← items inner .closeParen
    expect .closeParen
    return some (.call args)
  | some (.mark .openBracket) =>
    let _ ← take
    let index ← inner.expression
    expect .closeBracket
    return some (.index index)
  | some (.mark .dot) =>
    let _ ← take
    let name ← memberName
    return some (.member name)
  | _ => return none

/-- A primary expression with its calls, indices and members. -/
def applied (inner : Inner) : Rule Expr := do
  let first ← primary inner
  let suffixes ← many (suffix inner)
  return first.attach suffixes

def unaryOp? : Option Kind → Option UnaryOp
  | some (.mark m) => UnaryOp.ofMark? m
  | _ => none

def binaryOp? : Option Kind → Option BinaryOp
  | some (.mark m) => BinaryOp.ofMark? m
  | _ => none

def unary (inner : Inner) : Rule Expr := do
  match unaryOp? (← peek) with
  | some op =>
    let _ ← take
    let operand ← inner.operand
    return (Form.unary op operand).bare
  | none => applied inner

/-- One of the given operators and its right operand. -/
def operation (accepted : BinaryOp → Bool) (operand : Rule Expr) :
    Rule (Option (BinaryOp × Expr)) := do
  match (binaryOp? (← peek)).filter accepted with
  | some op =>
    let _ ← take
    let right ← operand
    return some (op, right)
  | none => return none

def factor (inner : Inner) : Rule Expr := do
  let first ← unary inner
  let rest ← many (operation BinaryOp.isMultiplicative (unary inner))
  return first.chain rest

def binary (inner : Inner) : Rule Expr := do
  let first ← factor inner
  let rest ← many (operation (fun _ => true) (factor inner))
  return first.chain rest

def assignment (inner : Inner) : Rule Expr := do
  let site ← pending
  let target ← binary inner
  if ← nextIs (.mark .equal) then
    match target.target? with
    | some x =>
      let _ ← take
      let value ← inner.expression
      return (Form.assign x value).bare
    | none => haltAt .badTarget site
  else
    return target

/-- The rules for what is nested further in, `n` levels of nesting being left. -/
def inner : Nat → Inner
  | 0 => ⟨tooDeep, tooDeep⟩
  | n + 1 => ⟨assignment (inner n), unary (inner n)⟩

/-- An expression, `n` levels of nesting being left. -/
def expression (n : Nat) : Rule Expr := (inner n).expression

end Grammar

end Offside
