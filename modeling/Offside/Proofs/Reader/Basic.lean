import Offside.Program

/-!
# A reader with a cursor

A reader keeps all its tokens, the index of the next one, and how many levels of nesting are open.
It can be asked for a program again and again, and goes on from where its cursor stands. It reads by
the same grammar as the rules do, but nothing in its loops and calls says that they end: they are
given a number of steps, and nothing comes of them if it does not suffice. That some number always
does is to be proved.

The cursor and the depth change only through `Reader.become`, which keeps what they were before, so
`Reader.trail` has everything that happened to them.
-/

namespace Offside

/-- Where a reader stands: the index of the next token and the number of open levels. -/
structure Moment where
  cursor : Nat
  depth : Nat

structure Reader where
  tokens : List Token
  now : Moment
  /-- The moments before, the latest first. -/
  past : List Moment

/-- What a reader does: a fault or a value, and the reader afterwards. There is neither if its steps
do not suffice, or if it looks for a token behind the last one. -/
abbrev Action (α : Type) : Type := ExceptT Fault (StateT Reader Option) α

/-- The tokens, with one that says that the input has ended unless the last one does. -/
def Token.ended (ts : List Token) : List Token :=
  if ts.getLast?.any (·.kind = .eof) then ts else ts ++ [sentinel]

namespace Reader

variable {α β : Type}

/-- A reader that has not read anything yet. -/
def ofTokens (ts : List Token) : Reader := ⟨Token.ended ts, ⟨0, 0⟩, []⟩

/-- All the moments of a reader, the latest first. -/
def trail (r : Reader) : List Moment := r.now :: r.past

def become (r : Reader) (m : Moment) : Reader := ⟨r.tokens, m, r.now :: r.past⟩

def next? (r : Reader) : Option Token := r.tokens[r.now.cursor]?

/-- The next token, which is left. -/
def peek : Action Token := fun r => do
  let t ← r.next?
  return (.ok t, r)

/-- The next token. It is taken, unless it says that the input has ended. -/
def take : Action Token := fun r => do
  let t ← r.next?
  if t.kind = .eof then
    return (.ok t, r)
  else
    return (.ok t, r.become ⟨r.now.cursor + 1, r.now.depth⟩)

def nextIs (k : Kind) : Action Bool := do
  let t ← peek
  return t.kind = k

def failAt (c : Complaint) (t : Token) : Action α := throw (c.fault [t])

/-- Takes the next token, which must be the given mark. -/
def expect (m : Mark) : Action Unit := do
  let t ← take
  if t.kind = .mark m then return () else failAt (.missing m) t

/-- Opens a level, unless as many are open as there may be. -/
def enter : Action Unit := fun r =>
  if r.now.depth < maxNesting then
    some (.ok (), r.become ⟨r.now.cursor, r.now.depth + 1⟩)
  else
    (peek >>= failAt .tooDeep) r

/-- Closes a level, whatever came of reading in it. -/
def leave (outcome : Except Fault α × Reader) : Except Fault α × Reader :=
  (outcome.1, outcome.2.become ⟨outcome.2.now.cursor, outcome.2.now.depth - 1⟩)

/-- The action, one level further in. -/
def nested (a : Action α) : Action α := do
  enter
  fun r => do return leave (← a r)

/-- What is left to do when there are no steps left. -/
def starved : Action α := fun _ => none

/-- Asks for items and joins each to what there is, until there are no more. -/
def loop (item : Action (Option α)) (join : β → α → β) : (steps : Nat) → β → Action β
  | 0, _ => starved
  | steps + 1, found => do
    match ← item with
    | some x => loop item join steps (join found x)
    | none => return found

def collect (item : Action (Option α)) (steps : Nat) : List α → Action (List α) :=
  loop item (fun found x => found ++ [x]) steps

/-! ## Expressions -/

open Grammar (unaryOp? binaryOp?)

/-- The actions for what is nested one level further in, and how often a loop may go round. -/
structure Further where
  steps : Nat
  expression : Action Expr
  operand : Action Expr

def nextItem (further : Further) : Action (Option Expr) := do
  if ← nextIs (.mark .comma) then
    let _ ← take
    let e ← further.expression
    return some e
  else
    return none

def items (further : Further) (close : Mark) : Action (List Expr) := do
  if ← nextIs (.mark close) then
    return []
  else
    let first ← further.expression
    collect (nextItem further) further.steps [first]

def keyed (further : Further) (start : Token) (key : Expr) : Action Entry := do
  let separator ← take
  match separator.kind with
  | .mark .colon =>
    let value ← further.expression
    return ⟨key.asKey, value⟩
  | .mark .walrus =>
    let value ← further.expression
    match key.name? with
    | some _ => return ⟨key, value⟩
    | none => failAt .noName start
  | _ => failAt .unexpected separator

def entry (further : Further) : Action (Option Entry) := do
  if ← nextIs (.mark .closeBrace) then
    return none
  else
    let start ← peek
    let key ← further.expression
    if ← nextIs (.mark .comma) then
      let _ ← take
      return some ⟨key.asKey, key⟩
    else if ← nextIs (.mark .closeBrace) then
      return some ⟨key.asKey, key⟩
    else
      let entry ← keyed further start key
      if ← nextIs (.mark .closeBrace) then
        return some entry
      else
        expect .comma
        return some entry

def primary (further : Further) : Action Expr := do
  let token ← take
  match token.kind with
  | .number => return (Form.number token.lexeme).bare
  | .string => return (Form.string (Expr.unquote token.lexeme)).bare
  | .name => return Expr.ofWord token.lexeme
  | .mark .openParen =>
    let e ← further.expression
    expect .closeParen
    return e.group
  | .mark .openBrace =>
    let entries ← collect (entry further) further.steps []
    expect .closeBrace
    return (Form.dict entries).bare
  | .mark .openBracket =>
    let elements ← items further .closeBracket
    expect .closeBracket
    return (Form.list elements).bare
  | .comment => failAt .comment token
  | _ => failAt .unexpected token

def memberName : Action String := do
  let token ← take
  if token.kind = .name then return token.lexeme else failAt .noName token

def suffix (further : Further) : Action (Option Suffix) := do
  let token ← peek
  match token.kind with
  | .mark .openParen =>
    let _ ← take
    let args ← items further .closeParen
    expect .closeParen
    return some (.call args)
  | .mark .openBracket =>
    let _ ← take
    let index ← further.expression
    expect .closeBracket
    return some (.index index)
  | .mark .dot =>
    let _ ← take
    let name ← memberName
    return some (.member name)
  | _ => return none

def applied (further : Further) : Action Expr := do
  let first ← primary further
  loop (suffix further) Suffix.attach further.steps first

def unary (further : Further) : Action Expr := do
  let token ← peek
  match unaryOp? (some token.kind) with
  | some op =>
    let _ ← take
    let e ← further.operand
    return (Form.unary op e).bare
  | none => applied further

def operation (accepted : BinaryOp → Bool) (operand : Action Expr) :
    Action (Option (BinaryOp × Expr)) := do
  let token ← peek
  match (binaryOp? (some token.kind)).filter accepted with
  | some op =>
    let _ ← take
    let right ← operand
    return some (op, right)
  | none => return none

/-- An operand, and operations on it from left to right. -/
def operations (accepted : BinaryOp → Bool) (operand : Action Expr) (steps : Nat) :
    Action Expr := do
  let first ← operand
  loop (operation accepted operand) (fun left r => (Form.binary r.1 left r.2).bare) steps first

def factor (further : Further) : Action Expr :=
  operations BinaryOp.isMultiplicative (unary further) further.steps

def binary (further : Further) : Action Expr :=
  operations (fun _ => true) (factor further) further.steps

def assignment (further : Further) : Action Expr := do
  let start ← peek
  let target ← binary further
  if ← nextIs (.mark .equal) then
    match target.target? with
    | some x =>
      let _ ← take
      let value ← further.expression
      return (Form.assign x value).bare
    | none => failAt .badTarget start
  else
    return target

/-- What is nested further in, with the given number of steps. -/
def further : (steps : Nat) → Further
  | 0 => ⟨0, starved, starved⟩
  | steps + 1 => ⟨steps, nested (assignment (further steps)), nested (unary (further steps))⟩

/-! ## Statements -/

def oneOf (expression : Action Expr) (conditional : Action Stmt) : Action Stmt := do
  let token ← peek
  match token.kind with
  | .keyword .ifWord => conditional
  | .comment =>
    let token ← take
    return .comment token.lexeme
  | _ =>
    let e ← expression
    return .expr e

def statementUnless (stop : Kind) (statement : Action Stmt) : Action (Option Stmt) := do
  if ← nextIs stop then
    return none
  else
    let s ← statement
    return some s

def block (statement : Action Stmt) (steps : Nat) : Action Block := do
  if ← nextIs (.mark .openBrace) then
    let _ ← take
    let body ← collect (statementUnless (.mark .closeBrace) statement) steps []
    expect .closeBrace
    return body
  else
    let s ← statement
    return [s]

def conditional (expression : Action Expr) (statement : Action Stmt) (steps : Nat) :
    Action Stmt := do
  let _ ← take
  expect .openParen
  let condition ← expression
  expect .closeParen
  let body ← block statement steps
  if ← nextIs (.keyword .elseWord) then
    let _ ← take
    let otherwise ← block statement steps
    return .cond condition body (some otherwise)
  else
    return .cond condition body none

def statement : (steps : Nat) → Action Stmt
  | 0 => starved
  | steps + 1 =>
    oneOf (further steps).expression
      (nested (conditional (further steps).expression (statement steps) steps))

/-- Reads statements up to the end of the input. -/
def program (steps : Nat) : Action Block :=
  collect (statementUnless .eof (statement steps)) steps []

/-- Asks for a program `calls` times over. What comes of it are all the results. -/
def programs (steps : Nat) : (calls : Nat) → Reader → Option (List (Except Fault Block) × Reader)
  | 0, r => some ([], r)
  | calls + 1, r => do
    let (result, r) ← program steps r
    let (results, r) ← programs steps calls r
    return (result :: results, r)

end Reader

end Offside
