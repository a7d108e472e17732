import Offside.Grammar.Expr

/-!
# The grammar of statements

A statement is a conditional, a comment or an expression. The body of a conditional is one
statement, or any number of them in braces. A conditional is one level further in than where it
stands, as is an expression.
-/

namespace Offside

namespace Grammar

open Rule

/-- One statement, where `conditional` reads those that start with `if`. -/
def oneOf (expression : Rule Expr) (conditional : Rule Stmt) : Rule Stmt := do
  match ← peek with
  | some (.keyword .ifWord) => conditional
  | some .comment =>
    let token ← take
    return .comment token.lexeme
  | _ =>
    let e ← expression
    return .expr e

/-- A statement, unless `stop` says that there are no more. -/
def statementUnless (stop : Rule Bool) (statement : Rule Stmt) : Rule (Option Stmt) := do
  if ← stop then
    return none
  else
    let s ← statement
    return some s

/-- The statements until `stop` says that there are no more. -/
def statements (stop : Rule Bool) (statement : Rule Stmt) : Rule Block :=
  many (statementUnless stop statement) fun s => [s]

/-- A body: statements in braces, or a single one. -/
def block (statement : Rule Stmt) : Rule Block := do
  if ← accept (.mark .openBrace) then
    let body ← statements (nextIs (.mark .closeBrace)) statement
    expect .closeBrace
    return body
  else
    let s ← statement
    return [s]

/-- A conditional whose first word is known to be there. -/
def conditionalOf (expression : Rule Expr) (statement : Rule Stmt) : Rule Stmt := do
  let _ ← take
  expect .openParen
  let condition ← expression
  expect .closeParen
  let body ← block statement
  if ← accept (.keyword .elseWord) then
    let otherwise ← recording body (block statement)
    return .cond condition body (some otherwise)
  else
    return .cond condition body none

/-- A conditional, `n` levels of nesting being left. -/
def conditional : Nat → Rule Stmt
  | 0 => tooDeep
  | n + 1 => conditionalOf (expression n) (oneOf (expression n) (conditional n))

/-- A statement, `n` levels of nesting being left. -/
def statement (n : Nat) : Rule Stmt := oneOf (expression n) (conditional n)

/-- All statements up to the end of the input. -/
def program (n : Nat) : Rule Block := statements atEnd (statement n)

end Grammar

end Offside
