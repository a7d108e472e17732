import Offside.Expr.Basic

/-!
# Expressions as Python text

An assignment that is a statement is written with `=`, and so is one that is the whole value of
such an assignment and not in parentheses. Every other assignment is written with `:=` in
parentheses of its own; the parentheses around it in the program are not written as well.

The value of a member access is always written in parentheses, once.
-/

namespace Offside

/-- Whether an expression stands as a statement or inside of something else. -/
inductive Role where
  | statement
  | operand
  deriving DecidableEq

/-- The word or sign for an operator. -/
def BinaryOp.word : BinaryOp → String
  | .and => "and"
  | .or => "or"
  | op => op.spelling

/-- The word or sign for an operator, with the space after it if it is a word. -/
def UnaryOp.word : UnaryOp → String
  | .not => "not "
  | .negate => "-"

/-- Assignments to several names at once go on with `=`. -/
def Expr.roleAsValue (e : Expr) : Role :=
  if e.form.isAssign && !e.grouped then .statement else .operand

/-- The texts with a comma and a space between them. -/
def commaSeparated (texts : List String) : String := String.intercalate ", " texts

def parenthesized (text : String) : String := "(" ++ text ++ ")"

mutual

def Expr.render : Role → Expr → String
  | .statement, ⟨.assign x value, _⟩ => x ++ " = " ++ value.render value.roleAsValue
  | _, ⟨form, grouped⟩ =>
    if grouped && !form.isAssign then parenthesized form.render else form.render

/-- The form as it stands inside of something else, without the parentheses of its expression. -/
def Form.render : Form → String
  | .name x => x
  | .number text => text
  | .string content => "\"" ++ content ++ "\""
  | .truth true => "True"
  | .truth false => "False"
  | .assign x value => parenthesized (x ++ " := " ++ value.render .operand)
  | .binary op left right =>
    left.render .operand ++ " " ++ op.word ++ " " ++ right.render .operand
  | .unary op operand => op.word ++ operand.render .operand
  | .call callee args => callee.render .operand ++ parenthesized (commaSeparated (renderAll args))
  | .index value index => value.render .operand ++ "[" ++ index.render .operand ++ "]"
  | .member ⟨form, _⟩ x =>
    (if form.isAssign then form.render else parenthesized form.render) ++ "." ++ x
  | .dict [] => "\x7b\x7d"
  | .dict (e :: es) => "\x7b " ++ commaSeparated (e.render :: renderEntries es) ++ " \x7d"
  | .list elements => "[" ++ commaSeparated (renderAll elements) ++ "]"

def Entry.render : Entry → String
  | ⟨key, value⟩ => key.render .operand ++ ": " ++ value.render .operand

def renderAll : List Expr → List String
  | [] => []
  | e :: es => e.render .operand :: renderAll es

def renderEntries : List Entry → List String
  | [] => []
  | e :: es => e.render :: renderEntries es

end

end Offside
