import Offside.Expr.Basic
import Offside.Text.Quoted

/-!
# Expressions in messages

The whole structure of an expression on one line, with every part named and every flag shown.
-/

namespace Offside

/-- A word with its parts in parentheses behind it. -/
def described (word : String) (parts : List String) : String :=
  word ++ "(" ++ String.intercalate ", " parts ++ ")"

def describedList (parts : List String) : String := "[" ++ String.intercalate ", " parts ++ "]"

/-- A word with its named parts in braces behind it. -/
def describedFields (word : String) (fields : List (String × String)) : String :=
  word ++ " \x7b " ++ String.intercalate ", " (fields.map fun f => f.1 ++ ": " ++ f.2) ++ " \x7d"

mutual

def Expr.description : Expr → String
  | ⟨form, grouped⟩ =>
    describedFields "Expr" [("kind", form.description), ("parenthesized", toString grouped)]

def Form.description : Form → String
  | .name x => described "Identifier" [Text.quoted x]
  | .number text => described "Number" [Text.quoted text]
  | .string content => described "Str" [Text.quoted content]
  | .truth value => described "Boolean" [toString value]
  | .assign x value => described "Assignment" [Text.quoted x, value.description]
  | .binary op left right => described "Binary" [left.description, right.description, op.label]
  | .unary op operand => described "PreUnary" [op.label, operand.description]
  | .call callee args => described "Call" [callee.description, describedList (describeAll args)]
  | .index value index => described "Index" [value.description, index.description]
  | .member value x => described "Method" [value.description, Text.quoted x]
  | .dict entries => described "Dictionary" [describedList (describeEntries entries)]
  | .list elements => described "List" [describedList (describeAll elements)]

def Entry.description : Entry → String
  | ⟨key, value⟩ =>
    describedFields "Property" [("key", key.description), ("value", value.description)]

def describeAll : List Expr → List String
  | [] => []
  | e :: es => e.description :: describeAll es

def describeEntries : List Entry → List String
  | [] => []
  | e :: es => e.description :: describeEntries es

end

end Offside
