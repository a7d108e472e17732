import Offside.Expr.Basic

/-!
# Statements

A program is a block: statements one after the other.
-/

namespace Offside

inductive Stmt where
  | expr (expr : Expr)
  | comment (text : String)
  | cond (condition : Expr) (body : List Stmt) (otherwise : Option (List Stmt))

abbrev Block := List Stmt

def Stmt.isCond : Stmt → Bool
  | cond _ _ _ => true
  | _ => false

end Offside
