import Offside.Expr.Equality
import Offside.Stmt.Basic

/-!
# Equality of statements

As for expressions: statements are compared part by part, and `Stmt.same_iff` says that the
comparison decides equality.
-/

namespace Offside

mutual

def Stmt.same : Stmt → Stmt → Bool
  | .expr e, .expr e' => e.same e'
  | .comment c, .comment c' => c == c'
  | .cond e b o, .cond e' b' o' => e.same e' && sameBlock b b' && sameElse o o'
  | _, _ => false

def sameBlock : List Stmt → List Stmt → Bool
  | [], [] => true
  | s :: ss, s' :: ss' => s.same s' && sameBlock ss ss'
  | _, _ => false

def sameElse : Option (List Stmt) → Option (List Stmt) → Bool
  | none, none => true
  | some b, some b' => sameBlock b b'
  | _, _ => false

end

mutual

theorem Stmt.same_iff : ∀ s s' : Stmt, s.same s' = true ↔ s = s'
  | .expr e, s' => by cases s' <;> simp [Stmt.same, Expr.same_iff e]
  | .comment c, s' => by cases s' <;> simp [Stmt.same]
  | .cond e b o, s' => by
    cases s' <;> simp [Stmt.same, Expr.same_iff e, sameBlock_iff b, sameElse_iff o, and_assoc]

theorem sameBlock_iff : ∀ b b' : List Stmt, sameBlock b b' = true ↔ b = b'
  | [], b' => by cases b' <;> simp [sameBlock]
  | s :: ss, b' => by cases b' <;> simp [sameBlock, Stmt.same_iff s, sameBlock_iff ss]

theorem sameElse_iff : ∀ o o' : Option (List Stmt), sameElse o o' = true ↔ o = o'
  | none, o' => by cases o' <;> simp [sameElse]
  | some b, o' => by cases o' <;> simp [sameElse, sameBlock_iff b]

end

instance : DecidableEq Stmt := fun s s' => decidable_of_iff _ (Stmt.same_iff s s')

end Offside
