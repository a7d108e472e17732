import Offside.Expr.Basic

/-!
# Equality of expressions

Two expressions are compared form by form, flags included; `Expr.same_iff` says that the comparison
decides equality.
-/

namespace Offside

mutual

def Expr.same : Expr → Expr → Bool
  | ⟨f, g⟩, ⟨f', g'⟩ => f.same f' && g == g'
termination_by structural e => e

def Form.same : Form → Form → Bool
  | .name x, .name y => x == y
  | .number x, .number y => x == y
  | .string x, .string y => x == y
  | .truth x, .truth y => x == y
  | .assign x e, .assign y e' => x == y && e.same e'
  | .binary op e₁ e₂, .binary op' e₁' e₂' => op == op' && e₁.same e₁' && e₂.same e₂'
  | .unary op e, .unary op' e' => op == op' && e.same e'
  | .call e es, .call e' es' => e.same e' && sameAll es es'
  | .index e i, .index e' i' => e.same e' && i.same i'
  | .member e x, .member e' y => e.same e' && x == y
  | .dict es, .dict es' => sameEntries es es'
  | .list es, .list es' => sameAll es es'
  | _, _ => false
termination_by structural e => e

def Entry.same : Entry → Entry → Bool
  | ⟨k, v⟩, ⟨k', v'⟩ => k.same k' && v.same v'
termination_by structural e => e

def sameAll : List Expr → List Expr → Bool
  | [], [] => true
  | e :: es, e' :: es' => e.same e' && sameAll es es'
  | _, _ => false
termination_by structural e => e

def sameEntries : List Entry → List Entry → Bool
  | [], [] => true
  | e :: es, e' :: es' => e.same e' && sameEntries es es'
  | _, _ => false
termination_by structural e => e

end

mutual

theorem Expr.same_iff : ∀ e e' : Expr, e.same e' = true ↔ e = e'
  | ⟨f, g⟩, ⟨f', g'⟩ => by simp [Expr.same, Form.same_iff f f']

theorem Form.same_iff : ∀ f f' : Form, f.same f' = true ↔ f = f'
  | .name x, f' => by cases f' <;> simp [Form.same]
  | .number x, f' => by cases f' <;> simp [Form.same]
  | .string x, f' => by cases f' <;> simp [Form.same]
  | .truth x, f' => by cases f' <;> simp [Form.same]
  | .assign x e, f' => by cases f' <;> simp [Form.same, Expr.same_iff e]
  | .binary op e₁ e₂, f' => by
    cases f' <;> simp [Form.same, Expr.same_iff e₁, Expr.same_iff e₂, and_assoc]
  | .unary op e, f' => by cases f' <;> simp [Form.same, Expr.same_iff e]
  | .call e es, f' => by cases f' <;> simp [Form.same, Expr.same_iff e, sameAll_iff es]
  | .index e i, f' => by cases f' <;> simp [Form.same, Expr.same_iff e, Expr.same_iff i]
  | .member e x, f' => by cases f' <;> simp [Form.same, Expr.same_iff e]
  | .dict es, f' => by cases f' <;> simp [Form.same, sameEntries_iff es]
  | .list es, f' => by cases f' <;> simp [Form.same, sameAll_iff es]

theorem Entry.same_iff : ∀ e e' : Entry, e.same e' = true ↔ e = e'
  | ⟨k, v⟩, ⟨k', v'⟩ => by simp [Entry.same, Expr.same_iff k, Expr.same_iff v]

theorem sameAll_iff : ∀ es es' : List Expr, sameAll es es' = true ↔ es = es'
  | [], es' => by cases es' <;> simp [sameAll]
  | e :: es, es' => by cases es' <;> simp [sameAll, Expr.same_iff e, sameAll_iff es]

theorem sameEntries_iff : ∀ es es' : List Entry, sameEntries es es' = true ↔ es = es'
  | [], es' => by cases es' <;> simp [sameEntries]
  | e :: es, es' => by cases es' <;> simp [sameEntries, Entry.same_iff e, sameEntries_iff es]

end

instance : DecidableEq Expr := fun e e' => decidable_of_iff _ (Expr.same_iff e e')

instance : DecidableEq Form := fun f f' => decidable_of_iff _ (Form.same_iff f f')

instance : DecidableEq Entry := fun e e' => decidable_of_iff _ (Entry.same_iff e e')

end Offside
