import Offside.Stmt.Basic

/-!
# Going through a tree

`Expr.rebuild f` changes every node of an expression by `f`, from the leaves up, and `Expr.every p`
says that every node is in `p`; `Stmt.every` says so of the statements inside of a statement.
-/

namespace Offside

section Rebuild

variable (f : Expr → Expr)

mutual

def Expr.rebuild : Expr → Expr
  | ⟨form, grouped⟩ => f ⟨form.rebuild, grouped⟩

def Form.rebuild : Form → Form
  | .name x => .name x
  | .number text => .number text
  | .string content => .string content
  | .truth value => .truth value
  | .assign x value => .assign x value.rebuild
  | .binary op left right => .binary op left.rebuild right.rebuild
  | .unary op operand => .unary op operand.rebuild
  | .call callee args => .call callee.rebuild (rebuildAll args)
  | .index value index => .index value.rebuild index.rebuild
  | .member value x => .member value.rebuild x
  | .dict entries => .dict (rebuildEntries entries)
  | .list elements => .list (rebuildAll elements)

def rebuildAll : List Expr → List Expr
  | [] => []
  | e :: es => e.rebuild :: rebuildAll es

def rebuildEntries : List Entry → List Entry
  | [] => []
  | ⟨key, value⟩ :: es => ⟨key.rebuild, value.rebuild⟩ :: rebuildEntries es

end

theorem rebuildAll_eq_map (es : List Expr) : rebuildAll f es = es.map (Expr.rebuild f) := by
  induction es with
  | nil => rw [rebuildAll, List.map_nil]
  | cons e es ih => rw [rebuildAll, ih, List.map_cons]

/-- The entry with its key and its value changed. -/
def Entry.rebuild (n : Entry) : Entry := ⟨n.key.rebuild f, n.value.rebuild f⟩

theorem rebuildEntries_eq_map (es : List Entry) :
    rebuildEntries f es = es.map (Entry.rebuild f) := by
  induction es with
  | nil => rw [rebuildEntries, List.map_nil]
  | cons n es ih =>
    obtain ⟨key, value⟩ := n
    rw [rebuildEntries, ih, List.map_cons, Entry.rebuild]

theorem Expr.rebuild_call (callee : Expr) (args : List Expr) (g : Bool) :
    Expr.rebuild f ⟨.call callee args, g⟩ =
      f ⟨.call (callee.rebuild f) (args.map (Expr.rebuild f)), g⟩ := by
  rw [Expr.rebuild, Form.rebuild, rebuildAll_eq_map]

theorem Expr.rebuild_list (es : List Expr) (g : Bool) :
    Expr.rebuild f ⟨.list es, g⟩ = f ⟨.list (es.map (Expr.rebuild f)), g⟩ := by
  rw [Expr.rebuild, Form.rebuild, rebuildAll_eq_map]

theorem Expr.rebuild_dict (es : List Entry) (g : Bool) :
    Expr.rebuild f ⟨.dict es, g⟩ = f ⟨.dict (es.map (Entry.rebuild f)), g⟩ := by
  rw [Expr.rebuild, Form.rebuild, rebuildEntries_eq_map]

end Rebuild

section Every

variable (p : Expr → Bool)

mutual

def Expr.every : Expr → Bool
  | ⟨form, grouped⟩ => p ⟨form, grouped⟩ && form.every

def Form.every : Form → Bool
  | .assign _ value => value.every
  | .binary _ left right => left.every && right.every
  | .unary _ operand => operand.every
  | .call callee args => callee.every && everyAll args
  | .index value index => value.every && index.every
  | .member value _ => value.every
  | .dict entries => everyEntry entries
  | .list elements => everyAll elements
  | _ => true

def everyAll : List Expr → Bool
  | [] => true
  | e :: es => e.every && everyAll es

def everyEntry : List Entry → Bool
  | [] => true
  | ⟨key, value⟩ :: es => key.every && value.every && everyEntry es

end

theorem everyAll_iff {es : List Expr} : everyAll p es = true ↔ ∀ e ∈ es, e.every p = true := by
  induction es with
  | nil => simp [everyAll]
  | cons e es ih => simp [everyAll, ih]

theorem everyEntry_iff {es : List Entry} :
    everyEntry p es = true ↔ ∀ n ∈ es, n.key.every p = true ∧ n.value.every p = true := by
  induction es with
  | nil => simp [everyEntry]
  | cons n es ih =>
    obtain ⟨key, value⟩ := n
    simp [everyEntry, ih, and_assoc]

end Every

section Statements

variable (p : Stmt → Bool)

mutual

def Stmt.every : Stmt → Bool
  | .cond condition body otherwise =>
    p (.cond condition body otherwise) && everyStmt body && everyElse otherwise
  | s => p s

def everyStmt : List Stmt → Bool
  | [] => true
  | s :: ss => s.every && everyStmt ss

def everyElse : Option (List Stmt) → Bool
  | none => true
  | some block => everyStmt block

end

theorem everyStmt_iff {b : Block} : everyStmt p b = true ↔ ∀ s ∈ b, s.every p = true := by
  induction b with
  | nil => simp [everyStmt]
  | cons s ss ih => simp [everyStmt, ih]

end Statements

end Offside
