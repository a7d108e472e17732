import Offside.Token.Kind

/-!
# Expressions

An expression is a form and a flag that says whether it was written in parentheses. Repeated
parentheses leave the same flag as one pair. The flag matters in two ways: a name in parentheses
cannot be assigned to, and the parentheses are written again when the expression is rendered.
-/

namespace Offside

inductive BinaryOp where
  | add | subtract | multiply | divide | modulo
  | equality | greater | lesser | greaterEq | lesserEq
  | and | or
  deriving DecidableEq

namespace BinaryOp

def all : List BinaryOp :=
  [add, subtract, multiply, divide, modulo, equality, greater, lesser, greaterEq, lesserEq, and, or]

/-- The mark that stands for the operator. -/
def mark : BinaryOp → Mark
  | add => .plus
  | subtract => .minus
  | multiply => .star
  | divide => .slash
  | modulo => .percent
  | equality => .equality
  | greater => .greater
  | lesser => .lesser
  | greaterEq => .greaterEq
  | lesserEq => .lesserEq
  | and => .and
  | or => .or

/-- The operator that a mark stands for between two operands. -/
def ofMark? (m : Mark) : Option BinaryOp := all.find? fun op => op.mark = m

def spelling (op : BinaryOp) : String := op.mark.spelling

/-- The word for the operator in messages. -/
def label : BinaryOp → String
  | add => "Add"
  | subtract => "Subtract"
  | multiply => "Multiply"
  | divide => "Divide"
  | modulo => "Modulo"
  | equality => "Equality"
  | greater => "Greater"
  | lesser => "Lesser"
  | greaterEq => "GreaterEq"
  | lesserEq => "LesserEq"
  | and => "And"
  | or => "Or"

/-- The operators that bind more tightly than the others. -/
def isMultiplicative : BinaryOp → Bool
  | multiply | divide | modulo => true
  | _ => false

theorem ofMark?_mark (op : BinaryOp) : ofMark? op.mark = some op := by cases op <;> decide

theorem ofMark?_eq_some {m : Mark} {op : BinaryOp} : ofMark? m = some op ↔ m = op.mark := by
  constructor
  · intro h
    have h := List.find?_some h
    simp only [decide_eq_true_eq] at h
    exact h.symm
  · rintro rfl
    exact ofMark?_mark op

end BinaryOp

/-- The operators before an operand. -/
inductive UnaryOp where
  | not | negate
  deriving DecidableEq

namespace UnaryOp

def all : List UnaryOp := [not, negate]

def mark : UnaryOp → Mark
  | not => .exclamation
  | negate => .minus

/-- The operator that a mark stands for before an operand. -/
def ofMark? (m : Mark) : Option UnaryOp := all.find? fun op => op.mark = m

def spelling (op : UnaryOp) : String := op.mark.spelling

/-- The word for the operator in messages. -/
def label : UnaryOp → String
  | not => "Not"
  | negate => "Negate"

theorem ofMark?_mark (op : UnaryOp) : ofMark? op.mark = some op := by cases op <;> decide

theorem ofMark?_eq_some {m : Mark} {op : UnaryOp} : ofMark? m = some op ↔ m = op.mark := by
  constructor
  · intro h
    have h := List.find?_some h
    simp only [decide_eq_true_eq] at h
    exact h.symm
  · rintro rfl
    exact ofMark?_mark op

end UnaryOp

mutual

structure Expr where
  form : Form
  /-- The expression stood in parentheses. -/
  grouped : Bool

inductive Form where
  | name (name : String)
  | number (text : String)
  | string (content : String)
  | truth (value : Bool)
  | assign (target : String) (value : Expr)
  | binary (op : BinaryOp) (left right : Expr)
  | unary (op : UnaryOp) (operand : Expr)
  | call (callee : Expr) (args : List Expr)
  | index (value index : Expr)
  | member (value : Expr) (name : String)
  | dict (entries : List Entry)
  | list (elements : List Expr)

structure Entry where
  key : Expr
  value : Expr

end

/-- The form, not in parentheses. -/
def Form.bare (f : Form) : Expr := ⟨f, false⟩

def Form.isAssign : Form → Bool
  | assign _ _ => true
  | _ => false

namespace Expr

/-- The expression in parentheses. -/
def group (e : Expr) : Expr := ⟨e.form, true⟩

/-- The name an expression consists of, whether or not it stands in parentheses. -/
def name? (e : Expr) : Option String :=
  match e.form with
  | .name x => some x
  | _ => none

/-- The name that can be assigned to: a bare one. -/
def target? (e : Expr) : Option String := if e.grouped then none else e.name?

theorem name?_eq_some {e : Expr} {x : String} : e.name? = some x ↔ e.form = .name x := by
  obtain ⟨form, grouped⟩ := e
  cases form <;> simp [name?]

theorem name?_eq_none {e : Expr} : e.name? = none ↔ ∀ x, e.form ≠ .name x := by
  simp only [Option.eq_none_iff_forall_ne_some, ne_eq, name?_eq_some]

theorem target?_eq_some {e : Expr} {x : String} : e.target? = some x ↔ e = (Form.name x).bare := by
  obtain ⟨form, grouped⟩ := e
  cases grouped <;> simp [target?, name?_eq_some, Form.bare]

theorem target?_eq_none {e : Expr} : e.target? = none ↔ ∀ x, e ≠ (Form.name x).bare := by
  simp only [Option.eq_none_iff_forall_ne_some, ne_eq, target?_eq_some]

end Expr

end Offside
