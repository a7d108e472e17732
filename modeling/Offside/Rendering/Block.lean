import Offside.Rendering.Expr
import Offside.Stmt.Basic

/-!
# Blocks as Python text

Statements are written on lines of their own, indented to the level of their block. A comment goes
to the end of the line of the statement before it. A block of exactly one statement is written
without indentation, so that it can stand behind the colon of its conditional on the same line.

If all that stands in the `else` of a conditional is another conditional, the two are written as
one chain with `elif`, at one level.
-/

namespace Offside

/-- How blocks are laid out. -/
structure Layout where
  /-- What a line is indented by for each level. -/
  unit : String

/-- Four spaces for each level. -/
def Layout.standard : Layout := ⟨"    "⟩

/-- What a line at the given level is indented by. -/
def Layout.indent (layout : Layout) : (level : Nat) → String
  | 0 => ""
  | level + 1 => layout.unit ++ layout.indent level

/-- What the lines of a block at the given level are indented by: nothing if it is one statement. -/
def Layout.margin (layout : Layout) (level : Nat) (block : Block) : String :=
  if block.length = 1 then "" else layout.indent level

/-- What stands between a colon and the block behind it. -/
def Block.lead (block : Block) : String := if block.length = 1 then " " else "\n"

/-- The texts with a line break between them. -/
def joinLines (texts : List String) : String := String.intercalate "\n" texts

variable (layout : Layout)

mutual

def Stmt.render : (level : Nat) → Role → Stmt → String
  | _, role, .expr e => e.render role
  | _, _, .comment text => "# " ++ text
  | level, _, .cond condition body otherwise =>
    "if " ++ condition.render .operand ++ ":" ++ Block.lead body
      ++ joinLines (Block.renderLines (level + 1) (layout.margin (level + 1) body) body)
      ++ renderElse level otherwise

/-- The lines of a block, a comment being on the line of the statement before it. -/
def Block.renderLines : (level : Nat) → (margin : String) → List Stmt → List String
  | _, _, [] => []
  | level, margin, s :: .comment text :: rest =>
    (margin ++ s.render level .statement ++ " # " ++ text) :: Block.renderLines level margin rest
  | level, margin, s :: rest =>
    (margin ++ s.render level .statement) :: Block.renderLines level margin rest

/-- What follows the body of a conditional. -/
def renderElse : (level : Nat) → Option (List Stmt) → String
  | _, none => ""
  | level, some [s] =>
    "\n" ++ layout.indent level ++
      (if s.isCond then "el" ++ s.render level .statement
        else "else: " ++ s.render (level + 1) .statement)
  | level, some block =>
    "\n" ++ layout.indent level ++ "else:" ++ Block.lead block
      ++ joinLines (Block.renderLines (level + 1) (layout.margin (level + 1) block) block)

end

/-- The text of a block whose statements stand at the given level. -/
def Block.render (level : Nat) (block : Block) : String :=
  joinLines (Block.renderLines layout level (layout.margin level block) block)

/-- The text of a program. -/
def Block.renderProgram (block : Block) : String := Block.render layout 0 block

theorem Stmt.render_cond (level : Nat) (role : Role) (condition : Expr) (body : Block)
    (otherwise : Option Block) :
    Stmt.render layout level role (.cond condition body otherwise) =
      "if " ++ condition.render .operand ++ ":" ++ Block.lead body
        ++ Block.render layout (level + 1) body ++ renderElse layout level otherwise := by
  rw [Stmt.render, Block.render]

theorem Block.render_singleton (level : Nat) (s : Stmt) :
    Block.render layout level [s] = s.render layout level .statement := by
  simp [Block.render, Layout.margin, Block.renderLines, joinLines]

end Offside
