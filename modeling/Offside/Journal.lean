import Offside.Expr.Description
import Offside.Program
import Offside.Rendering.Block

/-!
# Conversion and its journal

`convert` reads a program and renders it. `journal` is the list of steps that this takes, in order:
the scan, each statement when it has been read in full, the end of the reading, and each block as
its rendering starts. The steps of a finished statement are a function of the statement, so only a
halt has to say which statements were finished before it.
-/

namespace Offside

inductive Event where
  | scanned (tokens lines : Nat)
  | readExpr (form : Form)
  | readCond (hasElse : Bool)
  | readProgram (statements : Nat)
  | failed (fault : Fault)
  | rendering (statements level : Nat)

/-- How much an event matters. -/
inductive Severity where
  | debug
  | trace
  deriving DecidableEq

def Severity.label : Severity → String
  | debug => "DEBUG"
  | trace => "TRACE"

namespace Event

def severity : Event → Severity
  | scanned _ _ | readProgram _ | failed _ => .debug
  | readExpr _ | readCond _ | rendering _ _ => .trace

def message : Event → String
  | scanned tokens lines =>
    "scanned " ++ toString tokens ++ " tokens from " ++ toString lines ++ " lines"
  | readExpr form => "parsed expression statement " ++ form.description
  | readCond hasElse => "parsed if statement, else branch: " ++ toString hasElse
  | readProgram statements => "parsed " ++ toString statements ++ " top level statements"
  | failed fault => "parse failed: " ++ fault.message
  | rendering statements level =>
    "rendering block of " ++ toString statements ++ " statements at level " ++ toString level

end Event

/-! ## Reading -/

mutual

/-- The steps of reading a statement. -/
def Stmt.readEvents : Stmt → List Event
  | .expr e => [.readExpr e.form]
  | .comment _ => []
  | .cond _ body otherwise =>
    Block.readEvents body ++ elseReadEvents otherwise ++ [.readCond otherwise.isSome]

def Block.readEvents : List Stmt → List Event
  | [] => []
  | s :: ss => s.readEvents ++ Block.readEvents ss

def elseReadEvents : Option (List Stmt) → List Event
  | none => []
  | some block => Block.readEvents block

end

def Outcome.readEvents : Outcome Block → List Event
  | done block _ => Block.readEvents block ++ [.readProgram block.length]
  | halted h => Block.readEvents h.completed ++ [.failed h.fault]

/-! ## Rendering -/

/-- The step of starting on a block, which is not mentioned for a block of one statement. -/
def Block.startEvents (level : Nat) (block : Block) : List Event :=
  if block.length = 1 then [] else [.rendering block.length level]

mutual

/-- The steps of rendering a statement at a level. -/
def Stmt.renderEvents : (level : Nat) → Stmt → List Event
  | _, .expr _ => []
  | _, .comment _ => []
  | level, .cond _ body otherwise =>
    Block.startEvents (level + 1) body ++ partsRenderEvents (level + 1) body
      ++ elseRenderEvents level otherwise

/-- The steps of rendering the statements of a block. -/
def partsRenderEvents : (level : Nat) → List Stmt → List Event
  | _, [] => []
  | level, s :: ss => s.renderEvents level ++ partsRenderEvents level ss

def elseRenderEvents : (level : Nat) → Option (List Stmt) → List Event
  | _, none => []
  | level, some [s] => s.renderEvents (if s.isCond then level else level + 1)
  | level, some block =>
    Block.startEvents (level + 1) block ++ partsRenderEvents (level + 1) block

end

/-- The steps of rendering a block at a level. -/
def Block.renderEvents (level : Nat) (block : Block) : List Event :=
  Block.startEvents level block ++ partsRenderEvents level block

/-! ## Both -/

/-- Reads a program and renders it. -/
def convert (source : String) : Except Fault String :=
  (Block.parse source).map (Block.renderProgram Layout.standard)

/-- The steps of reading a program and rendering it. A text with a stray character leaves none. -/
def journal (source : String) : List Event :=
  match Token.scan source with
  | .error _ => []
  | .ok ts =>
    let outcome := Block.readTokens maxNesting ts
    [.scanned ts.length (Text.lines source.toList).length] ++ outcome.readEvents ++
      match outcome with
      | .done block _ => Block.renderEvents 0 block
      | .halted _ => []

end Offside
