import Mathlib.Data.List.ModifyLast
import Offside.Proofs.Juxtaposed

/-!
# The lines of a block

A rendered block is a list of lines, and `Block.lines` gives them without their indentation. A line
knows by how many levels it is indented more than the block (`Line.level`), and where it starts
(`Line.start`). Neither depends on the unit of the indentation nor on the level of the block, and
the rendered text is the lines, each with its indentation before it (`Block.render_lines`).

A line starts with a statement, with the `else` or `elif` of one, or with nothing at all, where a
branch is empty. Its level is how many branches stand around that place (`Within`), where the
`else` that makes a chain of conditionals does not count.
-/

namespace Offside

/-! ## Going through statements -/

/-- What holds of a conditional if it holds of all statements in its branches, holds of every
statement. -/
@[elab_as_elim]
theorem Stmt.induct {P : Stmt → Prop} (expr : ∀ e, P (.expr e))
    (comment : ∀ text, P (.comment text))
    (cond : ∀ condition body otherwise, (∀ s ∈ body, P s) →
      (∀ block, otherwise = some block → ∀ s ∈ block, P s) → P (.cond condition body otherwise))
    (s : Stmt) : P s :=
  @Stmt.rec P (fun b => ∀ s ∈ b, P s) (fun o => ∀ block, o = some block → ∀ s ∈ block, P s)
    expr comment cond (fun _ h => absurd h List.not_mem_nil)
    (fun _ _ hs hrest => List.forall_mem_cons.2 ⟨hs, hrest⟩)
    (fun _ h => absurd h (by simp)) (fun _ hb _ h => Option.some.inj h ▸ hb) s

/-- Statements two by two where the second is a comment, and one by one else. -/
@[elab_as_elim]
theorem Block.induct {P : Block → Prop} (nil : P [])
    (pair : ∀ s text rest, P rest → P (s :: .comment text :: rest))
    (single : ∀ s rest, (∀ text rest', rest ≠ .comment text :: rest') → P rest → P (s :: rest)) :
    ∀ b, P b
  | [] => nil
  | s :: .comment text :: rest => pair s text rest (Block.induct nil pair single rest)
  | [s] => single s [] nofun nil
  | s :: .expr e :: rest => single s _ nofun (Block.induct nil pair single (.expr e :: rest))
  | s :: .cond c b o :: rest =>
    single s _ nofun (Block.induct nil pair single (.cond c b o :: rest))

/-! ## Lines -/

inductive Branch where
  | body
  | otherwise

/-- The way from a block to one inside of it: which of its statements, which branch of that, and so
on. -/
abbrev Path := List (Nat × Branch)

/-- What a line starts with. -/
inductive Start where
  /-- A statement, by its index in the block at the path. -/
  | statement (path : Path) (index : Nat)
  /-- The `else` or `elif` of that statement. -/
  | otherwise (path : Path) (index : Nat)
  /-- Nothing, as there are no statements in the block at the path. -/
  | nothing (path : Path)

inductive Opening where
  | code (text : String)
  | comment (text : String)

structure Line where
  start : Start
  /-- How many levels the line is indented further than the block; none if it is never indented. -/
  level : Option Nat
  opening : Opening
  /-- The comments at the end of the line. -/
  remarks : List String

def Opening.text : Opening → String
  | code text => text
  | comment text => "# " ++ text

namespace Line

def text (l : Line) : String := l.opening.text ++ String.join (l.remarks.map (" # " ++ ·))

/-- The indentation of the line, in a block at the given level. -/
def margin (layout : Layout) (level : Nat) (l : Line) : String :=
  l.level.elim "" fun k => String.join (List.replicate (level + k) layout.unit)

/-- The line with its indentation. -/
def written (layout : Layout) (level : Nat) (l : Line) : String := l.margin layout level ++ l.text

def remark (text : String) (l : Line) : Line := { l with remarks := l.remarks ++ [text] }

/-- The line, moved behind some code that ends in a colon. -/
def behind (start : Start) (level : Nat) (code : String) (l : Line) : Line :=
  match l.opening with
  | .code text => ⟨start, some level, .code (code ++ " " ++ text), l.remarks⟩
  | .comment text => ⟨start, some level, .code code, text :: l.remarks⟩

/-- The first line of a conditional, if it is all there is in the `else` of another. -/
def chained (path : Path) (index level : Nat) (l : Line) : Line :=
  ⟨.otherwise path index, some level, .code ("el" ++ l.opening.text), l.remarks⟩

/-- Some code that ends in a colon, and the lines of the block at the path behind it: on the same
line, if it is one statement. -/
def hang (start : Start) (level : Nat) (code : String) (path : Path) :
    Block → List Line → List Line
  | [], _ => [⟨start, some level, .code code, []⟩, ⟨.nothing path, none, .code "", []⟩]
  | [_], l :: ls => l.behind start level code :: ls
  | _, ls => ⟨start, some level, .code code, []⟩ :: ls

end Line

open Line (hang)

mutual

/-- The lines of a statement, with its place in a block and how far it is indented. -/
def Stmt.lines : (path : Path) → (index level : Nat) → Stmt → List Line
  | path, index, level, .expr e =>
    [⟨.statement path index, some level, .code (e.render .statement), []⟩]
  | path, index, level, .comment text =>
    [⟨.statement path index, some level, .comment text, []⟩]
  | path, index, level, .cond condition body otherwise =>
    hang (.statement path index) level ("if " ++ condition.render .operand ++ ":")
      (path ++ [(index, .body)]) body (linesFrom (path ++ [(index, .body)]) 0 (level + 1) body) ++
      linesElse path index level otherwise

/-- The lines of the statements of a block from an index on. -/
def linesFrom : (path : Path) → (index level : Nat) → List Stmt → List Line
  | _, _, _, [] => []
  | path, index, level, s :: .comment text :: rest =>
    (s.lines path index level).modifyLast (.remark text) ++ linesFrom path (index + 2) level rest
  | path, index, level, s :: rest =>
    s.lines path index level ++ linesFrom path (index + 1) level rest

/-- The lines below those of the body of a conditional. -/
def linesElse : (path : Path) → (index level : Nat) → Option (List Stmt) → List Line
  | _, _, _, none => []
  | path, index, level, some [s] =>
    if s.isCond then
      (s.lines (path ++ [(index, .otherwise)]) 0 level).modifyHead (.chained path index level)
    else
      hang (.otherwise path index) level "else:" (path ++ [(index, .otherwise)])
        [s] (s.lines (path ++ [(index, .otherwise)]) 0 (level + 1))
  | path, index, level, some block =>
    hang (.otherwise path index) level "else:" (path ++ [(index, .otherwise)])
      block (linesFrom (path ++ [(index, .otherwise)]) 0 (level + 1) block)

end

/-- The lines of a block. A single one, or none, is not indented: it can stand behind a colon. -/
def Block.lines : Block → List Line
  | [] => [⟨.nothing [], none, .code "", []⟩]
  | [s] => (s.lines [] 0 0).modifyHead fun l => { l with level := none }
  | b => linesFrom [] 0 0 b

theorem linesFrom_cons {s : Stmt} {rest : Block}
    (h : ∀ text rest', rest ≠ .comment text :: rest') (path : Path) (index level : Nat) :
    linesFrom path index level (s :: rest) =
      s.lines path index level ++ linesFrom path (index + 1) level rest := by
  rw [linesFrom]
  exact h

theorem linesFrom_singleton (path : Path) (index level : Nat) (s : Stmt) :
    linesFrom path index level [s] = s.lines path index level := by
  rw [linesFrom_cons (fun _ _ => (List.cons_ne_nil _ _).symm), linesFrom, List.append_nil]

/-- A conditional alone is chained; everything else hangs below `else`. -/
theorem linesElse_cases (path : Path) (index level : Nat) (b : Block) :
    (∃ s, b = [s] ∧ s.isCond = true ∧ linesElse path index level (some b) =
      (s.lines (path ++ [(index, .otherwise)]) 0 level).modifyHead (.chained path index level)) ∨
      ((∀ s, b = [s] → s.isCond = false) ∧ linesElse path index level (some b) =
        hang (.otherwise path index) level "else:" (path ++ [(index, .otherwise)]) b
          (linesFrom (path ++ [(index, .otherwise)]) 0 (level + 1) b)) := by
  match b with
  | [] =>
    refine Or.inr ⟨nofun, ?_⟩
    rw [linesElse]
    exact nofun
  | [s] =>
    by_cases hs : s.isCond = true
    · exact Or.inl ⟨s, rfl, hs, by rw [linesElse, if_pos hs]⟩
    · refine Or.inr ⟨fun s' h => ?_, by rw [linesElse, if_neg hs, linesFrom_singleton]⟩
      rw [← (List.cons.inj h).1]
      exact Bool.eq_false_iff.2 hs
  | s :: s' :: rest =>
    refine Or.inr ⟨nofun, ?_⟩
    rw [linesElse]
    exact nofun

theorem linesElse_of_not_chained {b : Block} (h : ∀ s, b = [s] → s.isCond = false) (path : Path)
    (index level : Nat) : linesElse path index level (some b) =
      hang (.otherwise path index) level "else:" (path ++ [(index, .otherwise)]) b
        (linesFrom (path ++ [(index, .otherwise)]) 0 (level + 1) b) := by
  rcases linesElse_cases path index level b with ⟨s, rfl, hs, -⟩ | ⟨-, hlines⟩
  · exact absurd hs (by simp [h s rfl])
  · exact hlines

/-! ## The text of the lines -/

section Text

variable (layout : Layout) (base : Nat)

theorem joinLines_cons (t : String) (ts : List String) :
    joinLines (t :: ts) = t ++ String.join (ts.map ("\n" ++ ·)) := by
  induction ts generalizing t with
  | nil => simp [joinLines]
  | cons u ts ih =>
    rw [List.map_cons, String.join_cons, joinLines, String.intercalate_cons_cons, ← joinLines, ih]
    simp only [String.append_assoc]

/-- The lines with a line break before each. -/
def below (ls : List Line) : String :=
  String.join ((ls.map (Line.written layout base)).map ("\n" ++ ·))

/-- The lines, the first one without its indentation. -/
def unmargined : List Line → String
  | [] => ""
  | l :: ls => l.text ++ below layout base ls

theorem below_append (ls ls' : List Line) :
    below layout base (ls ++ ls') = below layout base ls ++ below layout base ls' := by
  simp [below]

theorem unmargined_append {ls : List Line} (h : ls ≠ []) (ls' : List Line) :
    unmargined layout base (ls ++ ls') = unmargined layout base ls ++ below layout base ls' := by
  obtain ⟨l, ls, rfl⟩ := List.exists_cons_of_ne_nil h
  rw [List.cons_append, unmargined, unmargined, below_append, String.append_assoc]

end Text

theorem Line.text_remark (text : String) (l : Line) :
    (l.remark text).text = l.text ++ " # " ++ text := by
  simp [Line.text, Line.remark, String.append_assoc]

theorem Line.text_behind (start : Start) (level : Nat) (code : String) (l : Line) :
    (l.behind start level code).text = code ++ " " ++ l.text := by
  unfold Line.behind
  split
  · rename_i h
    simp [Line.text, Opening.text, h, String.append_assoc]
  · rename_i text h
    have hmark : ∀ t : String, " # " ++ t = " " ++ ("# " ++ t) := fun t => by
      rw [← String.append_assoc]
      rfl
    simp only [Line.text, Opening.text, h, List.map_cons, String.join_cons, String.append_assoc,
      hmark]

theorem Line.text_chained (path : Path) (index level : Nat) (l : Line) :
    (l.chained path index level).text = "el" ++ l.text := by
  simp [Line.text, Line.chained, Opening.text, String.append_assoc]

section Text

variable (layout : Layout) (base : Nat)

theorem below_remark (text : String) {ls : List Line} (h : ls ≠ []) :
    below layout base (ls.modifyLast (.remark text)) = below layout base ls ++ " # " ++ text := by
  obtain ⟨init, l, rfl⟩ := (List.eq_nil_or_concat' ls).resolve_left h
  have hlast : (l.remark text).written layout base = l.written layout base ++ " # " ++ text := by
    simp only [Line.written, Line.text_remark, String.append_assoc]
    rfl
  rw [List.modifyLast_concat, below_append, below_append]
  simp only [below, List.map_cons, List.map_nil, String.join_cons, String.join_nil, hlast,
    String.append_assoc, String.append_empty]

end Text

/-! ## Lines and what they start with -/

/-- What a statement starts with. -/
def Stmt.firstText : Stmt → String
  | .expr e => e.render .statement
  | .comment text => "# " ++ text
  | .cond condition _ _ => "if " ++ condition.render .operand ++ ":"

/-- What a block starts with as the `else` of a conditional. -/
def Block.elseText : Block → String
  | [.cond condition _ _] => "elif " ++ condition.render .operand ++ ":"
  | _ => "else:"

theorem Line.hang_eq_cons (start : Start) (level : Nat) (code : String) (path : Path) (b : Block)
    (ls : List Line) : ∃ l ls', hang start level code path b ls = l :: ls' ∧ l.start = start ∧
      l.level = some level ∧ (∃ rest, l.text = code ++ rest) ∧
      ∀ m ∈ ls', m ∈ ls ∨ b = [] ∧ m = ⟨.nothing path, none, .code "", []⟩ := by
  unfold hang
  split
  · exact ⟨_, _, rfl, rfl, rfl, ⟨"", rfl⟩, fun m hm => Or.inr ⟨rfl, List.mem_singleton.1 hm⟩⟩
  · rename_i s l ls
    refine ⟨_, _, rfl, ?_, ?_, ⟨" " ++ l.text, by rw [text_behind, String.append_assoc]⟩,
      fun m hm => Or.inl (List.mem_cons_of_mem l hm)⟩
    · unfold behind
      split <;> rfl
    · unfold behind
      split <;> rfl
  · exact ⟨_, _, rfl, rfl, rfl, ⟨"", rfl⟩, fun m hm => Or.inl hm⟩

theorem Line.hang_cons_cons (start : Start) (level : Nat) (code : String) (path : Path)
    (s s' : Stmt) (rest : Block) (ls : List Line) :
    hang start level code path (s :: s' :: rest) ls =
      ⟨start, some level, .code code, []⟩ :: ls := by
  rw [hang] <;> exact nofun

theorem Stmt.lines_eq_cons (path : Path) (index level : Nat) (s : Stmt) :
    ∃ l ls, s.lines path index level = l :: ls ∧ l.start = .statement path index ∧
      l.level = some level ∧ ∃ rest, l.text = s.firstText ++ rest := by
  cases s with
  | expr e => exact ⟨_, _, by rw [lines], rfl, rfl, "", rfl⟩
  | comment text => exact ⟨_, _, by rw [lines], rfl, rfl, "", rfl⟩
  | cond c body other =>
    obtain ⟨l, ls, h, hstart, hlevel, htext, -⟩ := Line.hang_eq_cons (.statement path index) level
      ("if " ++ c.render .operand ++ ":") (path ++ [(index, .body)]) body
      (linesFrom (path ++ [(index, .body)]) 0 (level + 1) body)
    exact ⟨l, ls ++ linesElse path index level other, by rw [lines, h, List.cons_append], hstart,
      hlevel, htext⟩

theorem Stmt.lines_ne_nil (path : Path) (index level : Nat) (s : Stmt) :
    s.lines path index level ≠ [] := by
  obtain ⟨l, ls, h, -⟩ := s.lines_eq_cons path index level
  exact h ▸ List.cons_ne_nil l ls

/-! ## Rendering -/

section Rendering

variable (layout : Layout) (base : Nat)

/-- Lines are indented by the unit, once for each level. -/
theorem Layout.indent_eq_join (level : Nat) :
    layout.indent level = String.join (List.replicate level layout.unit) := by
  induction level with
  | zero => rfl
  | succ level ih => rw [Layout.indent, ih, List.replicate_succ, String.join_cons]

/-- Where the first line is at a level, its indentation is that of the level. -/
theorem below_of_level {l : Line} {level : Nat} (h : l.level = some level) (ls : List Line) :
    below layout base (l :: ls) =
      "\n" ++ layout.indent (base + level) ++ unmargined layout base (l :: ls) := by
  simp [below, unmargined, Line.written, Line.margin, h, String.append_assoc,
    Layout.indent_eq_join]

theorem Stmt.below_lines (path : Path) (index level : Nat) (s : Stmt) :
    below layout base (s.lines path index level) = "\n" ++ layout.indent (base + level) ++
      unmargined layout base (s.lines path index level) := by
  obtain ⟨l, ls, h, -, hlevel, -⟩ := s.lines_eq_cons path index level
  rw [h, below_of_level layout base hlevel]

/-- The text of the lines of the statement is the rendered one. -/
def Stmt.Rendered (s : Stmt) : Prop :=
  ∀ path index level, unmargined layout base (s.lines path index level) =
    s.render layout (base + level) .statement

variable {layout base}

theorem below_linesFrom {b : Block} (h : ∀ s ∈ b, s.Rendered layout base) (path : Path)
    (index level : Nat) : below layout base (linesFrom path index level b) =
      String.join ((Block.renderLines layout (base + level) (layout.indent (base + level)) b).map
        ("\n" ++ ·)) := by
  induction b using Block.induct generalizing index with
  | nil => simp [linesFrom, Block.renderLines, below]
  | pair s text rest ih =>
    have hrest := ih (fun t ht => h t (by simp [ht])) (index + 2)
    have hs := h s List.mem_cons_self path index level
    rw [linesFrom, below_append, below_remark layout base text (s.lines_ne_nil path index level),
      Stmt.below_lines, hs, hrest, Block.renderLines, List.map_cons, String.join_cons]
    simp only [String.append_assoc]
  | single s rest hc ih =>
    have hrest := ih (fun t ht => h t (by simp [ht])) (index + 1)
    have hs := h s List.mem_cons_self path index level
    have hhead : ∀ text, rest.head? ≠ some (.comment text) := by
      intro text hhead
      obtain ⟨rest', hrest'⟩ := List.head?_eq_some_iff.1 hhead
      exact hc text rest' hrest'
    rw [linesFrom_cons hc, below_append, Stmt.below_lines, hs, hrest,
      Block.renderLines_cons layout hhead, List.map_cons, String.join_cons]
    simp only [String.append_assoc]

theorem join_breaks {ts : List String} (h : ts ≠ []) :
    String.join (ts.map ("\n" ++ ·)) = "\n" ++ joinLines ts := by
  obtain ⟨t, ts, rfl⟩ := List.exists_cons_of_ne_nil h
  rw [List.map_cons, String.join_cons, joinLines_cons, String.append_assoc]

/-- Two statements and more are rendered with a margin. -/
theorem Block.render_cons_cons (level : Nat) (s s' : Stmt) (rest : Block) :
    "\n" ++ Block.render layout level (s :: s' :: rest) =
      String.join ((Block.renderLines layout level (layout.indent level)
        (s :: s' :: rest)).map ("\n" ++ ·)) := by
  rw [join_breaks (Block.renderLines_ne_nil layout (List.cons_ne_nil s _) _ _), Block.render]
  rfl

theorem unmargined_hang {b : Block} (h : ∀ s ∈ b, s.Rendered layout base) (start : Start)
    (level : Nat) (code : String) (path : Path) :
    unmargined layout base (hang start level code path b (linesFrom path 0 (level + 1) b)) =
      code ++ Block.lead b ++ Block.render layout (base + level + 1) b := by
  match b with
  | [] =>
    simp [hang, unmargined, below, Line.written, Line.margin, Line.text, Opening.text, Block.lead,
      Block.render, Block.renderLines, joinLines]
  | [s] =>
    obtain ⟨l, ls, hl, -, -, -⟩ := s.lines_eq_cons path 0 (level + 1)
    have hs := h s List.mem_cons_self path 0 (level + 1)
    rw [hl, unmargined] at hs
    rw [linesFrom_singleton, hl, hang, unmargined, Line.text_behind, Block.render_singleton,
      String.append_assoc, hs]
    rfl
  | s :: s' :: rest =>
    have hrest := below_linesFrom h path 0 (level + 1)
    rw [← Nat.add_assoc, ← Block.render_cons_cons] at hrest
    rw [Line.hang_cons_cons, unmargined, hrest]
    simp [Line.text, Opening.text, Block.lead, String.append_assoc]

theorem renderElse_of_not_chained {b : Block} (h : ∀ s, b = [s] → s.isCond = false) (level : Nat) :
    renderElse layout level (some b) = "\n" ++ layout.indent level ++
      ("else:" ++ Block.lead b ++ Block.render layout (level + 1) b) := by
  match b with
  | [] => simp [renderElse, Block.render, String.append_assoc]
  | [s] =>
    have hs : s.isCond = false := h s rfl
    have hlead : ("else: " : String) = "else:" ++ Block.lead [s] := rfl
    rw [renderElse, Block.render_singleton, hs, ← hlead]
    rfl
  | s :: s' :: rest => simp [renderElse, Block.render, String.append_assoc]

theorem below_linesElse {b : Block} (h : ∀ s ∈ b, s.Rendered layout base) (path : Path)
    (index level : Nat) : below layout base (linesElse path index level (some b)) =
      renderElse layout (base + level) (some b) := by
  rcases linesElse_cases path index level b with ⟨s, rfl, hs, hlines⟩ | ⟨hb, hlines⟩
  · obtain ⟨l, ls, hl, -, hlevel, -⟩ := s.lines_eq_cons (path ++ [(index, .otherwise)]) 0 level
    have htext := h s List.mem_cons_self (path ++ [(index, .otherwise)]) 0 level
    rw [hl, unmargined] at htext
    have hfirst : (l.chained path index level).level = some level := rfl
    rw [hlines, hl, List.modifyHead_cons, below_of_level layout base hfirst, unmargined,
      Line.text_chained, renderElse, if_pos hs, ← htext]
    simp only [String.append_assoc]
  · obtain ⟨l, ls, hl, -, hlevel, -⟩ := Line.hang_eq_cons (.otherwise path index) level "else:"
      (path ++ [(index, .otherwise)]) b (linesFrom (path ++ [(index, .otherwise)]) 0 (level + 1) b)
    have htext := unmargined_hang h (.otherwise path index) level "else:"
      (path ++ [(index, .otherwise)])
    rw [hlines, renderElse_of_not_chained hb, ← htext, hl, below_of_level layout base hlevel]

variable (layout base)

theorem Stmt.rendered (s : Stmt) : s.Rendered layout base := by
  induction s using Stmt.induct with
  | expr e =>
    intro path index level
    simp [lines, unmargined, below, Line.text, Opening.text, render]
  | comment text =>
    intro path index level
    simp [lines, unmargined, below, Line.text, Opening.text, render]
  | cond c body other hbody hother =>
    intro path index level
    have hne : hang (.statement path index) level ("if " ++ c.render .operand ++ ":")
        (path ++ [(index, .body)]) body
        (linesFrom (path ++ [(index, .body)]) 0 (level + 1) body) ≠ [] := by
      obtain ⟨l, ls, hl, -⟩ := Line.hang_eq_cons (.statement path index) level
        ("if " ++ c.render .operand ++ ":") (path ++ [(index, .body)]) body
        (linesFrom (path ++ [(index, .body)]) 0 (level + 1) body)
      exact hl ▸ List.cons_ne_nil l ls
    rw [lines, unmargined_append layout base hne, unmargined_hang hbody, Stmt.render_cond]
    rcases other with _ | b
    · simp [linesElse, renderElse, below]
    · rw [below_linesElse (hother b rfl)]

/-- The lines of a block, each with its indentation, are its text. -/
theorem Block.render_lines (b : Block) :
    Block.render layout base b = joinLines (b.lines.map (Line.written layout base)) := by
  match b with
  | [] => rfl
  | [s] =>
    obtain ⟨l, ls, hl, -, -, -⟩ := s.lines_eq_cons [] 0 0
    have hs := s.rendered layout base [] 0 0
    rw [hl, unmargined] at hs
    rw [Block.render_singleton, Block.lines, hl, List.modifyHead_cons, List.map_cons,
      joinLines_cons]
    exact hs.symm
  | s :: s' :: rest =>
    have hbelow := below_linesFrom (b := s :: s' :: rest) (fun t _ => t.rendered layout base) [] 0 0
    rw [Nat.add_zero, ← Block.render_cons_cons] at hbelow
    have hne : linesFrom [] 0 0 (s :: s' :: rest) ≠ [] := by
      intro hnil
      simp [hnil, below] at hbelow
    rw [below, join_breaks (by simpa using hne)] at hbelow
    exact ((String.append_right_inj "\n").1 hbelow).symm

end Rendering

/-! ## Levels -/

/-- The path leads from `b` to the block `inside`, with `level` branches around it. A conditional
that is all there is in an `else` is chained to the one before, and stands at the level of it. -/
inductive Within (b : Block) : (path : Path) → (level : Nat) → (inside : Block) → Prop where
  | here : Within b [] 0 b
  | body {path : Path} {level index : Nat} {block body : Block} {c : Expr} {other : Option Block}
      (h : Within b path level block) (hs : block[index]? = some (.cond c body other)) :
      Within b (path ++ [(index, .body)]) (level + 1) body
  | otherwise {path : Path} {level index : Nat} {block body other : Block} {c : Expr}
      (h : Within b path level block) (hs : block[index]? = some (.cond c body (some other)))
      (ho : ∀ s, other = [s] → s.isCond = false) :
      Within b (path ++ [(index, .otherwise)]) (level + 1) other
  | chained {path : Path} {level index : Nat} {block body : Block} {c : Expr} {s : Stmt}
      (h : Within b path level block) (hs : block[index]? = some (.cond c body (some [s])))
      (hc : s.isCond = true) : Within b (path ++ [(index, .otherwise)]) level [s]

/-- The line starts where it says, and this is the level of that place; a line that starts with
nothing is at none. -/
inductive Line.StandsAt (b : Block) (l : Line) : (level : Option Nat) → Prop where
  | statement {path : Path} {level index : Nat} {block : Block} {s : Stmt} {rest : String}
      (hstart : l.start = .statement path index) (h : Within b path level block)
      (hs : block[index]? = some s) (htext : l.text = s.firstText ++ rest) :
      StandsAt b l (some level)
  | otherwise {path : Path} {level index : Nat} {block body other : Block} {c : Expr}
      {rest : String} (hstart : l.start = .otherwise path index) (h : Within b path level block)
      (hs : block[index]? = some (.cond c body (some other)))
      (htext : l.text = Block.elseText other ++ rest) : StandsAt b l (some level)
  | nothing {path : Path} {level : Nat} (hstart : l.start = .nothing path)
      (h : Within b path level []) (hopening : l.opening = .code "") : StandsAt b l none

theorem Line.StandsAt.unlevel {b : Block} {l : Line} {level : Option Nat} (h : l.StandsAt b level)
    (k : Option Nat) : StandsAt b { l with level := k } level := by
  rcases h with ⟨hstart, h, hs, htext⟩ | ⟨hstart, h, hs, htext⟩ | ⟨hstart, h, hopening⟩
  · exact .statement hstart h hs htext
  · exact .otherwise hstart h hs htext
  · exact .nothing hstart h hopening

theorem Line.StandsAt.remark {b : Block} {l : Line} {level : Option Nat} (h : l.StandsAt b level)
    (text : String) : StandsAt b (l.remark text) level := by
  have hmore := l.text_remark text
  rcases h with ⟨hstart, h, hs, htext⟩ | ⟨hstart, h, hs, htext⟩ | ⟨hstart, h, hopening⟩
  · rw [htext, String.append_assoc, String.append_assoc] at hmore
    exact .statement hstart h hs hmore
  · rw [htext, String.append_assoc, String.append_assoc] at hmore
    exact .otherwise hstart h hs hmore
  · exact .nothing hstart h hopening

section Levels

variable {b : Block}

/-- Every line of the statement starts where it says, and has the level of that place. -/
def Stmt.Placed (b : Block) (s : Stmt) : Prop :=
  ∀ {path : Path} {level index : Nat} {block : Block}, Within b path level block →
    block[index]? = some s → ∀ l ∈ s.lines path index level, l.StandsAt b l.level

theorem standsAt_remark {ls : List Line} (h : ∀ l ∈ ls, l.StandsAt b l.level) (text : String) :
    ∀ l ∈ ls.modifyLast (.remark text), l.StandsAt b l.level := by
  rcases List.eq_nil_or_concat' ls with rfl | ⟨init, last, rfl⟩
  · exact h
  · rw [List.modifyLast_concat]
    rw [List.forall_mem_append, List.forall_mem_singleton] at h ⊢
    exact ⟨h.1, h.2.remark text⟩

theorem standsAt_linesFrom {rest : Block} (hrest : ∀ s ∈ rest, s.Placed b) {path : Path}
    {level : Nat} {block : Block} (h : Within b path level block) {index : Nat}
    (hdrop : block.drop index = rest) :
    ∀ l ∈ linesFrom path index level rest, l.StandsAt b l.level := by
  have hget : ∀ {index s rest'}, block.drop index = s :: rest' → block[index]? = some s := by
    intro index s rest' heq
    rw [← Nat.add_zero index, ← List.getElem?_drop, heq, List.getElem?_cons_zero]
  induction rest using Block.induct generalizing index with
  | nil => simp [linesFrom]
  | pair s text rest ih =>
    have hdrop' : block.drop (index + 2) = rest := by
      rw [← List.drop_drop, hdrop]
      rfl
    rw [linesFrom, List.forall_mem_append]
    exact ⟨standsAt_remark (hrest s List.mem_cons_self h (hget hdrop)) text,
      ih (fun t ht => hrest t (by simp [ht])) hdrop'⟩
  | single s rest hc ih =>
    have hdrop' : block.drop (index + 1) = rest := by
      rw [← List.tail_drop, hdrop, List.tail_cons]
    rw [linesFrom_cons hc, List.forall_mem_append]
    exact ⟨hrest s List.mem_cons_self h (hget hdrop),
      ih (fun t ht => hrest t (by simp [ht])) hdrop'⟩

/-- The lines of a branch are placed, if the first one is placed with what stands before it. -/
theorem standsAt_hang {body : Block} (hbody : ∀ s ∈ body, s.Placed b) {path : Path} {level : Nat}
    {code : String} {start : Start} (h : Within b path (level + 1) body)
    (hfirst : ∀ (l : Line) rest, l.start = start → l.level = some level → l.text = code ++ rest →
      l.StandsAt b l.level) :
    ∀ l ∈ hang start level code path body (linesFrom path 0 (level + 1) body),
      l.StandsAt b l.level := by
  have hlines := standsAt_linesFrom hbody h (List.drop_zero : body.drop 0 = body)
  obtain ⟨l, ls, hl, hstart, hlevel, ⟨rest, htext⟩, htail⟩ :=
    Line.hang_eq_cons start level code path body (linesFrom path 0 (level + 1) body)
  rw [hl, List.forall_mem_cons]
  refine ⟨hfirst l rest hstart hlevel htext, fun m hm => ?_⟩
  rcases htail m hm with hm | ⟨rfl, rfl⟩
  · exact hlines m hm
  · exact .nothing rfl h rfl

theorem Block.elseText_of_isCond {s : Stmt} (h : s.isCond = true) :
    Block.elseText [s] = "el" ++ s.firstText := by
  unfold Stmt.isCond at h
  split at h
  · simp only [elseText, Stmt.firstText, ← String.append_assoc]
    rfl
  · exact absurd h Bool.false_ne_true

theorem Block.elseText_of_not_chained {other : Block} (h : ∀ s, other = [s] → s.isCond = false) :
    Block.elseText other = "else:" := by
  unfold Block.elseText
  split
  · exact absurd (h _ rfl) (by simp [Stmt.isCond])
  · rfl

theorem standsAt_linesElse {other : Block} (hother : ∀ s ∈ other, s.Placed b) {path : Path}
    {level index : Nat} {block body : Block} {c : Expr} (h : Within b path level block)
    (hs : block[index]? = some (.cond c body (some other))) :
    ∀ l ∈ linesElse path index level (some other), l.StandsAt b l.level := by
  rcases linesElse_cases path index level other with ⟨s, rfl, hcond, hlines⟩ | ⟨hb, hlines⟩
  · have hwithin := h.chained hs hcond
    have hplaced := hother s List.mem_cons_self hwithin (rfl : [s][0]? = some s)
    obtain ⟨l, ls, hl, -, -, rest, htext⟩ := s.lines_eq_cons (path ++ [(index, .otherwise)]) 0 level
    rw [hl, List.forall_mem_cons] at hplaced
    rw [hlines, hl, List.modifyHead_cons, List.forall_mem_cons]
    have helif : (l.chained path index level).text = Block.elseText [s] ++ rest := by
      rw [Line.text_chained, htext, Block.elseText_of_isCond hcond, String.append_assoc]
    exact ⟨.otherwise rfl h hs helif, hplaced.2⟩
  · rw [hlines]
    refine standsAt_hang hother (h.otherwise hs hb) fun l rest hstart hlevel htext => ?_
    rw [← Block.elseText_of_not_chained hb] at htext
    rw [hlevel]
    exact .otherwise hstart h hs htext

theorem Stmt.placed (s : Stmt) : s.Placed b := by
  induction s using Stmt.induct with
  | expr e =>
    intro path level index block h hs
    rw [lines, List.forall_mem_singleton]
    exact .statement rfl h hs (Eq.refl (e.render .statement ++ ""))
  | comment text =>
    intro path level index block h hs
    rw [lines, List.forall_mem_singleton]
    exact .statement rfl h hs (Eq.refl ("# " ++ text ++ ""))
  | cond c body other hbody hother =>
    intro path level index block h hs
    rw [lines, List.forall_mem_append]
    constructor
    · refine standsAt_hang hbody (h.body hs) fun l rest hstart hlevel htext => ?_
      rw [hlevel]
      exact .statement hstart h hs htext
    · rcases other with _ | other
      · simp [linesElse]
      · exact standsAt_linesElse (hother other rfl) h hs

end Levels

/-- A block has lines that depend on nothing else, and its text, with any unit of indentation and at
any level, is these lines, each indented by its level on top of that of the block. The level of a
line is that of the place where it starts, which is none where there is nothing. Only the first line
of a block with a single statement is not indented although there is a statement. -/
theorem Block.render_eq_lines (b : Block) :
    (∀ layout level,
      Block.render layout level b = joinLines (b.lines.map (Line.written layout level))) ∧
    ∀ k l, b.lines[k]? = some l → ∃ level, l.StandsAt b level ∧
      l.level = if k = 0 ∧ b.length ≤ 1 then none else level := by
  refine ⟨fun layout level => Block.render_lines layout level b, fun k l hl => ?_⟩
  match b with
  | [] =>
    obtain ⟨rfl, rfl⟩ : k = 0 ∧ l = ⟨.nothing [], none, .code "", []⟩ := by
      rcases k with _ | k
      · exact ⟨rfl, (Option.some.inj hl).symm⟩
      · exact absurd hl (by simp [Block.lines])
    exact ⟨none, .nothing rfl .here rfl, rfl⟩
  | [s] =>
    have hplaced := s.placed (b := [s]) .here (rfl : [s][0]? = some s)
    obtain ⟨first, ls, hlines, -, hlevel, -⟩ := s.lines_eq_cons [] 0 0
    rw [hlines, List.forall_mem_cons] at hplaced
    rw [Block.lines, hlines, List.modifyHead_cons] at hl
    rcases k with _ | k
    · obtain rfl := Option.some.inj hl
      exact ⟨first.level, hplaced.1.unlevel none, rfl⟩
    · rw [List.getElem?_cons_succ] at hl
      exact ⟨l.level, hplaced.2 l (List.mem_of_getElem? hl), by simp⟩
  | s :: s' :: rest =>
    have hplaced := standsAt_linesFrom (b := s :: s' :: rest) (fun t _ => t.placed) .here
      (List.drop_zero : (s :: s' :: rest).drop 0 = _)
    exact ⟨l.level, hplaced l (List.mem_of_getElem? hl), by simp⟩

/-- The lines of a chain stand at the level of the first `if`, and an empty body leaves a line that
is never indented. -/
example (a c x y : Expr) :
    (Block.lines [.cond a [.expr x, .expr y] (some [.cond c [] (some [.expr x, .expr y])])]).map
      Line.level = [none, some 1, some 1, some 0, none, some 0, some 1, some 1] := rfl

end Offside
