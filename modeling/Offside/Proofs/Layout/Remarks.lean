import Offside.Proofs.Layout.Lines

/-!
# The comments of a block and of its lines

The lines of a block have its comments, in their order (`Block.comments_lines`), and if the texts of
the comments are erased in the block, they are erased in its lines and nothing else changes
(`Block.lines_erased`). A comment behind the colon of a conditional is at the end of that line.
-/

namespace Offside

open Line (hang)

/-! ## The comments of a statement -/

mutual

/-- The comments of a statement and of all statements inside, in their order. -/
def Stmt.comments : Stmt → List String
  | .expr _ => []
  | .comment text => [text]
  | .cond _ body otherwise => Block.comments body ++ commentsElse otherwise

def Block.comments : Block → List String
  | [] => []
  | s :: ss => s.comments ++ Block.comments ss

def commentsElse : Option Block → List String
  | none => []
  | some block => Block.comments block

end

mutual

/-- The statement without the texts of its comments. -/
def Stmt.erased : Stmt → Stmt
  | .expr e => .expr e
  | .comment _ => .comment ""
  | .cond condition body otherwise => .cond condition (Block.erased body) (erasedElse otherwise)

def Block.erased : Block → Block
  | [] => []
  | s :: ss => s.erased :: Block.erased ss

def erasedElse : Option Block → Option Block
  | none => none
  | some block => some (Block.erased block)

end

theorem Stmt.isCond_erased (s : Stmt) : s.erased.isCond = s.isCond := by
  cases s <;> simp [erased, isCond]

/-- Any texts, as many as there are comments, are those of a statement that is the same but for
them. -/
def Stmt.Fillable (s : Stmt) : Prop := ∀ cs : List String, cs.length = s.comments.length →
  ∃ s' : Stmt, s'.erased = s.erased ∧ s'.comments = cs

theorem Block.exists_comments {b : Block} (h : ∀ s ∈ b, s.Fillable) (cs : List String)
    (hcs : cs.length = b.comments.length) :
    ∃ b' : Block, b'.erased = b.erased ∧ b'.comments = cs := by
  induction b generalizing cs with
  | nil => exact ⟨[], rfl, (List.length_eq_zero_iff.1 hcs).symm⟩
  | cons s rest ih =>
    rw [List.forall_mem_cons] at h
    rw [comments, List.length_append] at hcs
    obtain ⟨s', hs', hcomments⟩ := h.1 (cs.take s.comments.length) (by rw [List.length_take]; omega)
    obtain ⟨rest', hrest', hcomments'⟩ := ih h.2 (cs.drop s.comments.length)
      (by rw [List.length_drop]; omega)
    refine ⟨s' :: rest', by rw [erased, erased, hs', hrest'], ?_⟩
    rw [comments, hcomments, hcomments', List.take_append_drop]

theorem Stmt.fillable (s : Stmt) : s.Fillable := by
  induction s using Stmt.induct with
  | expr e => exact fun cs hcs => ⟨.expr e, rfl, (List.length_eq_zero_iff.1 hcs).symm⟩
  | comment text =>
    intro cs hcs
    obtain ⟨c, rfl⟩ := List.length_eq_one_iff.1 hcs
    exact ⟨.comment c, rfl, rfl⟩
  | cond c body other hbody hother =>
    intro cs hcs
    rw [comments, List.length_append] at hcs
    obtain ⟨body', hbody', hcomments⟩ := Block.exists_comments hbody
      (cs.take (Block.comments body).length) (by rw [List.length_take]; omega)
    obtain ⟨other', hother', hcomments'⟩ : ∃ other', erasedElse other' = erasedElse other ∧
        commentsElse other' = cs.drop (Block.comments body).length := by
      rcases other with _ | other
      · rw [commentsElse, List.length_nil, Nat.add_zero] at hcs
        exact ⟨none, rfl, by rw [commentsElse, ← hcs, List.drop_length]⟩
      · rw [commentsElse] at hcs
        obtain ⟨other', h, hc⟩ := Block.exists_comments (hother other rfl)
          (cs.drop (Block.comments body).length) (by rw [List.length_drop]; omega)
        exact ⟨some other', by rw [erasedElse, erasedElse, h], by rw [commentsElse, hc]⟩
    refine ⟨.cond c body' other', by rw [erased, erased, hbody', hother'], ?_⟩
    rw [comments, hcomments, hcomments', List.take_append_drop]

/-! ## The comments of a line -/

namespace Opening

def comments : Opening → List String
  | code _ => []
  | comment text => [text]

def erased : Opening → Opening
  | code text => code text
  | comment _ => comment ""

end Opening

namespace Line

def comments (l : Line) : List String := l.opening.comments ++ l.remarks

def erased (l : Line) : Line :=
  { l with opening := l.opening.erased, remarks := l.remarks.map fun _ => "" }

theorem comments_remark (text : String) (l : Line) :
    (l.remark text).comments = l.comments ++ [text] := by
  simp [comments, remark]

theorem erased_remark (text : String) (l : Line) :
    (l.remark text).erased = l.erased.remark "" := by
  simp [erased, remark]

theorem comments_behind (start : Start) (level : Nat) (code : String) (l : Line) :
    (l.behind start level code).comments = l.comments := by
  unfold behind
  split <;> simp_all [comments, Opening.comments]

theorem erased_behind (start : Start) (level : Nat) (code : String) (l : Line) :
    (l.behind start level code).erased = l.erased.behind start level code := by
  unfold behind
  split <;> simp_all [erased, Opening.erased]

end Line

theorem comments_modifyLast (text : String) {ls : List Line} (h : ls ≠ []) :
    (ls.modifyLast (.remark text)).flatMap Line.comments = ls.flatMap Line.comments ++ [text] := by
  obtain ⟨init, l, rfl⟩ := (List.eq_nil_or_concat' ls).resolve_left h
  rw [List.modifyLast_concat]
  simp [Line.comments_remark]

theorem erased_modifyLast (text : String) (ls : List Line) :
    (ls.modifyLast (.remark text)).map Line.erased =
      (ls.map Line.erased).modifyLast (.remark "") := by
  rcases List.eq_nil_or_concat' ls with rfl | ⟨init, l, rfl⟩
  · rfl
  · rw [List.modifyLast_concat, List.map_append, List.map_append, List.map_singleton,
      List.map_singleton, List.modifyLast_concat, Line.erased_remark]

theorem comments_hang (start : Start) (level : Nat) (code : String) (path : Path) {b : Block}
    {ls : List Line} (h : b = [] → ls = []) :
    (hang start level code path b ls).flatMap Line.comments = ls.flatMap Line.comments := by
  unfold hang
  split
  · rw [h rfl]
    rfl
  · rw [List.flatMap_cons, Line.comments_behind, List.flatMap_cons]
  · rfl

theorem erased_hang (start : Start) (level : Nat) (code : String) (path : Path) (b : Block)
    (ls : List Line) : (hang start level code path b ls).map Line.erased =
      hang start level code path b.erased (ls.map Line.erased) := by
  match b, ls with
  | [], _ => rfl
  | [s], [] => rfl
  | [s], l :: ls => rw [hang, List.map_cons, Line.erased_behind]; rfl
  | s :: s' :: rest, ls =>
    rw [Line.hang_cons_cons, Block.erased, Block.erased, Line.hang_cons_cons]
    rfl

/-- The first line of a conditional starts with code. -/
theorem Stmt.exists_code {s : Stmt} (h : s.isCond = true) (path : Path) (index level : Nat) :
    ∃ l ls text, s.lines path index level = l :: ls ∧ l.opening = .code text := by
  unfold isCond at h
  split at h
  · rename_i c body other
    rw [lines]
    unfold hang
    split
    · exact ⟨_, _, _, rfl, rfl⟩
    · rename_i l ls _
      obtain ⟨text, htext⟩ : ∃ text, (l.behind (.statement path index) level
          ("if " ++ c.render .operand ++ ":")).opening = .code text := by
        unfold Line.behind
        split
        · exact ⟨_, rfl⟩
        · exact ⟨_, rfl⟩
      exact ⟨_, _, text, rfl, htext⟩
    · exact ⟨_, _, _, rfl, rfl⟩
  · exact absurd h Bool.false_ne_true

/-! ## The comments of all lines -/

/-- The lines of the statement have its comments, in their order. -/
def Stmt.Commented (s : Stmt) : Prop := ∀ path index level,
  (s.lines path index level).flatMap Line.comments = s.comments

theorem comments_linesFrom {b : Block} (h : ∀ s ∈ b, s.Commented) (path : Path)
    (index level : Nat) : (linesFrom path index level b).flatMap Line.comments = b.comments := by
  induction b using Block.induct generalizing index with
  | nil => rfl
  | pair s text rest ih =>
    have hs := h s List.mem_cons_self path index level
    have hrest := ih (fun t ht => h t (by simp [ht])) (index + 2)
    rw [linesFrom, List.flatMap_append, comments_modifyLast text (s.lines_ne_nil path index level),
      hs, hrest, Block.comments, Block.comments, Stmt.comments, List.append_assoc]
  | single s rest hc ih =>
    have hs := h s List.mem_cons_self path index level
    have hrest := ih (fun t ht => h t (by simp [ht])) (index + 1)
    rw [linesFrom_cons hc, List.flatMap_append, hs, hrest, Block.comments]

theorem comments_hang_linesFrom {b : Block} (h : ∀ s ∈ b, s.Commented) (start : Start) (level : Nat)
    (code : String) (path : Path) :
    (hang start level code path b (linesFrom path 0 (level + 1) b)).flatMap Line.comments =
      b.comments := by
  rw [comments_hang, comments_linesFrom h]
  rintro rfl
  rfl

theorem comments_linesElse {b : Block} (h : ∀ s ∈ b, s.Commented) (path : Path)
    (index level : Nat) :
    (linesElse path index level (some b)).flatMap Line.comments = b.comments := by
  rcases linesElse_cases path index level b with ⟨s, rfl, hs, hlines⟩ | ⟨-, hlines⟩
  · obtain ⟨l, ls, text, hl, hcode⟩ := s.exists_code hs (path ++ [(index, .otherwise)]) 0 level
    have hcomments := h s List.mem_cons_self (path ++ [(index, .otherwise)]) 0 level
    rw [hl, List.flatMap_cons] at hcomments
    have hfirst : (l.chained path index level).comments = l.comments := by
      simp only [Line.comments, Line.chained, hcode, Opening.comments]
    rw [hlines, hl, List.modifyHead_cons, List.flatMap_cons, hfirst, hcomments, Block.comments,
      Block.comments, List.append_nil]
  · rw [hlines, comments_hang_linesFrom h]

theorem Stmt.commented (s : Stmt) : s.Commented := by
  induction s using Stmt.induct with
  | expr e => exact fun path index level => rfl
  | comment text => exact fun path index level => rfl
  | cond c body other hbody hother =>
    intro path index level
    rw [lines, List.flatMap_append, comments_hang_linesFrom hbody, comments]
    rcases other with _ | other
    · rfl
    · rw [comments_linesElse (hother other rfl), commentsElse]

theorem Block.comments_lines (b : Block) : b.lines.flatMap Line.comments = b.comments := by
  match b with
  | [] => rfl
  | [s] =>
    obtain ⟨l, ls, hl, -⟩ := s.lines_eq_cons [] 0 0
    have hs := s.commented [] 0 0
    rw [hl, List.flatMap_cons] at hs
    rw [lines, hl, List.modifyHead_cons, List.flatMap_cons, comments, comments, List.append_nil]
    exact hs
  | s :: s' :: rest => exact comments_linesFrom (fun t _ => t.commented) [] 0 0

/-! ## The lines of an erased block -/

/-- Without the texts of its comments, the statement has the same lines without them. -/
def Stmt.Erases (s : Stmt) : Prop := ∀ path index level,
  s.erased.lines path index level = (s.lines path index level).map Line.erased

theorem Block.erased_ne_comment {b : Block} (h : ∀ text rest, b ≠ .comment text :: rest)
    (text : String) (rest : Block) : b.erased ≠ .comment text :: rest := by
  rcases b with _ | ⟨s, ss⟩
  · exact (List.cons_ne_nil _ _).symm
  · cases s with
    | comment text' => exact absurd rfl (h text' ss)
    | expr e => simp [erased, Stmt.erased]
    | cond c body other => simp [erased, Stmt.erased]

theorem linesFrom_erased {b : Block} (h : ∀ s ∈ b, s.Erases) (path : Path) (index level : Nat) :
    linesFrom path index level b.erased = (linesFrom path index level b).map Line.erased := by
  induction b using Block.induct generalizing index with
  | nil => rfl
  | pair s text rest ih =>
    have hs := h s List.mem_cons_self path index level
    have hrest := ih (fun t ht => h t (by simp [ht])) (index + 2)
    rw [Block.erased, Block.erased, Stmt.erased, linesFrom, linesFrom, List.map_append, hs, hrest,
      erased_modifyLast]
  | single s rest hc ih =>
    have hs := h s List.mem_cons_self path index level
    have hrest := ih (fun t ht => h t (by simp [ht])) (index + 1)
    rw [Block.erased, linesFrom_cons (Block.erased_ne_comment hc), linesFrom_cons hc,
      List.map_append, hs, hrest]

theorem linesElse_erased {b : Block} (h : ∀ s ∈ b, s.Erases) (path : Path) (index level : Nat) :
    linesElse path index level (some b.erased) =
      (linesElse path index level (some b)).map Line.erased := by
  rcases linesElse_cases path index level b with ⟨s, rfl, hs, hlines⟩ | ⟨hb, hlines⟩
  · obtain ⟨l, ls, text, hl, hcode⟩ := s.exists_code hs (path ++ [(index, .otherwise)]) 0 level
    have herased := h s List.mem_cons_self (path ++ [(index, .otherwise)]) 0 level
    rw [hl, List.map_cons] at herased
    have hfirst : l.erased.chained path index level = (l.chained path index level).erased := by
      simp only [Line.erased, Line.chained, hcode, Opening.erased]
    rw [hlines, hl, List.modifyHead_cons, List.map_cons, Block.erased, Block.erased, linesElse,
      if_pos (s.isCond_erased.trans hs), herased, List.modifyHead_cons, hfirst]
  · have hb' : ∀ t, b.erased = [t] → t.isCond = false := by
      intro t ht
      rcases b with _ | ⟨s, _ | ⟨s', rest⟩⟩
      · simp [Block.erased] at ht
      · rw [Block.erased, Block.erased] at ht
        rw [← (List.cons.inj ht).1, s.isCond_erased, hb s rfl]
      · simp [Block.erased] at ht
    rw [hlines, erased_hang, ← linesFrom_erased h]
    exact linesElse_of_not_chained hb' path index level

theorem Stmt.erases (s : Stmt) : s.Erases := by
  induction s using Stmt.induct with
  | expr e => exact fun path index level => rfl
  | comment text => exact fun path index level => rfl
  | cond c body other hbody hother =>
    intro path index level
    rw [erased, lines, lines, List.map_append, erased_hang, linesFrom_erased hbody]
    rcases other with _ | other
    · rfl
    · rw [erasedElse, linesElse_erased (hother other rfl)]

theorem Block.lines_erased (b : Block) : b.erased.lines = b.lines.map Line.erased := by
  match b with
  | [] => rfl
  | [s] =>
    obtain ⟨l, ls, hl, -⟩ := s.lines_eq_cons [] 0 0
    have hs := s.erases [] 0 0
    rw [hl, List.map_cons] at hs
    rw [erased, erased, lines, lines, hl, hs]
    rfl
  | s :: s' :: rest =>
    have hlines := linesFrom_erased (b := s :: s' :: rest) (fun t _ => t.erases) [] 0 0
    rw [erased, erased] at hlines ⊢
    exact hlines

end Offside
