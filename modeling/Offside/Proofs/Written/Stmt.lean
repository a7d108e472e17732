import Offside.Proofs.Traversal
import Offside.Proofs.Written.Expr
import Offside.Rendering.Block

/-!
# The items of a rendered block

A block without comments is written as a list of items: line breaks with the indentation behind
them, heads of conditionals, and expressions. `Stmt.items` says which items a statement has at a
level. Its text is that of their parts (`Stmt.Silent.written`), and it is clean
(`Stmt.Silent.clear`).
-/

namespace Offside

inductive Item where
  /-- A line break, and the indentation of the new line. -/
  | line (level : Nat)
  /-- The space between a colon and the one statement behind it. -/
  | blank
  /-- The word `if`, or `elif` in a chain, the condition and a colon. -/
  | head (chained : Bool) (condition : Expr)
  /-- The word `else` and a colon. -/
  | otherwise
  | expr (e : Expr)

def Item.parts : Item → List Part
  | line level => .newline :: List.replicate (4 * level) .space
  | blank => [.space]
  | head chained c =>
    (if chained then .elif else .token Keyword.ifWord.token) :: .space ::
      (c.parts .operand ++ [.mark .colon])
  | otherwise => [.token Keyword.elseWord.token, .mark .colon]
  | expr e => e.parts .statement

def partsOf (is : List Item) : List Part := is.flatMap Item.parts

theorem partsOf_cons (i : Item) (is : List Item) : partsOf (i :: is) = i.parts ++ partsOf is :=
  List.flatMap_cons

theorem partsOf_append (is js : List Item) : partsOf (is ++ js) = partsOf is ++ partsOf js :=
  List.flatMap_append

/-- Statements, each on a line of its own. -/
def stackItems (level : Nat) (iss : List (List Item)) : List Item := iss.flatMap (.line level :: ·)

/-- Statements as they stand behind a colon: one of them on the same line, several below it. -/
def hangItems (level : Nat) : List (List Item) → List Item
  | [] => [.line 0]
  | [is] => .blank :: is
  | iss => stackItems level iss

mutual

def Stmt.items : (level : Nat) → (chained : Bool) → Stmt → List Item
  | _, _, .expr e => [.expr e]
  | _, _, .comment _ => []
  | level, chained, .cond condition body otherwise =>
    .head chained condition ::
      (hangItems (level + 1) (itemsAll (level + 1) body) ++ itemsElse level otherwise)

def itemsAll : (level : Nat) → List Stmt → List (List Item)
  | _, [] => []
  | level, s :: ss => s.items level false :: itemsAll level ss

/-- What follows the body of a conditional. -/
def itemsElse : (level : Nat) → Option (List Stmt) → List Item
  | _, none => []
  | level, some [s] =>
    .line level ::
      (if s.isCond then s.items level true else .otherwise :: .blank :: s.items (level + 1) false)
  | level, some block =>
    .line level :: .otherwise :: hangItems (level + 1) (itemsAll (level + 1) block)

end

theorem itemsAll_eq_map (level : Nat) (b : Block) :
    itemsAll level b = b.map (Stmt.items level false) := by
  induction b with
  | nil => rw [itemsAll, List.map_nil]
  | cons s ss ih => rw [itemsAll, ih, List.map_cons]

theorem forall_itemsAll {P : List Item → Prop} {level : Nat} {b : Block}
    (h : ∀ s ∈ b, P (s.items level false)) : ∀ is ∈ itemsAll level b, P is := by
  rw [itemsAll_eq_map]
  exact List.forall_mem_map.2 h

/-- A conditional alone is chained; everything else hangs below `else`. -/
theorem itemsElse_cases (level : Nat) (b : Block) :
    (∃ s, b = [s] ∧ s.isCond = true ∧
      itemsElse level (some b) = .line level :: s.items level true) ∨
      ((∀ s, b = [s] → s.isCond = false) ∧ itemsElse level (some b) =
        .line level :: .otherwise :: hangItems (level + 1) (itemsAll (level + 1) b)) := by
  match b with
  | [] => exact Or.inr ⟨nofun, by rw [itemsElse]; exact nofun⟩
  | [s] =>
    cases hs : s.isCond with
    | true => exact Or.inl ⟨s, rfl, hs, by rw [itemsElse, if_pos hs]⟩
    | false =>
      refine Or.inr ⟨fun a ha => (List.cons.inj ha).1 ▸ hs, ?_⟩
      rw [itemsElse, if_neg (by simp [hs]), itemsAll, itemsAll]
      rfl
  | s :: s' :: ss =>
    refine Or.inr ⟨nofun, ?_⟩
    rw [itemsElse]
    exact nofun

/-- Well formed and without comments. -/
inductive Stmt.Silent : Stmt → Prop where
  | expr {e : Expr} (he : e.Formed) : Silent (.expr e)
  | cond {c : Expr} {body : Block} (hc : c.Formed) (hb : ∀ s ∈ body, Silent s) :
      Silent (.cond c body none)
  | condElse {c : Expr} {body other : Block} (hc : c.Formed) (hb : ∀ s ∈ body, Silent s)
      (ho : ∀ s ∈ other, Silent s) : Silent (.cond c body (some other))

/-- A well-formed statement in which no comment is allowed is silent. -/
theorem Stmt.Formed.silent {s : Stmt} (h : s.Formed) {p : Stmt → Bool}
    (hp : ∀ text, p (.comment text) = false) (hs : s.every p = true) : s.Silent := by
  induction h with
  | expr he => exact .expr he
  | comment text => exact absurd hs (by simp [Stmt.every, hp])
  | @cond c body hc hb ih =>
    simp only [Stmt.every, Bool.and_eq_true, everyStmt_iff] at hs
    exact .cond hc fun s h => ih s h (hs.1.2 s h)
  | @condElse c body other hc hb ho ihb iho =>
    simp only [Stmt.every, everyElse, Bool.and_eq_true, everyStmt_iff] at hs
    exact .condElse hc (fun s h => ihb s h (hs.1.2 s h)) fun s h => iho s h (hs.2 s h)

/-! ## The text of the items -/

theorem writes_indent (level : Nat) :
    Writes (Layout.standard.indent level) (List.replicate (4 * level) .space) := by
  induction level with
  | zero => rfl
  | succ level ih =>
    rw [Layout.indent, Nat.mul_succ, Nat.add_comm, List.replicate_add]
    have hunit : Writes Layout.standard.unit (List.replicate 4 .space) := rfl
    exact hunit.append ih

theorem writes_line (level : Nat) :
    Writes ("\n" ++ Layout.standard.indent level) (Item.line level).parts := by
  have hbreak : Writes "\n" [.newline] := rfl
  exact hbreak.append (writes_indent level)

/-- The statement is written as its items, also where it goes on with a chain. -/
structure Stmt.Written (s : Stmt) : Prop where
  alone : ∀ level, Writes (s.render .standard level .statement) (partsOf (s.items level false))
  chained : s.isCond = true → ∀ level,
    Writes ("el" ++ s.render .standard level .statement) (partsOf (s.items level true))

/-- Without comments every statement has a line of its own. -/
theorem Block.renderLines_eq_map {b : Block} (h : ∀ s ∈ b, s.Silent) (level : Nat)
    (margin : String) : Block.renderLines .standard level margin b =
      b.map fun s => margin ++ s.render .standard level .statement := by
  induction b with
  | nil => rw [Block.renderLines, List.map_nil]
  | cons s ss ih =>
    have hlines := ih fun a ha => h a (List.mem_cons_of_mem s ha)
    rw [Block.renderLines, hlines, List.map_cons]
    rintro text rest rfl
    cases h (.comment text) (by simp)

/-- Several statements are written line by line. -/
theorem writes_stackItems {b : Block} (hw : ∀ s ∈ b, s.Written) (hb : b ≠ []) (level : Nat) :
    Writes ("\n" ++ joinLines
        (b.map fun s => Layout.standard.indent level ++ s.render .standard level .statement))
      (partsOf (stackItems level (itemsAll level b))) := by
  induction b with
  | nil => exact absurd rfl hb
  | cons s ss ih =>
    have hline := (writes_line level).append ((hw s (by simp)).alone level)
    rw [itemsAll, stackItems, List.flatMap_cons, partsOf_append, partsOf_cons, List.map_cons,
      joinLines]
    cases ss with
    | nil =>
      rw [itemsAll, List.flatMap_nil, List.map_nil, String.intercalate_singleton]
      simpa [partsOf, String.append_assoc] using hline
    | cons s' ss =>
      have htail := ih (fun a ha => hw a (List.mem_cons_of_mem s ha)) (by simp)
      rw [List.map_cons, String.intercalate_cons_cons]
      simpa only [String.append_assoc, List.map_cons, joinLines, stackItems]
        using hline.append htail

/-- A block is written behind a colon as it hangs there. -/
theorem writes_hangItems {b : Block} (hs : ∀ s ∈ b, s.Silent) (hw : ∀ s ∈ b, s.Written)
    (level : Nat) :
    Writes (Block.lead b ++ joinLines
        (Block.renderLines .standard level (Layout.standard.margin level b) b))
      (partsOf (hangItems level (itemsAll level b))) := by
  rw [Block.renderLines_eq_map hs]
  match b with
  | [] =>
    have hbreak : Writes "\n" (partsOf [.line 0]) := rfl
    simpa [Block.lead, joinLines, itemsAll, hangItems] using hbreak
  | [s] =>
    have hspace : Writes " " Item.blank.parts := rfl
    have := hspace.append ((hw s (by simp)).alone level)
    simpa [Block.lead, Layout.margin, joinLines, itemsAll, hangItems, partsOf_cons] using this
  | s :: s' :: ss =>
    have := writes_stackItems hw (by simp) level
    simpa only [Block.lead, Layout.margin, itemsAll, hangItems, List.length_cons, Nat.reduceEqDiff,
      Nat.add_eq_zero_iff, and_false, if_false] using this

theorem writes_else {b : Block} (hs : ∀ s ∈ b, s.Silent) (hw : ∀ s ∈ b, s.Written) (level : Nat) :
    Writes (renderElse .standard level (some b)) (partsOf (itemsElse level (some b))) := by
  have helse : Writes "else:" Item.otherwise.parts := rfl
  match b with
  | [] =>
    have := ((writes_line level).append helse).append (writes_hangItems hs hw (level + 1))
    simpa only [renderElse, itemsElse, partsOf_cons, String.append_assoc, List.append_assoc]
      using this
  | [s] =>
    rw [renderElse, itemsElse, partsOf_cons]
    refine (writes_line level).append ?_
    split
    · rename_i hcond
      exact (hw s (by simp)).chained hcond level
    · have hspace : Writes "else: " (Item.otherwise.parts ++ Item.blank.parts) := rfl
      have := hspace.append ((hw s (by simp)).alone (level + 1))
      rwa [List.append_assoc] at this
  | s :: s' :: ss =>
    have := ((writes_line level).append helse).append (writes_hangItems hs hw (level + 1))
    simpa only [renderElse, itemsElse, partsOf_cons, String.append_assoc, List.append_assoc]
      using this

/-- A conditional is written as its items, given that what follows its body is. -/
theorem writes_cond {c : Expr} {body : Block} {other : Option Block} (hc : c.Formed)
    (hs : ∀ s ∈ body, s.Silent) (hw : ∀ s ∈ body, s.Written)
    (ho : ∀ level, Writes (renderElse .standard level other) (partsOf (itemsElse level other))) :
    (Stmt.cond c body other).Written := by
  have hitems : ∀ level chained, ∀ word : String,
      Writes word [if chained then .elif else .token Keyword.ifWord.token, .space] →
        Writes (word ++ (c.render .operand ++ ":" ++ (Block.lead body ++ joinLines
            (Block.renderLines .standard (level + 1)
              (Layout.standard.margin (level + 1) body) body))
              ++ renderElse .standard level other))
          (partsOf ((Stmt.cond c body other).items level chained)) := by
    intro level chained word hword
    have hcolon : Writes ":" [.mark .colon] := rfl
    have := hword.append (((hc.written.operand.append hcolon).append
      (writes_hangItems hs hw (level + 1))).append (ho level))
    simpa [Stmt.items, partsOf_cons, partsOf_append, Item.parts] using this
  constructor
  · intro level
    have := hitems level false "if " rfl
    simpa only [Stmt.render, String.append_assoc] using this
  · intro _ level
    have := hitems level true "elif " rfl
    have helif : "elif " = "el" ++ "if " := rfl
    simpa only [Stmt.render, String.append_assoc, helif] using this

theorem Stmt.Silent.written {s : Stmt} (h : s.Silent) : s.Written := by
  induction h with
  | @expr e he =>
    refine ⟨fun level => ?_, nofun⟩
    simpa [Stmt.render, Stmt.items, partsOf, Item.parts] using he.written.statement
  | cond hc hb ih => exact writes_cond hc hb ih fun level => rfl
  | condElse hc hb ho ihb iho => exact writes_cond hc hb ihb (writes_else ho iho)

/-! ## The text is clean -/

theorem clean_line (level : Nat) {qs : List Piece} (h : Clean qs) :
    Clean ((Item.line level).parts.map Part.piece ++ qs) := by
  have hspaces : ∀ n, Clean ((List.replicate n Part.space).map Part.piece ++ qs) := by
    intro n
    induction n with
    | zero => exact h
    | succ n ih => exact clean_space ih
  exact clean_newline (hspaces (4 * level))

/-- What stands on lines of its own begins with a line break. -/
theorem apart_stackItems (level : Nat) (iss : List (List Item)) {qs : List Piece} (h : Apart qs) :
    Apart ((partsOf (stackItems level iss)).map Part.piece ++ qs) := by
  cases iss with
  | nil => exact h
  | cons is iss => exact apart_newline _

theorem flowsAs_stackItems {level : Nat} {iss : List (List Item)}
    (h : ∀ is ∈ iss, FlowsAs (partsOf is)) :
    FlowsAs (partsOf (stackItems level iss)) := by
  induction iss with
  | nil => exact flows_nil
  | cons is iss ih =>
    intro qs hq ha
    have htail := ih (fun js hjs => h js (List.mem_cons_of_mem is hjs)) qs hq ha
    have hfirst := h is (by simp) _ htail (apart_stackItems level iss ha)
    have := clean_line level hfirst
    simpa [stackItems, partsOf_append, partsOf_cons] using this

/-- Behind a colon comes a space or a line break. -/
theorem clean_hangItems (level : Nat) {iss : List (List Item)}
    (h : ∀ is ∈ iss, FlowsAs (partsOf is)) {qs : List Piece} (hq : Clean qs) (ha : Apart qs) :
    Clean (.token Mark.colon.token :: ((partsOf (hangItems level iss)).map Part.piece ++ qs)) := by
  match iss with
  | [] => exact clean_broken (sound_mark .colon) hq
  | [is] => exact clean_spaced (sound_mark .colon) (h is (by simp) qs hq ha)
  | is :: is' :: iss => exact clean_broken (sound_mark .colon) (flowsAs_stackItems h qs hq ha).tail

theorem clean_head (chained : Bool) {c : Expr} (hc : c.Formed) {qs : List Piece}
    (hq : Clean (.token Mark.colon.token :: qs)) :
    Clean ((Item.head chained c).parts.map Part.piece ++ qs) := by
  have hcondition := hc.clear.operand _ hq (apart_mark (by decide) _)
  have hword : (Piece.token (.bare .name "elif")).Sound :=
    IsName.sound (isName_of_all (by decide) rfl rfl)
  cases chained with
  | false =>
    simpa [Item.parts, Part.mark, Part.piece] using clean_spaced (sound_keyword .ifWord) hcondition
  | true => simpa [Item.parts, Part.mark, Part.piece] using clean_spaced hword hcondition

theorem flowsAs_cond {c : Expr} {body : Block} {other : Option Block} (hc : c.Formed)
    (hb : ∀ s ∈ body, ∀ level chained, FlowsAs (partsOf (s.items level chained)))
    (ho : ∀ level, FlowsAs (partsOf (itemsElse level other))) (level : Nat) (chained : Bool) :
    FlowsAs (partsOf ((Stmt.cond c body other).items level chained)) := by
  intro qs hq ha
  have hbody : ∀ is ∈ itemsAll (level + 1) body, FlowsAs (partsOf is) :=
    forall_itemsAll fun s hs => hb s hs (level + 1) false
  have helse : Apart ((partsOf (itemsElse level other)).map Part.piece ++ qs) := by
    match other with
    | none => exact ha
    | some [] => exact apart_newline _
    | some [s] => exact apart_newline _
    | some (s :: s' :: ss) => exact apart_newline _
  have := clean_head chained hc (clean_hangItems (level + 1) hbody (ho level qs hq ha) helse)
  simpa [Stmt.items, partsOf_cons, partsOf_append] using this

theorem Stmt.Silent.clear {s : Stmt} (h : s.Silent) :
    ∀ level chained, FlowsAs (partsOf (s.items level chained)) := by
  induction h with
  | @expr e he =>
    intro level chained
    simpa [Stmt.items, partsOf, Item.parts] using he.clear.statement
  | cond hc hb ih => exact flowsAs_cond hc ih fun level => flows_nil
  | @condElse c body other hc hb ho ihb iho =>
    refine flowsAs_cond hc ihb fun level qs hq ha => ?_
    rcases itemsElse_cases level other with ⟨s, rfl, -, heq⟩ | ⟨-, heq⟩
    · rw [heq, partsOf_cons, List.map_append, List.append_assoc]
      exact clean_line level (iho s (by simp) level true qs hq ha)
    · have hother : ∀ is ∈ itemsAll (level + 1) other, FlowsAs (partsOf is) :=
        forall_itemsAll fun s hs => iho s hs (level + 1) false
      have := clean_line level (clean_word (sound_keyword .elseWord) nofun
        (apart_mark (by decide) _) (clean_hangItems (level + 1) hother hq ha))
      rw [heq]
      simpa [partsOf_cons, Item.parts, Part.mark, Part.piece] using this

/-! ## Programs -/

/-- The items of a program: its statements, with a line break between them. -/
def Block.items (b : Block) : List Item := (stackItems 0 (itemsAll 0 b)).tail

theorem Block.writes_renderProgram {b : Block} (h : ∀ s ∈ b, s.Silent) :
    Writes (Block.renderProgram .standard b) (partsOf b.items) := by
  have hmargin : Layout.standard.margin 0 b = Layout.standard.indent 0 := by
    rw [Layout.margin]
    split <;> rfl
  rw [Block.renderProgram, Block.render, Block.renderLines_eq_map h, hmargin]
  cases b with
  | nil => rfl
  | cons s ss =>
    have hstack := writes_stackItems (fun a ha => (h a ha).written) (List.cons_ne_nil s ss) 0
    rw [Writes, String.toList_append] at hstack
    exact List.cons_inj_right '\n' |>.1 hstack

theorem Block.clean_items {b : Block} (h : ∀ s ∈ b, s.Silent) :
    Clean ((partsOf b.items).map Part.piece) := by
  have hstack : FlowsAs (partsOf (stackItems 0 (itemsAll 0 b))) :=
    flowsAs_stackItems (forall_itemsAll fun s hs => (h s hs).clear 0 false)
  have hclean := hstack [] clean_nil apart_nil
  rw [List.append_nil] at hclean
  cases b with
  | nil => exact clean_nil
  | cons s ss => exact hclean.tail

/-- The tokens of a rendered program are those of its items. -/
theorem Block.scan_renderProgram {b : Block} (h : ∀ s ∈ b, s.Silent) :
    ∃ ts, Token.scan (Block.renderProgram .standard b) = .ok ts ∧
      ts.map Token.unplaced = (partsOf b.items).flatMap Part.seen := by
  have htext : Block.renderProgram .standard b
      = String.ofList (textOf ((partsOf b.items).map Part.piece)) := by
    rw [← Block.writes_renderProgram h, String.ofList_toList]
  rw [htext, flatMap_seen]
  exact Token.scan_textOf (Block.clean_items h)

@[simp]
theorem Item.seen_line (level : Nat) : (Item.line level).parts.flatMap Part.seen = [] := by
  rw [List.flatMap_eq_nil_iff]
  intro p hp
  rcases List.mem_cons.1 hp with rfl | hp
  · rfl
  · rw [List.eq_of_mem_replicate hp]
    rfl

/-- A line break before the first statement would not be seen. -/
theorem Block.seen_items (b : Block) : (partsOf b.items).flatMap Part.seen =
    (partsOf (stackItems 0 (itemsAll 0 b))).flatMap Part.seen := by
  rw [Block.items]
  cases b with
  | nil => rfl
  | cons s ss => simp [itemsAll, stackItems, partsOf_cons]

end Offside
