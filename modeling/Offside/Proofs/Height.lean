import Mathlib.Order.MinMax
import Offside.Proofs.Attained

/-!
# How high the trees are

The limit on nesting does not bound the height of the trees that are read
(`Block.not_bounded_height`). A chain of operators, calls, indices or members is read in a loop: it
opens no level, and every link puts a node on top of those before it.

Nothing else escapes the limit. Chains are the only way to stack nodes on one level, so a tree is at
least as high as its largest stack and at most as high as one such stack for each level
(`Block.height_of_parse`). The heights of some programs are bounded exactly if their stacks are.
-/

namespace Offside

/-! ## Height -/

mutual

/-- The number of nodes on the longest way down. -/
def Expr.height : Expr → Nat
  | ⟨form, _⟩ => form.height + 1

/-- The height of the highest operand. -/
def Form.height : Form → Nat
  | .assign _ value => value.height
  | .binary _ left right => max left.height right.height
  | .unary _ operand => operand.height
  | .call callee args => max callee.height (heightAll args)
  | .index value index => max value.height index.height
  | .member value _ => value.height
  | .dict entries => heightEntries entries
  | .list elements => heightAll elements
  | _ => 0

def heightAll : List Expr → Nat
  | [] => 0
  | e :: es => max e.height (heightAll es)

def heightEntries : List Entry → Nat
  | [] => 0
  | ⟨key, value⟩ :: es => max (max key.height value.height) (heightEntries es)

end

mutual

/-- The number of nodes on the longest way down, statements and expressions. -/
def Stmt.height : Stmt → Nat
  | .expr e => e.height + 1
  | .comment _ => 1
  | .cond condition body otherwise =>
    max condition.height (max (Block.height body) (elseHeight otherwise)) + 1

def Block.height : List Stmt → Nat
  | [] => 0
  | s :: ss => max s.height (Block.height ss)

def elseHeight : Option (List Stmt) → Nat
  | none => 0
  | some block => Block.height block

end

/-! ## Nodes on one level of nesting -/

mutual

/-- The nodes that an operand adds to the stack of its operator. In parentheses it has a level of
its own. -/
def Expr.stack : Expr → Nat
  | ⟨form, grouped⟩ => if grouped then 0 else form.stack

/-- The most nodes on top of each other, down from the form, that are on one level of nesting. -/
def Form.stack : Form → Nat
  | .binary _ left right => max left.stack right.stack + 1
  | .call callee _ => callee.stack + 1
  | .index value _ => value.stack + 1
  | .member value _ => value.stack + 1
  | _ => 1

end

mutual

/-- The largest stack anywhere in the expression. -/
def Expr.maxStack : Expr → Nat
  | ⟨form, _⟩ => form.maxStack

def Form.maxStack : Form → Nat
  | .assign _ value => max 1 value.maxStack
  | .binary _ left right =>
    max (max left.stack right.stack + 1) (max left.maxStack right.maxStack)
  | .unary _ operand => max 1 operand.maxStack
  | .call callee args => max (callee.stack + 1) (max callee.maxStack (maxStackAll args))
  | .index value index => max (value.stack + 1) (max value.maxStack index.maxStack)
  | .member value _ => max (value.stack + 1) value.maxStack
  | .dict entries => max 1 (maxStackEntries entries)
  | .list elements => max 1 (maxStackAll elements)
  | _ => 1

def maxStackAll : List Expr → Nat
  | [] => 0
  | e :: es => max e.maxStack (maxStackAll es)

def maxStackEntries : List Entry → Nat
  | [] => 0
  | ⟨key, value⟩ :: es => max (max key.maxStack value.maxStack) (maxStackEntries es)

end

mutual

/-- The largest stack anywhere in the statement, which is itself on a level of its own. -/
def Stmt.maxStack : Stmt → Nat
  | .expr e => max 1 e.maxStack
  | .comment _ => 1
  | .cond condition body otherwise =>
    max 1 (max condition.maxStack (max (Block.maxStack body) (elseMaxStack otherwise)))

def Block.maxStack : List Stmt → Nat
  | [] => 0
  | s :: ss => max s.maxStack (Block.maxStack ss)

def elseMaxStack : Option (List Stmt) → Nat
  | none => 0
  | some block => Block.maxStack block

end

theorem Form.stack_le_maxStack (f : Form) : f.stack ≤ f.maxStack := by
  cases f <;> simp only [stack, maxStack] <;> omega

theorem Expr.stack_le_maxStack (e : Expr) : e.stack ≤ e.maxStack := by
  obtain ⟨form, grouped⟩ := e
  rw [stack, maxStack]
  split
  · exact Nat.zero_le _
  · exact form.stack_le_maxStack

/-! ## A stack is no higher than its tree -/

mutual

theorem Expr.stack_le_height : ∀ e : Expr, e.stack ≤ e.height
  | ⟨form, grouped⟩ => by
    have hform := Form.stack_le_height form
    rw [Expr.stack, Expr.height]
    split
    · exact Nat.zero_le _
    · exact hform

theorem Form.stack_le_height : ∀ f : Form, f.stack ≤ f.height + 1
  | .binary _ left right => by
    have hleft := Expr.stack_le_height left
    have hright := Expr.stack_le_height right
    simp only [Form.stack, Form.height]
    omega
  | .call callee _ => by
    have hcallee := Expr.stack_le_height callee
    simp only [Form.stack, Form.height]
    omega
  | .index value _ => by
    have hvalue := Expr.stack_le_height value
    simp only [Form.stack, Form.height]
    omega
  | .member value _ => by
    have hvalue := Expr.stack_le_height value
    simp only [Form.stack, Form.height]
    omega
  | .name _ | .number _ | .string _ | .truth _ | .assign _ _ | .unary _ _ | .dict _ | .list _ => by
    simp [Form.stack]

end

mutual

theorem Expr.maxStack_le_height : ∀ e : Expr, e.maxStack ≤ e.height
  | ⟨form, _⟩ => Form.maxStack_le_height form

theorem Form.maxStack_le_height : ∀ f : Form, f.maxStack ≤ f.height + 1
  | .assign _ value => by
    have hvalue := Expr.maxStack_le_height value
    simp only [Form.maxStack, Form.height]
    omega
  | .binary op left right => by
    have hstack := Form.stack_le_height (.binary op left right)
    have hleft := Expr.maxStack_le_height left
    have hright := Expr.maxStack_le_height right
    simp only [Form.stack, Form.maxStack, Form.height] at hstack ⊢
    omega
  | .unary _ operand => by
    have hoperand := Expr.maxStack_le_height operand
    simp only [Form.maxStack, Form.height]
    omega
  | .call callee args => by
    have hstack := Form.stack_le_height (.call callee args)
    have hcallee := Expr.maxStack_le_height callee
    have hargs := maxStackAll_le_height args
    simp only [Form.stack, Form.maxStack, Form.height] at hstack ⊢
    omega
  | .index value index => by
    have hstack := Form.stack_le_height (.index value index)
    have hvalue := Expr.maxStack_le_height value
    have hindex := Expr.maxStack_le_height index
    simp only [Form.stack, Form.maxStack, Form.height] at hstack ⊢
    omega
  | .member value name => by
    have hstack := Form.stack_le_height (.member value name)
    have hvalue := Expr.maxStack_le_height value
    simp only [Form.stack, Form.maxStack, Form.height] at hstack ⊢
    omega
  | .dict entries => by
    have hentries := maxStackEntries_le_height entries
    simp only [Form.maxStack, Form.height]
    omega
  | .list elements => by
    have helements := maxStackAll_le_height elements
    simp only [Form.maxStack, Form.height]
    omega
  | .name _ | .number _ | .string _ | .truth _ => by
    simp [Form.maxStack]

theorem maxStackAll_le_height : ∀ es : List Expr, maxStackAll es ≤ heightAll es
  | [] => le_rfl
  | e :: es => max_le_max (Expr.maxStack_le_height e) (maxStackAll_le_height es)

theorem maxStackEntries_le_height : ∀ es : List Entry, maxStackEntries es ≤ heightEntries es
  | [] => le_rfl
  | ⟨key, value⟩ :: es =>
    max_le_max (max_le_max (Expr.maxStack_le_height key) (Expr.maxStack_le_height value))
      (maxStackEntries_le_height es)

end

mutual

theorem Stmt.maxStack_le_height : ∀ s : Stmt, s.maxStack ≤ s.height
  | .expr e => by
    have he := e.maxStack_le_height
    simp only [Stmt.maxStack, Stmt.height]
    omega
  | .comment _ => le_rfl
  | .cond condition body otherwise => by
    have hcondition := condition.maxStack_le_height
    have hbody := Block.maxStack_le_height body
    have hotherwise := elseMaxStack_le_height otherwise
    simp only [Stmt.maxStack, Stmt.height]
    omega

theorem Block.maxStack_le_height : ∀ b : List Stmt, Block.maxStack b ≤ Block.height b
  | [] => le_rfl
  | s :: ss => max_le_max (Stmt.maxStack_le_height s) (Block.maxStack_le_height ss)

theorem elseMaxStack_le_height : ∀ o : Option (List Stmt), elseMaxStack o ≤ elseHeight o
  | none => le_rfl
  | some block => Block.maxStack_le_height block

end

/-! ## A tree is no higher than a stack for each level -/

mutual

theorem Expr.height_le_stack {n : Nat} : ∀ e : Expr, e.maxStack ≤ n →
    e.height ≤ e.stack + n * e.depth
  | ⟨form, grouped⟩, h => by
    have hform := Form.height_le_stack form h
    have hstack := form.stack_le_maxStack
    rw [Expr.maxStack] at h
    rw [Expr.height, Expr.stack, Expr.depth, Nat.mul_add]
    -- the stack in parentheses is paid for by the level they open
    cases grouped
    · simpa using hform
    · simp only [if_true]
      omega

theorem Form.height_le_stack {n : Nat} : ∀ f : Form, f.maxStack ≤ n →
    f.height + 1 ≤ f.stack + n * f.depth
  | .assign _ value, h => by
    simp only [Form.maxStack, max_le_iff] at h
    have hvalue := Expr.height_le_level value h.2
    simp only [Form.height, Form.stack, Form.depth]
    omega
  | .binary _ left right, h => by
    simp only [Form.maxStack, max_le_iff] at h
    have hleft := Expr.height_le_stack left h.2.1
    have hright := Expr.height_le_stack right h.2.2
    simp only [Form.height, Form.stack, Form.depth, ← Nat.mul_max_mul_left]
    omega
  | .unary _ operand, h => by
    simp only [Form.maxStack, max_le_iff] at h
    have hoperand := Expr.height_le_level operand h.2
    simp only [Form.height, Form.stack, Form.depth]
    omega
  | .call callee args, h => by
    simp only [Form.maxStack, max_le_iff] at h
    have hcallee := Expr.height_le_stack callee h.2.1
    have hargs := heightAll_le args h.2.2
    simp only [Form.height, Form.stack, Form.depth, ← Nat.mul_max_mul_left]
    omega
  | .index value index, h => by
    simp only [Form.maxStack, max_le_iff] at h
    have hvalue := Expr.height_le_stack value h.2.1
    have hindex := Expr.height_le_level index h.2.2
    simp only [Form.height, Form.stack, Form.depth, ← Nat.mul_max_mul_left]
    omega
  | .member value _, h => by
    simp only [Form.maxStack, max_le_iff] at h
    have hvalue := Expr.height_le_stack value h.2
    simp only [Form.height, Form.stack, Form.depth]
    omega
  | .dict entries, h => by
    simp only [Form.maxStack, max_le_iff] at h
    have hentries := heightEntries_le entries h.2
    simp only [Form.height, Form.stack, Form.depth]
    omega
  | .list elements, h => by
    simp only [Form.maxStack, max_le_iff] at h
    have helements := heightAll_le elements h.2
    simp only [Form.height, Form.stack, Form.depth]
    omega
  | .name _, _ | .number _, _ | .string _, _ | .truth _, _ => by
    simp [Form.height, Form.stack]

/-- What is read as an expression of its own is on a new level. -/
theorem Expr.height_le_level {n : Nat} (e : Expr) (h : e.maxStack ≤ n) :
    e.height ≤ n * (e.depth + 1) := by
  have hheight := Expr.height_le_stack e h
  have hstack := e.stack_le_maxStack
  rw [Nat.mul_add]
  omega

theorem heightAll_le {n : Nat} : ∀ es : List Expr, maxStackAll es ≤ n →
    heightAll es ≤ n * depthAll es
  | [], _ => Nat.zero_le _
  | e :: es, h => by
    simp only [maxStackAll, max_le_iff] at h
    rw [heightAll, depthAll, ← Nat.mul_max_mul_left]
    exact max_le_max (Expr.height_le_level e h.1) (heightAll_le es h.2)

theorem heightEntries_le {n : Nat} : ∀ es : List Entry, maxStackEntries es ≤ n →
    heightEntries es ≤ n * depthEntries es
  | [], _ => Nat.zero_le _
  | ⟨key, value⟩ :: es, h => by
    simp only [maxStackEntries, max_le_iff] at h
    rw [heightEntries, depthEntries, ← Nat.mul_max_mul_left, ← Nat.mul_max_mul_left]
    exact max_le_max (max_le_max (Expr.height_le_level key h.1.1)
      (Expr.height_le_level value h.1.2)) (heightEntries_le es h.2)

end

mutual

theorem Stmt.height_le {n : Nat} : ∀ s : Stmt, s.maxStack ≤ n → s.height ≤ n * (s.depth + 1)
  | .expr e, h => by
    simp only [Stmt.maxStack, max_le_iff] at h
    have he := e.height_le_level h.2
    simp only [Stmt.height, Stmt.depth]
    rw [Nat.mul_add n _ 1]
    omega
  | .comment _, h => by
    simpa [Stmt.height, Stmt.depth, Stmt.maxStack] using h
  | .cond condition body otherwise, h => by
    simp only [Stmt.maxStack, max_le_iff] at h
    have hcondition := condition.height_le_level h.2.1
    have hbody := Block.height_le body h.2.2.1
    have hotherwise := elseHeight_le otherwise h.2.2.2
    simp only [Stmt.height, Stmt.depth]
    simp only [Nat.mul_add, ← Nat.mul_max_mul_left] at hcondition hbody hotherwise ⊢
    omega

theorem Block.height_le {n : Nat} : ∀ b : List Stmt, Block.maxStack b ≤ n →
    Block.height b ≤ n * (Block.depth b + 1)
  | [], _ => Nat.zero_le _
  | s :: ss, h => by
    simp only [Block.maxStack, max_le_iff] at h
    have hs := Stmt.height_le s h.1
    have hss := Block.height_le ss h.2
    simp only [Block.height, Block.depth]
    simp only [Nat.mul_add, ← Nat.mul_max_mul_left] at hs hss ⊢
    omega

theorem elseHeight_le {n : Nat} : ∀ o : Option (List Stmt), elseMaxStack o ≤ n →
    elseHeight o ≤ n * (elseDepth o + 1)
  | none, _ => Nat.zero_le _
  | some block, h => Block.height_le block h

end

/-! ## The trees that are read -/

/-- The sum of `n + 1` names, as it is read without parentheses. -/
def Expr.sum : Nat → Expr
  | 0 => ⟨.name "a", false⟩
  | n + 1 => ⟨.binary .add (sum n) ⟨.name "a", false⟩, false⟩

namespace Expr

theorem tier_sum (n : Nat) : BinaryOp.add.tier ≤ (sum n).tier := by
  cases n with
  | zero => decide
  | succ n => exact le_rfl

theorem formed_sum (n : Nat) : (sum n).Formed := by
  have hname : Formed ⟨.name "a", false⟩ :=
    .name ⟨isName_of_all (by decide) (by decide) (by decide), by decide, by decide⟩ false
  induction n with
  | zero => exact hname
  | succ n ih => exact .binary ih hname (tier_sum n) (by decide) false

/-- A sum has the nesting of a name, however long it is. -/
theorem depth_sum (n : Nat) : (sum n).depth = 0 := by
  induction n with
  | zero => rfl
  | succ n ih => simp [sum, depth, Form.depth, ih]

theorem height_sum (n : Nat) : (sum n).height = n + 1 := by
  induction n with
  | zero => rfl
  | succ n ih => simp [sum, height, Form.height, ih]

end Expr

namespace Block

theorem depth_le_of_parse {source : String} {b : Block} (h : parse source = .ok b) :
    Block.depth b ≤ maxNesting := by
  obtain ⟨ts, -, hl, p, hp, rfl⟩ := exists_phrase_of_parse h
  obtain ⟨-, -, hd⟩ := p.attains (hp.lexical hl) hp.greedy
  exact hd.trans hp.depth

theorem exists_parse_sum (n : Nat) : ∃ source, parse source = .ok [.expr (.sum n)] := by
  have hs : ∀ s ∈ [Stmt.expr (.sum n)], s.WellFormed := by
    simpa using Stmt.WellFormed.expr (Expr.formed_sum n)
  obtain ⟨p, hmeaning, hp⟩ :=
    Phrase.exists_statements (List.isChain_singleton _) fun s h => Phrase.exists_statement (hs s h)
  obtain ⟨us, hscan, hus⟩ := Token.scan_column hp.lexical
  rw [p.unplaced_tokens] at hus
  have hdepth : Block.depth [Stmt.expr (.sum n)] ≤ maxNesting := by
    simp [Block.depth, Stmt.depth, Expr.depth_sum, maxNesting]
  rw [← hmeaning]
  exact ⟨_, parse_of_phrase hscan ⟨hp.unbraced, hp.greedy, hus.symm, hp.depth.trans hdepth⟩⟩

/-- No bound holds for the trees of all programs. -/
theorem not_bounded_height :
    ¬ ∃ bound, ∀ source b, parse source = .ok b → Block.height b ≤ bound := by
  rintro ⟨bound, hbound⟩
  obtain ⟨source, h⟩ := exists_parse_sum bound
  have hheight := hbound source _ h
  simp only [Block.height, Stmt.height, Expr.height_sum] at hheight
  omega

/-- The height is that of one stack, up to the levels that the limit allows. -/
theorem height_of_parse {source : String} {b : Block} (h : parse source = .ok b) :
    Block.maxStack b ≤ Block.height b ∧
      Block.height b ≤ Block.maxStack b * (maxNesting + 1) := by
  refine ⟨Block.maxStack_le_height b, (Block.height_le b le_rfl).trans ?_⟩
  exact Nat.mul_le_mul_left _ (Nat.add_le_add_right (depth_le_of_parse h) 1)

/-- In `f(g(a))(b)` the two calls of `f` are a stack of three with the name. The arguments are on
levels of their own. -/
theorem height_of_parse_calls :
    ∃ b, parse "f(g(a))(b)" = .ok b ∧ Block.maxStack b = 3 ∧ Block.height b = 5 ∧
      3 ≤ Block.height b ∧ Block.height b ≤ 3 * (maxNesting + 1) := by
  have hscan : Token.scan "f(g(a))(b)" = .ok
      [⟨.name, "f", some ⟨0, 0⟩⟩, ⟨.mark .openParen, "(", some ⟨0, 1⟩⟩,
        ⟨.name, "g", some ⟨0, 2⟩⟩, ⟨.mark .openParen, "(", some ⟨0, 3⟩⟩,
        ⟨.name, "a", some ⟨0, 4⟩⟩, ⟨.mark .closeParen, ")", some ⟨0, 5⟩⟩,
        ⟨.mark .closeParen, ")", some ⟨0, 6⟩⟩, ⟨.mark .openParen, "(", some ⟨0, 7⟩⟩,
        ⟨.name, "b", some ⟨0, 8⟩⟩, ⟨.mark .closeParen, ")", some ⟨0, 9⟩⟩] := rfl
  let whole (e : Phrase .applied) : Phrase .expression :=
    .plain (.ofFactor (.ofUnary (.ofApplied e)))
  let call (callee arg : Phrase .applied) : Phrase .applied :=
    .call callee (.someItems (.lastItem (whole arg)))
  let name (x : String) : Phrase .applied := .ofPrimary (.word x)
  let p : Phrase .statements := .nextStatement
    (.expr (whole (call (call (name "f") (call (name "g") (name "a"))) (name "b")))) .noStatements
  have hparse : parse "f(g(a))(b)" = .ok
      [.expr ⟨.call ⟨.call ⟨.name "f", false⟩ [⟨.call ⟨.name "g", false⟩ [⟨.name "a", false⟩],
        false⟩], false⟩ [⟨.name "b", false⟩], false⟩] := parse_of_phrase hscan (p := p)
    ⟨⟨trivial, trivial⟩, ⟨trivial, fun _ => Token.ends_nil _, trivial⟩, rfl, by decide⟩
  refine ⟨_, hparse, ?stack, ?height, ?bounds⟩
  case stack => decide
  case height => decide
  case bounds => exact height_of_parse hparse

end Block

end Offside
