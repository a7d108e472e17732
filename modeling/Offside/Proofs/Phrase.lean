import Offside.Proofs.Face

/-!
# Phrases

The grammar of programs, written down apart from the rules that read it. A `Phrase` is a concrete
tree: it keeps every token there is (`Phrase.tokens`), it stands for a part of a program
(`Phrase.meaning`), and it opens levels of nesting, one for each expression, each operand of an
operator before it and each conditional (`Phrase.depth`).

A chain of operators is folded to the left, so the grammar of the two levels of binary operators and
of calls, indices and members is left recursive.

Two ambiguities are left in the grammar. Statements need nothing between them, so the tokens of two
statements can also be those of one; and an `else` can belong to more than one conditional.
`Phrase.Greedy` settles both: every statement and every conditional goes on for as long as it can.
-/

namespace Offside

inductive Category where
  | expression | binary | factor | unary | applied | primary
  | arguments | items | entries | entry | key
  | statement | block | statements

/-- What the phrases of a category stand for. -/
abbrev Category.Meaning : Category → Type
  | .arguments | .items => List Expr
  | .entries => List Entry
  | .entry => Entry
  | .statement => Stmt
  | .block | .statements => Block
  | _ => Expr

/-- How tightly the operator binds; a right operand must bind more tightly. -/
def BinaryOp.tier : BinaryOp → Nat
  | multiply | divide | modulo => 2
  | _ => 1

theorem BinaryOp.tier_eq_two_iff {op : BinaryOp} : op.tier = 2 ↔ op.isMultiplicative = true := by
  cases op <;> decide

theorem BinaryOp.tier_eq_two_or_one (op : BinaryOp) : op.tier = 2 ∨ op.tier = 1 := by
  cases op <;> decide

/-- The operators that bind more tightly than the others. -/
abbrev TightOp := { op : BinaryOp // op.tier = 2 }

abbrev LooseOp := { op : BinaryOp // op.tier = 1 }

/-- The words that name something: no value is spelled so. -/
abbrev Target := { x : String // x ≠ "T" ∧ x ≠ "F" }

inductive Phrase : Category → Type where
  | assign (target : Target) (value : Phrase .expression) : Phrase .expression
  | plain (e : Phrase .binary) : Phrase .expression
  | sum (left : Phrase .binary) (op : LooseOp) (right : Phrase .factor) : Phrase .binary
  | ofFactor (e : Phrase .factor) : Phrase .binary
  | product (left : Phrase .factor) (op : TightOp) (right : Phrase .unary) : Phrase .factor
  | ofUnary (e : Phrase .unary) : Phrase .factor
  | signed (op : UnaryOp) (operand : Phrase .unary) : Phrase .unary
  | ofApplied (e : Phrase .applied) : Phrase .unary
  | call (callee : Phrase .applied) (args : Phrase .arguments) : Phrase .applied
  | index (value : Phrase .applied) (index : Phrase .expression) : Phrase .applied
  | member (value : Phrase .applied) (name : String) : Phrase .applied
  | ofPrimary (e : Phrase .primary) : Phrase .applied
  | number (text : String) : Phrase .primary
  /-- The lexeme is the string with its quotes. -/
  | string (lexeme : String) : Phrase .primary
  | word (word : String) : Phrase .primary
  | group (e : Phrase .expression) : Phrase .primary
  | list (elements : Phrase .arguments) : Phrase .primary
  | dict (entries : Phrase .entries) : Phrase .primary
  | noItems : Phrase .arguments
  | someItems (items : Phrase .items) : Phrase .arguments
  | lastItem (e : Phrase .expression) : Phrase .items
  | nextItem (e : Phrase .expression) (items : Phrase .items) : Phrase .items
  | noEntries : Phrase .entries
  | lastEntry (entry : Phrase .entry) : Phrase .entries
  /-- An entry with a comma behind it. The comma may be the last token before the brace. -/
  | nextEntry (entry : Phrase .entry) (entries : Phrase .entries) : Phrase .entries
  | alone (key : Phrase .expression) : Phrase .entry
  | colon (key value : Phrase .expression) : Phrase .entry
  | walrus (key : Phrase .key) (value : Phrase .expression) : Phrase .entry
  | nameKey (name : Target) : Phrase .key
  | groupKey (key : Phrase .key) : Phrase .key
  | cond (condition : Phrase .expression) (body : Phrase .block) : Phrase .statement
  | condElse (condition : Phrase .expression) (body otherwise : Phrase .block) : Phrase .statement
  | comment (text : String) : Phrase .statement
  | expr (e : Phrase .expression) : Phrase .statement
  | braces (statements : Phrase .statements) : Phrase .block
  | single (statement : Phrase .statement) : Phrase .block
  | noStatements : Phrase .statements
  | nextStatement (statement : Phrase .statement) (statements : Phrase .statements) :
      Phrase .statements

namespace Phrase

/-- The tokens of a phrase, in order. -/
@[simp]
def tokens : {c : Category} → Phrase c → List Token
  | _, assign x value => .bare .name x :: Mark.equal.token :: value.tokens
  | _, plain e => e.tokens
  | _, sum left op right => left.tokens ++ op.1.mark.token :: right.tokens
  | _, ofFactor e => e.tokens
  | _, product left op right => left.tokens ++ op.1.mark.token :: right.tokens
  | _, ofUnary e => e.tokens
  | _, signed op operand => op.mark.token :: operand.tokens
  | _, ofApplied e => e.tokens
  | _, call callee args =>
    callee.tokens ++ Mark.openParen.token :: (args.tokens ++ [Mark.closeParen.token])
  | _, index value i =>
    value.tokens ++ Mark.openBracket.token :: (i.tokens ++ [Mark.closeBracket.token])
  | _, member value x => value.tokens ++ [Mark.dot.token, .bare .name x]
  | _, ofPrimary e => e.tokens
  | _, number text => [.bare .number text]
  | _, string lexeme => [.bare .string lexeme]
  | _, word x => [.bare .name x]
  | _, group e => Mark.openParen.token :: (e.tokens ++ [Mark.closeParen.token])
  | _, list elements => Mark.openBracket.token :: (elements.tokens ++ [Mark.closeBracket.token])
  | _, dict entries => Mark.openBrace.token :: (entries.tokens ++ [Mark.closeBrace.token])
  | _, noItems => []
  | _, someItems items => items.tokens
  | _, lastItem e => e.tokens
  | _, nextItem e items => e.tokens ++ Mark.comma.token :: items.tokens
  | _, noEntries => []
  | _, lastEntry entry => entry.tokens
  | _, nextEntry entry entries => entry.tokens ++ Mark.comma.token :: entries.tokens
  | _, alone key => key.tokens
  | _, colon key value => key.tokens ++ Mark.colon.token :: value.tokens
  | _, walrus key value => key.tokens ++ Mark.walrus.token :: value.tokens
  | _, nameKey x => [.bare .name x]
  | _, groupKey key => Mark.openParen.token :: (key.tokens ++ [Mark.closeParen.token])
  | _, cond condition body =>
    Keyword.ifWord.token :: Mark.openParen.token ::
      (condition.tokens ++ Mark.closeParen.token :: body.tokens)
  | _, condElse condition body otherwise =>
    Keyword.ifWord.token :: Mark.openParen.token ::
      (condition.tokens ++ Mark.closeParen.token ::
        (body.tokens ++ Keyword.elseWord.token :: otherwise.tokens))
  | _, comment text => [.bare .comment text]
  | _, expr e => e.tokens
  | _, braces statements => Mark.openBrace.token :: (statements.tokens ++ [Mark.closeBrace.token])
  | _, single statement => statement.tokens
  | _, noStatements => []
  | _, nextStatement statement statements => statement.tokens ++ statements.tokens

/-- What a phrase stands for. -/
@[simp]
def meaning : {c : Category} → Phrase c → c.Meaning
  | _, assign x value => (Form.assign x value.meaning).bare
  | _, plain e => e.meaning
  | _, sum left op right => (Form.binary op left.meaning right.meaning).bare
  | _, ofFactor e => e.meaning
  | _, product left op right => (Form.binary op left.meaning right.meaning).bare
  | _, ofUnary e => e.meaning
  | _, signed op operand => (Form.unary op operand.meaning).bare
  | _, ofApplied e => e.meaning
  | _, call callee args => (Form.call callee.meaning args.meaning).bare
  | _, index value i => (Form.index value.meaning i.meaning).bare
  | _, member value x => (Form.member value.meaning x).bare
  | _, ofPrimary e => e.meaning
  | _, number text => (Form.number text).bare
  | _, string lexeme => (Form.string (Expr.unquote lexeme)).bare
  | _, word x => Expr.ofWord x
  | _, group e => Expr.group e.meaning
  | _, list elements => (Form.list elements.meaning).bare
  | _, dict entries => (Form.dict entries.meaning).bare
  | _, noItems => []
  | _, someItems items => items.meaning
  | _, lastItem e => [e.meaning]
  | _, nextItem e items => e.meaning :: items.meaning
  | _, noEntries => []
  | _, lastEntry entry => [entry.meaning]
  | _, nextEntry entry entries => entry.meaning :: entries.meaning
  | _, alone key => ⟨Expr.asKey key.meaning, key.meaning⟩
  | _, colon key value => ⟨Expr.asKey key.meaning, value.meaning⟩
  | _, walrus key value => ⟨key.meaning, value.meaning⟩
  | _, nameKey x => (Form.name x).bare
  | _, groupKey key => Expr.group key.meaning
  | _, cond condition body => .cond condition.meaning body.meaning none
  | _, condElse condition body otherwise =>
    .cond condition.meaning body.meaning (some otherwise.meaning)
  | _, comment text => .comment text
  | _, expr e => .expr e.meaning
  | _, braces statements => statements.meaning
  | _, single statement => [statement.meaning]
  | _, noStatements => []
  | _, nextStatement statement statements => statement.meaning :: statements.meaning

/-- How many levels of nesting a phrase opens inside of each other. -/
@[simp]
def depth : {c : Category} → Phrase c → Nat
  | _, assign _ value => value.depth + 1
  | _, plain e => e.depth + 1
  | _, sum left _ right => max left.depth right.depth
  | _, ofFactor e => e.depth
  | _, product left _ right => max left.depth right.depth
  | _, ofUnary e => e.depth
  | _, signed _ operand => operand.depth + 1
  | _, ofApplied e => e.depth
  | _, call callee args => max callee.depth args.depth
  | _, index value i => max value.depth i.depth
  | _, member value _ => value.depth
  | _, ofPrimary e => e.depth
  | _, number _ => 0
  | _, string _ => 0
  | _, word _ => 0
  | _, group e => e.depth
  | _, list elements => elements.depth
  | _, dict entries => entries.depth
  | _, noItems => 0
  | _, someItems items => items.depth
  | _, lastItem e => e.depth
  | _, nextItem e items => max e.depth items.depth
  | _, noEntries => 0
  | _, lastEntry entry => entry.depth
  | _, nextEntry entry entries => max entry.depth entries.depth
  | _, alone key => key.depth
  | _, colon key value => max key.depth value.depth
  | _, walrus key value => max key.depth value.depth
  | _, nameKey _ => 1
  | _, groupKey key => key.depth + 1
  | _, cond condition body => max condition.depth body.depth + 1
  | _, condElse condition body otherwise =>
    max condition.depth (max body.depth otherwise.depth) + 1
  | _, comment _ => 0
  | _, expr e => e.depth
  | _, braces statements => statements.depth
  | _, single statement => statement.depth
  | _, noStatements => 0
  | _, nextStatement statement statements => max statement.depth statements.depth

end Phrase

/-! ## What a phrase starts with, and what can follow it -/

namespace Kind

/-- A primary expression can start with a token of this kind. -/
def opens : Kind → Bool
  | .number | .string | .name => true
  | .mark .openParen | .mark .openBracket | .mark .openBrace => true
  | _ => false

/-- An expression can start with a token of this kind. -/
def starts (k : Kind) : Bool := k.opens || (Grammar.unaryOp? (some k)).isSome

/-- A statement can start with a token of this kind. -/
def begins (k : Kind) : Bool := k.starts || k == .comment || k == .keyword .ifWord

/-- A token of this kind goes on with a call, an index or a member. -/
def applies : Kind → Bool
  | .mark .openParen | .mark .openBracket | .mark .dot => true
  | _ => false

/-- A token of this kind goes on with a factor. -/
def multiplies (k : Kind) : Bool :=
  k.applies || (Grammar.binaryOp? (some k)).any BinaryOp.isMultiplicative

/-- A token of this kind goes on with an operand of any binary operator. -/
def operates (k : Kind) : Bool := k.applies || (Grammar.binaryOp? (some k)).isSome

/-- A token of this kind goes on with an expression. Of the tokens that a statement can start with,
these are `(`, `[` and `-`. -/
def continues (k : Kind) : Bool := k.operates || k == .mark .equal

end Kind

/-- The tokens do not start with one of the given kinds. -/
def Token.Ends (p : Kind → Bool) (ts : List Token) : Prop := ∀ t ∈ ts.head?, p t.kind = false

namespace Phrase

open Token (Ends)

/-- The last part of the phrase is an expression. -/
def endsInExpr : {c : Category} → Phrase c → Bool
  | _, expr _ => true
  | _, cond _ body => body.endsInExpr
  | _, condElse _ _ otherwise => otherwise.endsInExpr
  | _, single statement => statement.endsInExpr
  | _, _ => false

/-- The phrase ends in a conditional that an `else` could still be added to. -/
def lacksElse : {c : Category} → Phrase c → Bool
  | _, cond _ _ => true
  | _, condElse _ _ otherwise => otherwise.lacksElse
  | _, single statement => statement.lacksElse
  | _, _ => false

/-- No body that is a single statement starts with a brace. -/
def Unbraced : {c : Category} → Phrase c → Prop
  | _, cond _ body => body.Unbraced
  | _, condElse _ body otherwise => body.Unbraced ∧ otherwise.Unbraced
  | _, braces statements => statements.Unbraced
  | _, single statement => Ends (· == .mark .openBrace) statement.tokens ∧ statement.Unbraced
  | _, nextStatement statement statements => statement.Unbraced ∧ statements.Unbraced
  | _, _ => True

/-- No expression stands before a token that it could go on with, and no conditional without `else`
before an `else`. -/
def Greedy : {c : Category} → Phrase c → Prop
  | _, cond _ body => body.Greedy
  | _, condElse _ body otherwise => body.Greedy ∧ body.lacksElse = false ∧ otherwise.Greedy
  | _, braces statements => statements.Greedy
  | _, single statement => statement.Greedy
  | _, nextStatement statement statements =>
    statement.Greedy ∧ (statement.endsInExpr = true → Ends Kind.continues statements.tokens) ∧
      statements.Greedy
  | _, _ => True

end Phrase

end Offside
