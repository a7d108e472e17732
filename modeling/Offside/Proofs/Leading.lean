import Offside.Proofs.Readable.Expr

/-!
# What an expression starts with

The kind of the first token of an expression is a matter of the tree alone (`head_tokens`), since
the parentheses around an expression leave their flag in it. Of the kinds of token that a statement
can start with, three also go on with an expression that stands before them (`Kind.joins`): a
statement that starts otherwise leaves the one before it as it is.
-/

namespace Offside

open Token (Ends)

mutual

/-- The kind of the first token of an expression. -/
def Expr.lead : Expr → Kind
  | ⟨form, grouped⟩ => if grouped then .mark .openParen else form.lead

def Form.lead : Form → Kind
  | .name _ | .truth _ | .assign _ _ => .name
  | .number _ => .number
  | .string _ => .string
  | .binary _ left _ => left.lead
  | .unary op _ => .mark op.mark
  | .call callee _ => callee.lead
  | .index value _ | .member value _ => value.lead
  | .dict _ => .mark .openBrace
  | .list _ => .mark .openBracket

end

theorem Form.lead_bare (f : Form) : f.bare.lead = f.lead := by
  rw [Form.bare, Expr.lead]
  rfl

theorem Expr.lead_ofWord (x : String) : (Expr.ofWord x).lead = .name := by
  unfold Expr.ofWord
  split
  · exact Form.lead_bare _
  · split <;> exact Form.lead_bare _

/-- The first token is of the kind. -/
def Token.StartsWith (k : Kind) (ts : List Token) : Prop := ts.head?.map Token.kind = some k

theorem Token.StartsWith.append {k : Kind} {ts : List Token} (h : StartsWith k ts)
    (us : List Token) : StartsWith k (ts ++ us) := by
  cases ts with
  | nil => exact absurd h (by simp [StartsWith])
  | cons t ts => exact h

theorem Token.Ends.of_head {p : Kind → Bool} {ts us : List Token} (h : Ends p us)
    (hk : ts.head?.map Token.kind = us.head?.map Token.kind) : Ends p ts := by
  intro t ht
  rw [Option.mem_def.1 ht] at hk
  obtain ⟨u, hu, hku⟩ := Option.map_eq_some_iff.1 hk.symm
  rw [← hku]
  exact h u hu

/-- The tokens start with what the category asks for, if it is one of expressions. -/
def Category.Leads (ts : List Token) : (c : Category) → c.Meaning → Prop
  | .expression, e => Token.StartsWith (Expr.lead e) ts
  | .binary, e => Token.StartsWith (Expr.lead e) ts
  | .factor, e => Token.StartsWith (Expr.lead e) ts
  | .unary, e => Token.StartsWith (Expr.lead e) ts
  | .applied, e => Token.StartsWith (Expr.lead e) ts
  | .primary, e => Token.StartsWith (Expr.lead e) ts
  | .arguments, _ | .items, _ | .entries, _ | .entry, _ | .key, _ => True
  | .statement, _ | .block, _ | .statements, _ => True

namespace Phrase

/-- What an expression starts with is a matter of what it stands for. -/
theorem head_tokens : ∀ {c : Category} (p : Phrase c), c.Leads p.tokens p.meaning
  | _, assign _ _ => rfl
  | _, plain e => head_tokens e
  | _, sum l _ _ => (head_tokens l).append _
  | _, ofFactor e => head_tokens e
  | _, product l _ _ => (head_tokens l).append _
  | _, ofUnary e => head_tokens e
  | _, signed _ _ => rfl
  | _, ofApplied e => head_tokens e
  | _, call c _ => (head_tokens c).append _
  | _, index v _ => (head_tokens v).append _
  | _, member v _ => (head_tokens v).append _
  | _, ofPrimary e => head_tokens e
  | _, number _ => rfl
  | _, string _ => rfl
  | _, word x => congrArg some (Expr.lead_ofWord x).symm
  | _, group _ => rfl
  | _, list _ => rfl
  | _, dict _ => rfl
  | .arguments, _ | .items, _ | .entries, _ | .entry, _ | .key, _ => trivial
  | .statement, _ | .block, _ | .statements, _ => trivial

end Phrase

/-! ## Statements next to each other -/

namespace Kind

/-- A statement can start with a token of this kind, but behind an expression it goes on with it. -/
def joins (k : Kind) : Bool :=
  k = .mark .openParen || k = .mark .openBracket || k = .mark .minus

/-- Of the tokens that a statement starts with, these are all that an expression goes on with. -/
theorem continues_of_begins {k : Kind} (h : k.begins = true) : k.continues = k.joins := by
  have hall : Kind.all.all fun k => !k.begins || k.continues == k.joins := by decide
  have := List.all_eq_true.1 hall k (Kind.mem_all k)
  simpa [h] using this

end Kind

end Offside
