import Offside.Expr.Basic
import Offside.Proofs.Face

/-!
# How Python reads operators

The operators of Python bind at different levels, from `or`, which binds loosest, over `and`, `not`,
the comparisons, sums and products to the minus before an operand. On one level they are taken from
left to right. A comparison with another one on its left, not in parentheses, is not one of the two
in the other: it goes on with a chain.

`OpTree.Reading` says as what trees tokens are read so. There is at most one
(`OpTree.Reading.unique`). Of two readings, none can have its last operator to the left of that of
the other: an operator that stands outside of all parentheses, behind an operand, binds at least as
tightly as the whole (`OpTree.Reading.level_le`).
-/

namespace Offside

/-- How tightly the operator binds. -/
def BinaryOp.level : BinaryOp → Nat
  | .or => 0
  | .and => 1
  | .equality | .greater | .lesser | .greaterEq | .lesserEq => 3
  | .add | .subtract => 4
  | .multiply | .divide | .modulo => 5

/-- How tightly the operator binds: `not` between `and` and the comparisons, and the minus more
tightly than a product. -/
def UnaryOp.level : UnaryOp → Nat
  | .not => 2
  | .negate => 6

/-- The level of what is no operator, or stands in parentheses. -/
def atomLevel : Nat := 7

def BinaryOp.isComparison (op : BinaryOp) : Bool := op.level = 3

/-- The token for the operator in Python. -/
def BinaryOp.sign : BinaryOp → Token
  | .and => .bare .name "and"
  | .or => .bare .name "or"
  | op => op.mark.token

/-- The token for the operator in Python. -/
def UnaryOp.sign : UnaryOp → Token
  | .not => .bare .name "not"
  | .negate => Mark.minus.token

inductive Leaf where
  | name (x : String)
  | number (text : String)
  | string (content : String)
  | truth (value : Bool)
  deriving DecidableEq

namespace Leaf

def token : Leaf → Token
  | name x => .bare .name x
  | number text => .bare .number text
  | string content => .bare .string ("\"" ++ content ++ "\"")
  | truth true => .bare .name "True"
  | truth false => .bare .name "False"

/-- Python does not read the leaf as something else. -/
def Readable : Leaf → Prop
  | name x => x ∉ ["and", "or", "not", "True", "False"]
  | _ => True

end Leaf

/-- An expression without its parentheses. -/
inductive OpTree where
  | leaf (l : Leaf)
  | unary (op : UnaryOp) (operand : OpTree)
  | binary (op : BinaryOp) (left right : OpTree)
  /-- The comparison on the left goes on with another operand. -/
  | chain (op : BinaryOp) (left right : OpTree)

/-- What the operator makes of its operands, the left one of which is of the given level. -/
def BinaryOp.join (op : BinaryOp) (level : Nat) (left right : OpTree) : OpTree :=
  if op.isComparison ∧ level = op.level then .chain op left right else .binary op left right

/-- The tokens are read as the tree, and the operator that is applied last binds at the level. -/
inductive OpTree.Reading : Nat → List Token → OpTree → Prop where
  | leaf {l : Leaf} (h : l.Readable) : Reading atomLevel [l.token] (.leaf l)
  | group {n : Nat} {ts : List Token} {t : OpTree} (h : Reading n ts t) :
      Reading atomLevel (Mark.openParen.token :: (ts ++ [Mark.closeParen.token])) t
  | unary {op : UnaryOp} {n : Nat} {ts : List Token} {t : OpTree} (hn : op.level ≤ n)
      (h : Reading n ts t) : Reading op.level (op.sign :: ts) (.unary op t)
  | binary {op : BinaryOp} {m n : Nat} {ts us : List Token} {l r : OpTree} (hm : op.level ≤ m)
      (hn : op.level < n) (hl : Reading m ts l) (hr : Reading n us r) :
      Reading op.level (ts ++ op.sign :: us) (op.join m l r)

namespace Token

/-! ## Parentheses -/

/-- What the token adds to the number of open parentheses. -/
def slope (t : Token) : Int :=
  match t.kind with
  | .mark .openParen => 1
  | .mark .closeParen => -1
  | _ => 0

/-- How many more parentheses are opened than closed. -/
def net : List Token → Int
  | [] => 0
  | t :: ts => t.slope + net ts

theorem net_append (ts us : List Token) : net (ts ++ us) = net ts + net us := by
  induction ts with
  | nil => simp [net]
  | cons t ts ih => rw [List.cons_append, net, net, ih, Int.add_assoc]

/-- Every parenthesis that is opened is closed, and none is closed that is not open. -/
structure Balanced (ts : List Token) : Prop where
  net_eq : net ts = 0
  net_nonneg : ∀ ps, ps <+: ts → 0 ≤ net ps

theorem balanced_singleton {t : Token} (h : t.slope = 0) : Balanced [t] where
  net_eq := by simp [net, h]
  net_nonneg ps hp := by
    rcases List.prefix_cons_iff.1 hp with rfl | ⟨qs, rfl, hq⟩
    · simp [net]
    · simp [List.prefix_nil.1 hq, net, h]

theorem Balanced.append {ts us : List Token} (h : Balanced ts) (h' : Balanced us) :
    Balanced (ts ++ us) where
  net_eq := by rw [net_append, h.net_eq, h'.net_eq, Int.add_zero]
  net_nonneg ps hp := by
    rcases List.prefix_or_prefix_of_prefix hp (List.prefix_append ts us) with hp' | ⟨qs, rfl⟩
    · exact h.net_nonneg ps hp'
    · rw [net_append, h.net_eq, Int.zero_add]
      exact h'.net_nonneg qs ((List.prefix_append_right_inj ts).1 hp)

theorem Balanced.enclosed {ts : List Token} (h : Balanced ts) :
    Balanced (Mark.openParen.token :: (ts ++ [Mark.closeParen.token])) where
  net_eq := by
    rw [net, net_append, h.net_eq]
    rfl
  net_nonneg ps hp := by
    rcases List.prefix_cons_iff.1 hp with rfl | ⟨qs, rfl, hq⟩
    · simp [net]
    have hopen : Mark.openParen.token.slope = 1 := rfl
    rw [net, hopen]
    rcases List.prefix_concat_iff.1 hq with rfl | hq
    · rw [net_append, h.net_eq]
      decide
    · have := h.net_nonneg qs hq
      omega

/-- Between two parentheses that belong together, one is always open. -/
theorem Balanced.net_ne_zero {ts ps qs : List Token} {x : Token} (h : Balanced ts)
    (heq : Mark.openParen.token :: (ts ++ [Mark.closeParen.token]) = ps ++ x :: qs)
    (hne : ps ≠ []) : net ps ≠ 0 := by
  obtain ⟨y, ps, rfl⟩ := List.exists_cons_of_ne_nil hne
  obtain ⟨rfl, htail⟩ := List.cons.inj heq
  have hprefix : ps <+: ts := by
    rcases List.prefix_concat_iff.1 ⟨x :: qs, htail.symm⟩ with rfl | hp
    · simp at htail
    · exact hp
  have hopen : Mark.openParen.token.slope = 1 := rfl
  have hle := h.net_nonneg ps hprefix
  rw [net, hopen]
  omega

/-- The token can be the last one of an operand. -/
def endsOperand (t : Token) : Bool :=
  match t.kind with
  | .number | .string => true
  | .name => t.lexeme ∉ ["and", "or", "not"]
  | .mark m => m = .closeParen
  | _ => false

/-- What an operand has in common with a reading: its parentheses are its own, and it ends. -/
structure Whole (ts : List Token) : Prop where
  net_eq : net ts = 0
  last : ∃ t, ts.getLast? = some t ∧ t.endsOperand = true

theorem Whole.ne_nil {ts : List Token} (h : Whole ts) : ts ≠ [] := by
  rintro rfl
  obtain ⟨t, ht, -⟩ := h.last
  simp at ht

/-- What stands behind an operator is whole again. -/
theorem Whole.behind {ts us : List Token} {x : Token} (h : Whole (ts ++ x :: us))
    (hts : net ts = 0) (hx : x.slope = 0) (hends : x.endsOperand = false) : Whole us where
  net_eq := by
    have hnet := h.net_eq
    rw [net_append, net, hts, hx] at hnet
    omega
  last := by
    obtain ⟨t, ht, ht'⟩ := h.last
    rcases us with _ | ⟨y, us⟩
    · obtain rfl : x = t := by simpa using ht
      rw [hends] at ht'
      exact absurd ht' (by decide)
    · rw [List.getLast?_append, List.getLast?_cons_cons, List.getLast?_cons, Option.some_or] at ht
      exact ⟨t, by rw [List.getLast?_cons, ht], ht'⟩

/-- Two ways to cut a list at an element: one is to the left of the other, or they are the same. -/
theorem split_cases {as bs cs ds : List Token} {x y : Token}
    (h : as ++ x :: bs = cs ++ y :: ds) :
    (∃ ms, cs = as ++ x :: ms ∧ bs = ms ++ y :: ds) ∨ (as = cs ∧ x = y ∧ bs = ds) ∨
      ∃ ms, as = cs ++ y :: ms ∧ ds = ms ++ x :: bs := by
  rcases List.append_eq_append_iff.1 h with ⟨ms, rfl, hms⟩ | ⟨ms, rfl, hms⟩
  · rcases ms with _ | ⟨z, ms⟩
    · obtain ⟨rfl, rfl⟩ := List.cons.inj hms
      exact .inr (.inl ⟨(List.append_nil as).symm, rfl, rfl⟩)
    · obtain ⟨rfl, rfl⟩ := List.cons.inj hms
      exact .inl ⟨ms, rfl, rfl⟩
  · rcases ms with _ | ⟨z, ms⟩
    · obtain ⟨rfl, rfl⟩ := List.cons.inj hms
      exact .inr (.inl ⟨List.append_nil cs, rfl, rfl⟩)
    · obtain ⟨rfl, rfl⟩ := List.cons.inj hms
      exact .inr (.inr ⟨ms, rfl, rfl⟩)

end Token

/-! ## The tokens of operators and operands -/

namespace Leaf

theorem slope_token (l : Leaf) : l.token.slope = 0 := by
  rcases l with x | text | content | (_ | _) <;> rfl

theorem endsOperand_token {l : Leaf} (h : l.Readable) : l.token.endsOperand = true := by
  rcases l with x | text | content | (_ | _)
  · simp only [Readable, List.mem_cons, List.not_mem_nil, or_false, not_or] at h
    simp [token, Token.endsOperand, Token.bare, h]
  · rfl
  · rfl
  · rfl
  · rfl

theorem token_injective {l l' : Leaf} (h : l.Readable) (h' : l'.Readable)
    (heq : l.token = l'.token) : l = l' := by
  rcases l with x | text | content | (_ | _) <;> rcases l' with x' | text' | content' | (_ | _) <;>
    simp_all [token, Token.bare, Readable]

end Leaf

namespace BinaryOp

theorem slope_sign (op : BinaryOp) : op.sign.slope = 0 := by cases op <;> rfl

theorem endsOperand_sign (op : BinaryOp) : op.sign.endsOperand = false := by cases op <;> rfl

theorem sign_injective {op op' : BinaryOp} (h : op.sign = op'.sign) : op = op' := by
  cases op <;> cases op' <;> first | rfl | exact absurd h (by decide)

theorem level_lt_atom (op : BinaryOp) : op.level < atomLevel := by cases op <;> decide

theorem level_ne (op : BinaryOp) (u : UnaryOp) : op.level ≠ u.level := by
  cases op <;> cases u <;> decide

end BinaryOp

namespace UnaryOp

theorem slope_sign (op : UnaryOp) : op.sign.slope = 0 := by cases op <;> rfl

theorem endsOperand_sign (op : UnaryOp) : op.sign.endsOperand = false := by cases op <;> rfl

theorem sign_injective {op op' : UnaryOp} (h : op.sign = op'.sign) : op = op' := by
  cases op <;> cases op' <;> first | rfl | exact absurd h (by decide)

end UnaryOp

namespace OpTree.Reading

open Token

theorem balanced {n : Nat} {ts : List Token} {t : OpTree} (h : Reading n ts t) : Balanced ts := by
  induction h with
  | @leaf l => exact balanced_singleton l.slope_token
  | group _ ih => exact ih.enclosed
  | @unary op _ _ _ _ _ ih => exact (balanced_singleton op.slope_sign).append ih
  | @binary op _ _ _ _ _ _ _ _ _ _ ihl ihr =>
    exact ihl.append ((balanced_singleton op.slope_sign).append ihr)

theorem whole {n : Nat} {ts : List Token} {t : OpTree} (h : Reading n ts t) : Whole ts := by
  refine ⟨h.balanced.net_eq, ?_⟩
  induction h with
  | @leaf l hl => exact ⟨l.token, rfl, l.endsOperand_token hl⟩
  | group => exact ⟨Mark.closeParen.token, by rw [← List.cons_append, List.getLast?_concat], rfl⟩
  | unary _ _ ih =>
    obtain ⟨x, hx, hends⟩ := ih
    exact ⟨x, by rw [List.getLast?_cons, hx, Option.getD_some], hends⟩
  | binary _ _ _ _ _ ih =>
    obtain ⟨x, hx, hends⟩ := ih
    refine ⟨x, ?_, hends⟩
    rw [List.getLast?_append, List.getLast?_cons, hx, Option.getD_some, Option.some_or]

/-- An operator behind an operand binds at least as tightly as what is read, unless it stands in
parentheses. -/
theorem level_le {n : Nat} {ts ps qs : List Token} {t : OpTree} {op : BinaryOp}
    (h : Reading n ts t) (hts : ts = ps ++ op.sign :: qs) (hps : Whole ps) : n ≤ op.level := by
  induction h generalizing ps qs with
  | leaf =>
    obtain ⟨x, ps, rfl⟩ := List.exists_cons_of_ne_nil hps.ne_nil
    simp at hts
  | group h => exact absurd hps.net_eq (h.balanced.net_ne_zero hts hps.ne_nil)
  | @unary u n us t hn h ih =>
    obtain ⟨x, ps, rfl⟩ := List.exists_cons_of_ne_nil hps.ne_nil
    obtain ⟨rfl, hus⟩ := List.cons.inj hts
    have hcut : Whole ([] ++ u.sign :: ps) := hps
    have hle := ih hus (hcut.behind rfl u.slope_sign u.endsOperand_sign)
    omega
  | @binary op' m n us vs l r hm hn hl hr ihl ihr =>
    rcases split_cases hts with ⟨ms, rfl, hvs⟩ | ⟨rfl, heq, -⟩ | ⟨ms, hus, -⟩
    · have hms := hps.behind hl.balanced.net_eq op'.slope_sign op'.endsOperand_sign
      have hle := ihr hvs hms
      omega
    · exact Nat.le_of_eq (congrArg BinaryOp.level (BinaryOp.sign_injective heq))
    · have hle := ihl hus hps
      omega

/-- What starts with an operator binds at most as tightly as this. -/
theorem level_le_of_sign {n : Nat} {ts us : List Token} {t : OpTree} {op : UnaryOp}
    (h : Reading n ts t) (hts : ts = op.sign :: us) : n ≤ op.level := by
  induction h generalizing us with
  | @leaf l hl =>
    obtain ⟨heq, -⟩ := List.cons.inj hts
    have hends := l.endsOperand_token hl
    rw [heq, op.endsOperand_sign] at hends
    exact absurd hends (by decide)
  | group =>
    obtain ⟨heq, -⟩ := List.cons.inj hts
    exact absurd heq (by cases op <;> decide)
  | unary =>
    obtain ⟨heq, -⟩ := List.cons.inj hts
    exact Nat.le_of_eq (congrArg UnaryOp.level (UnaryOp.sign_injective heq))
  | binary hm hn hl hr ihl ihr =>
    obtain ⟨x, ps, rfl⟩ := List.exists_cons_of_ne_nil hl.whole.ne_nil
    obtain ⟨rfl, -⟩ := List.cons.inj hts
    have hle := ihl rfl
    omega

/-- Where a reading has its last operator, no other one can have it to the right. -/
theorem not_last_left {m n : Nat} {ts ms us : List Token} {l r : OpTree} {op op' : BinaryOp}
    (hn : op.level < n) (hts : Whole ts) (hr : Reading n (ms ++ op'.sign :: us) r)
    (hm : op'.level ≤ m) (hl : Reading m (ts ++ op.sign :: ms) l) : False := by
  have hms := hl.whole.behind hts.net_eq op.slope_sign op.endsOperand_sign
  have hle := hr.level_le rfl hms
  have hle' := hl.level_le rfl hts
  omega

/-- No tokens have an operator before all of them in one reading, and one between two operands in
another: each would bind at least as tightly as the other. -/
theorem not_first {m n : Nat} {ts ps qs : List Token} {l t : OpTree} {op : BinaryOp} {u : UnaryOp}
    (hn : u.level ≤ n) (h : Reading n ts t) (hm : op.level ≤ m) (hl : Reading m ps l)
    (heq : u.sign :: ts = ps ++ op.sign :: qs) : False := by
  have hle := (Reading.unary hn h).level_le heq hl.whole
  obtain ⟨x, ps, rfl⟩ := List.exists_cons_of_ne_nil hl.whole.ne_nil
  obtain ⟨rfl, -⟩ := List.cons.inj heq
  have hle' := hl.level_le_of_sign rfl
  have hne := op.level_ne u
  omega

/-- What is read in parentheses is read without them. -/
theorem of_group {n : Nat} {ts : List Token} {t : OpTree}
    (h : Reading n (Mark.openParen.token :: (ts ++ [Mark.closeParen.token])) t)
    (hb : Balanced ts) : n = atomLevel ∧ ∃ m, Reading m ts t := by
  generalize hus : Mark.openParen.token :: (ts ++ [Mark.closeParen.token]) = us at h
  cases h with
  | leaf => simp at hus
  | group h =>
    obtain ⟨rfl, -⟩ := List.append_inj' (List.cons.inj hus).2 rfl
    exact ⟨rfl, _, h⟩
  | @unary op => exact absurd (List.cons.inj hus).1 (by cases op <;> decide)
  | binary _ _ hl => exact absurd hl.whole.net_eq (hb.net_ne_zero hus hl.whole.ne_nil)

/-- Tokens are read as one tree at most. -/
theorem unique {n n' : Nat} {ts : List Token} {t t' : OpTree} (h : Reading n ts t)
    (h' : Reading n' ts t') : n = n' ∧ t = t' := by
  induction h generalizing n' t' with
  | @leaf l hl =>
    generalize hts : [l.token] = ts at h'
    cases h' with
    | leaf hl' =>
      obtain ⟨heq, -⟩ := List.cons.inj hts
      exact ⟨rfl, congrArg _ (Leaf.token_injective hl hl' heq)⟩
    | group => simp at hts
    | unary _ h => exact absurd (List.cons.inj hts).2.symm h.whole.ne_nil
    | binary _ _ hl hr =>
      obtain ⟨x, ps, rfl⟩ := List.exists_cons_of_ne_nil hl.whole.ne_nil
      simp at hts
  | group h ih =>
    obtain ⟨rfl, m, hm⟩ := h'.of_group h.balanced
    exact ⟨rfl, (ih hm).2⟩
  | @unary op n ts t hn h ih =>
    generalize hus : op.sign :: ts = us at h'
    cases h' with
    | leaf => exact absurd (List.cons.inj hus).2 h.whole.ne_nil
    | group => exact absurd (List.cons.inj hus).1 (by cases op <;> decide)
    | unary _ h' =>
      obtain ⟨heq, rfl⟩ := List.cons.inj hus
      obtain rfl := UnaryOp.sign_injective heq
      exact ⟨rfl, by rw [(ih h').2]⟩
    | binary hm _ hl hr => exact (not_first hn h hm hl hus).elim
  | @binary op m n ts us l r hm hn hl hr ihl ihr =>
    generalize hvs : ts ++ op.sign :: us = vs at h'
    cases h' with
    | leaf =>
      obtain ⟨x, ps, rfl⟩ := List.exists_cons_of_ne_nil hl.whole.ne_nil
      simp at hvs
    | group h' =>
      exact absurd hl.whole.net_eq (h'.balanced.net_ne_zero hvs.symm hl.whole.ne_nil)
    | unary hn' h' => exact (not_first hn' h' hm hl hvs.symm).elim
    | @binary op' m' n' ts' us' l' r' hm' hn' hl' hr' =>
      rcases split_cases hvs with ⟨ms, rfl, rfl⟩ | ⟨rfl, heq, rfl⟩ | ⟨ms, rfl, rfl⟩
      · exact (not_last_left hn hl.whole hr hm' hl').elim
      · obtain rfl := BinaryOp.sign_injective heq
        obtain ⟨rfl, rfl⟩ := ihl hl'
        obtain ⟨-, rfl⟩ := ihr hr'
        exact ⟨rfl, rfl⟩
      · exact (not_last_left hn' hl'.whole hr' hm hl).elim

end OpTree.Reading

end Offside
