import Offside.Journal
import Offside.Proofs.Accepted
import Offside.Proofs.Determined.Expr
import Offside.Stmt.Equality

/-!
# The rendering determines the program

Two programs without comments that are rendered as the same text have the same normal form
(`Stmt.norm`). The text determines the parts, and the parts determine the items up to the normal
form of their expressions (`norm_eq_of_parts`). Items determine the block: what stands behind a
statement starts on a line that is indented less, or as much and then not with `else` (`FollowsAt`).
-/

namespace Offside

mutual

/-- The statement with its expressions in normal form. -/
def Stmt.norm : Stmt → Stmt
  | .expr e => .expr e.norm
  | .comment text => .comment text
  | .cond condition body otherwise => .cond condition.norm (normAll body) (normElse otherwise)

def normAll : List Stmt → List Stmt
  | [] => []
  | s :: ss => s.norm :: normAll ss

def normElse : Option (List Stmt) → Option (List Stmt)
  | none => none
  | some block => some (normAll block)

end

theorem normAll_eq_map (b : Block) : normAll b = b.map Stmt.norm := by
  induction b with
  | nil => rw [normAll, List.map_nil]
  | cons s ss ih => rw [normAll, ih, List.map_cons]

def Item.norm : Item → Item
  | head chained condition => head chained condition.norm
  | expr e => expr e.norm
  | i => i

/-! ## From parts to items -/

namespace Item

def Formed : Item → Prop
  | head _ condition => condition.Formed
  | expr e => e.Formed
  | _ => True

/-- The part that an item starts with, if it is no expression. -/
def opener : Item → Option Part
  | line _ => some .newline
  | blank => some .space
  | head true _ => some .elif
  | head false _ => some (.token Keyword.ifWord.token)
  | otherwise => some (.token Keyword.elseWord.token)
  | expr _ => none

/-- No operand starts with the part that another item starts with. -/
theorem enter_opener {i : Item} {p : Part} (h : i.opener = some p) : Spot.enter p = none := by
  match i, h with
  | line _, rfl => rfl
  | blank, rfl => rfl
  | head true _, rfl => rfl
  | head false _, rfl => rfl
  | otherwise, rfl => rfl

theorem exists_parts {i : Item} (h : i.Formed) : ∃ p ps, i.parts = p :: ps ∧
    (i.opener = some p ∨ i.opener = none ∧ ∃ s, Spot.enter p = some s) := by
  match i, h with
  | line _, _ => exact ⟨_, _, rfl, Or.inl rfl⟩
  | blank, _ => exact ⟨_, _, rfl, Or.inl rfl⟩
  | head true _, _ => exact ⟨_, _, rfl, Or.inl rfl⟩
  | head false _, _ => exact ⟨_, _, rfl, Or.inl rfl⟩
  | otherwise, _ => exact ⟨_, _, rfl, Or.inl rfl⟩
  | expr e, he =>
    have hreads := he.isOperand.statement.accepts [] rfl
    obtain ⟨p, ps, s, hps, hstep, -⟩ := Spot.exists_cons hreads rfl
    rw [List.append_nil] at hps
    exact ⟨p, ps, hps, Or.inr ⟨rfl, s, hstep⟩⟩

/-- The first part says of what sort an item is. -/
theorem opener_eq {i j : Item} (hi : i.Formed) (hj : j.Formed) {ps qs : List Part}
    (h : i.parts ++ ps = j.parts ++ qs) : i.opener = j.opener := by
  obtain ⟨p, is, hp, hpo⟩ := exists_parts hi
  obtain ⟨q, js, hq, hqo⟩ := exists_parts hj
  rw [hp, hq] at h
  obtain rfl : p = q := (List.cons.inj h).1
  rcases hpo with hpo | ⟨hpo, s, hs⟩ <;> rcases hqo with hqo | ⟨hqo, s', hs'⟩
  · rw [hpo, hqo]
  · rw [enter_opener hpo] at hs'
    exact nomatch hs'
  · rw [enter_opener hqo] at hs
    exact nomatch hs
  · rw [hpo, hqo]

end Item

/-- No items, or a new line. -/
def EndsLine (is : List Item) : Prop := ∀ i ∈ is.head?, ∃ level, i = .line level

/-- The item can stand before the others. -/
def Item.Before : Item → List Item → Prop
  | expr _, is => EndsLine is
  | line _, is => is.head? ≠ some .blank
  | _, _ => True

/-- Well-formed items that are put together as they can be. -/
def Tidy : List Item → Prop
  | [] => True
  | i :: is => i.Formed ∧ i.Before is ∧ Tidy is

theorem replicate_append_inj {α : Type} {a : α} {xs ys : List α} (hx : xs.head? ≠ some a)
    (hy : ys.head? ≠ some a) : ∀ {m n : Nat}, List.replicate m a ++ xs = List.replicate n a ++ ys →
      m = n ∧ xs = ys
  | 0, 0, h => ⟨rfl, h⟩
  | 0, n + 1, h => absurd (by rw [show xs = _ from h]; rfl) hx
  | m + 1, 0, h => absurd (by rw [show ys = _ from h.symm]; rfl) hy
  | m + 1, n + 1, h => by
    obtain ⟨rfl, hrest⟩ := replicate_append_inj hx hy (List.cons.inj h).2
    exact ⟨rfl, hrest⟩

theorem Tidy.head_ne_space {is : List Item} (h : Tidy is) (hb : is.head? ≠ some .blank) :
    (partsOf is).head? ≠ some .space := by
  cases is with
  | nil => exact nofun
  | cons i is =>
    obtain ⟨p, ps, hp, ho⟩ := Item.exists_parts h.1
    rw [partsOf_cons, hp]
    intro hspace
    obtain rfl : p = .space := Option.some.inj hspace
    rcases ho with ho | ⟨-, s, hs⟩
    · match i, ho with
      | .blank, _ => exact hb rfl
      | .head true _, ho => exact nomatch ho
      | .head false _, ho => exact nomatch ho
    · exact nomatch hs

theorem EndsLine.stopsExpr {is : List Item} (h : EndsLine is) : StopsExpr (partsOf is) := by
  cases is with
  | nil => exact nofun
  | cons i is =>
    obtain ⟨level, rfl⟩ := h i rfl
    exact stopsExpr_cons rfl _

theorem Item.head_eq_of_parts {chained : Bool} {c d : Expr} (hc : c.Formed) (hd : d.Formed)
    {is js : List Item}
    (h : (Item.head chained c).parts ++ partsOf is = (Item.head chained d).parts ++ partsOf js) :
    (Item.head chained c).norm = (Item.head chained d).norm ∧ partsOf is = partsOf js := by
  have hparts : c.parts .operand ++ .mark .colon :: partsOf is =
      d.parts .operand ++ .mark .colon :: partsOf js := by
    simpa [Item.parts] using h
  obtain ⟨hnorm, hrest⟩ :=
    hc.eq_of_parts hd .operand (stopsExpr_cons rfl _) (stopsExpr_cons rfl _) hparts
  exact ⟨congrArg (Item.head chained) hnorm, (List.cons.inj hrest).2⟩

/-- The first item is determined up to the normal form, and so is where the next one starts. -/
theorem Item.eq_of_parts {i j : Item} {is js : List Item}
    (hi : Tidy (i :: is)) (hj : Tidy (j :: js))
    (h : i.parts ++ partsOf is = j.parts ++ partsOf js) :
    i.norm = j.norm ∧ partsOf is = partsOf js := by
  obtain ⟨hif, hib, his⟩ := hi
  obtain ⟨hjf, hjb, hjs⟩ := hj
  have hopener := Item.opener_eq hif hjf h
  match i, j, hopener with
  | .line l, .line k, _ =>
    obtain ⟨hlevel, hrest⟩ := replicate_append_inj (his.head_ne_space hib) (hjs.head_ne_space hjb)
      (List.cons.inj h).2
    obtain rfl : l = k := by omega
    exact ⟨rfl, hrest⟩
  | .blank, .blank, _ => exact ⟨rfl, (List.cons.inj h).2⟩
  | .otherwise, .otherwise, _ => exact ⟨rfl, (List.cons.inj (List.cons.inj h).2).2⟩
  | .expr e, .expr f, _ =>
    obtain ⟨hnorm, hrest⟩ :=
      Expr.Formed.eq_of_parts hif hjf .statement hib.stopsExpr hjb.stopsExpr h
    exact ⟨congrArg Item.expr hnorm, hrest⟩
  | .head true c, .head true d, _ => exact Item.head_eq_of_parts hif hjf h
  | .head false c, .head false d, _ => exact Item.head_eq_of_parts hif hjf h

theorem Tidy.norm_eq_of_parts {is js : List Item} (hi : Tidy is) (hj : Tidy js)
    (h : partsOf is = partsOf js) : is.map Item.norm = js.map Item.norm := by
  have hne : ∀ {i : Item} {is : List Item}, Tidy (i :: is) → partsOf (i :: is) ≠ [] := by
    intro i is h
    obtain ⟨p, ps, hp, -⟩ := Item.exists_parts h.1
    rw [partsOf_cons, hp]
    exact nofun
  induction is generalizing js with
  | nil =>
    cases js with
    | nil => rfl
    | cons j js => exact absurd h.symm (hne hj)
  | cons i is ih =>
    cases js with
    | nil => exact absurd h (hne hi)
    | cons j js =>
      rw [partsOf_cons, partsOf_cons] at h
      obtain ⟨hnorm, hrest⟩ := Item.eq_of_parts hi hj h
      rw [List.map_cons, List.map_cons, hnorm, ih hi.2.2 hj.2.2 hrest]

/-! ## Rendered items are tidy -/

theorem endsLine_nil : EndsLine [] := nofun

theorem endsLine_line (level : Nat) (is : List Item) : EndsLine (.line level :: is) := by
  intro i hi
  exact ⟨level, (Option.some.inj hi).symm⟩

theorem EndsLine.head_ne_blank {is : List Item} (h : EndsLine is) : is.head? ≠ some .blank := by
  intro hb
  obtain ⟨level, hlevel⟩ := h .blank hb
  exact nomatch hlevel

/-- The items start a statement, and keep what stands behind them tidy. -/
structure Stands (is : List Item) : Prop where
  head : ∀ rs, (is ++ rs).head? ≠ some .blank
  tidy : ∀ rs, EndsLine rs → Tidy rs → Tidy (is ++ rs)

theorem tidy_stackItems (level : Nat) {iss : List (List Item)} (h : ∀ is ∈ iss, Stands is)
    {rs : List Item} (he : EndsLine rs) (hr : Tidy rs) :
    EndsLine (stackItems level iss ++ rs) ∧ Tidy (stackItems level iss ++ rs) := by
  induction iss with
  | nil => exact ⟨he, hr⟩
  | cons is iss ih =>
    obtain ⟨htail, hrest⟩ := ih fun js hjs => h js (List.mem_cons_of_mem is hjs)
    have hs := h is (by simp)
    rw [stackItems, List.flatMap_cons, List.append_assoc, ← stackItems]
    exact ⟨endsLine_line level _, trivial, hs.head _, hs.tidy _ htail hrest⟩

theorem tidy_hangItems (level : Nat) {iss : List (List Item)} (h : ∀ is ∈ iss, Stands is)
    {rs : List Item} (he : EndsLine rs) (hr : Tidy rs) : Tidy (hangItems level iss ++ rs) := by
  match iss with
  | [] => exact ⟨trivial, he.head_ne_blank, hr⟩
  | [is] => exact ⟨trivial, trivial, (h is (by simp)).tidy rs he hr⟩
  | is :: is' :: iss => exact (tidy_stackItems level h he hr).2

theorem stands_cond {c : Expr} {body : Block} {other : Option Block} (hc : c.Formed)
    (hb : ∀ s ∈ body, ∀ level chained, Stands (s.items level chained))
    (ho : ∀ level rs, EndsLine rs → Tidy rs →
      EndsLine (itemsElse level other ++ rs) ∧ Tidy (itemsElse level other ++ rs))
    (level : Nat) (chained : Bool) : Stands ((Stmt.cond c body other).items level chained) := by
  rw [Stmt.items]
  refine ⟨by simp, fun rs he hr => ?_⟩
  obtain ⟨helse, hrest⟩ := ho level rs he hr
  have hbody := tidy_hangItems (level + 1) (forall_itemsAll fun s hs => hb s hs (level + 1) false)
    helse hrest
  rw [← List.append_assoc] at hbody
  exact ⟨hc, trivial, hbody⟩

theorem Stmt.Silent.stands {s : Stmt} (h : s.Silent) :
    ∀ level chained, Stands (s.items level chained) := by
  induction h with
  | expr he => exact fun level chained => ⟨nofun, fun rs hends hr => ⟨he, hends, hr⟩⟩
  | cond hc hb ih => exact stands_cond hc ih fun level rs he hr => ⟨he, hr⟩
  | @condElse c body other hc hb ho ihb iho =>
    refine stands_cond hc ihb fun level rs he hr => ?_
    rcases itemsElse_cases level other with ⟨s, rfl, -, heq⟩ | ⟨-, heq⟩
    · have hs := iho s (by simp) level true
      rw [heq]
      exact ⟨endsLine_line level _, trivial, hs.head rs, hs.tidy rs he hr⟩
    · rw [heq]
      refine ⟨endsLine_line level _, trivial, nofun, trivial, trivial, ?_⟩
      exact tidy_hangItems (level + 1) (forall_itemsAll fun s hs => iho s hs (level + 1) false)
        he hr

theorem Block.tidy_items {b : Block} (h : ∀ s ∈ b, s.Silent) : Tidy b.items := by
  have hstands := forall_itemsAll fun s hs => (h s hs).stands 0 false
  have hstack := tidy_stackItems 0 hstands endsLine_nil trivial
  rw [List.append_nil] at hstack
  cases b with
  | nil => trivial
  | cons s ss => exact hstack.2.2.2

/-! ## From items to blocks -/

/-- The word `else` is in the item. -/
def Item.isElse : Item → Bool
  | head true _ | otherwise => true
  | _ => false

/-- What stands behind a block at the level: a line that is indented less, if anything. -/
def Below (level : Nat) (is : List Item) : Prop :=
  ∀ i ∈ is.head?, ∃ k, i = .line k ∧ k < level

/-- What stands behind a statement at the level: a line that is indented less, or as much but
without an `else` that could belong to the statement. -/
def FollowsAt (level : Nat) (is : List Item) : Prop :=
  Below level is ∨ ∃ rs, is = .line level :: rs ∧ ∀ i ∈ rs.head?, i.isElse = false

theorem below_nil (level : Nat) : Below level [] := nofun

theorem FollowsAt.below {level : Nat} {is : List Item} (h : FollowsAt level is) :
    Below (level + 1) is := by
  rcases h with h | ⟨rs, rfl, -⟩
  · intro i hi
    obtain ⟨k, hk, hlt⟩ := h i hi
    exact ⟨k, hk, Nat.lt_succ_of_lt hlt⟩
  · intro i hi
    exact ⟨level, (Option.some.inj hi).symm, Nat.lt_succ_self level⟩

/-- The statement is determined by its items, and so is where they end. -/
def Stmt.Determined (s : Stmt) : Prop :=
  ∀ s' : Stmt, s'.Silent → ∀ (level : Nat) (chained : Bool) (rs us : List Item),
    FollowsAt level rs → FollowsAt level us →
      (s.items level chained).map Item.norm ++ rs = (s'.items level chained).map Item.norm ++ us →
        s.norm = s'.norm ∧ rs = us

theorem map_stackItems_cons (level : Nat) (s : Stmt) (ss : Block) (rs : List Item) :
    (stackItems level (itemsAll level (s :: ss))).map Item.norm ++ rs = .line level ::
      ((s.items level false).map Item.norm ++
        ((stackItems level (itemsAll level ss)).map Item.norm ++ rs)) := by
  simp [itemsAll, stackItems, Item.norm]

theorem followsAt_stackItems {level : Nat} {b : Block} (h : ∀ s ∈ b, s.Silent) {rs : List Item}
    (hr : Below level rs) :
    FollowsAt level ((stackItems level (itemsAll level b)).map Item.norm ++ rs) := by
  cases b with
  | nil => exact Or.inl hr
  | cons s ss =>
    refine Or.inr ⟨_, map_stackItems_cons level s ss rs, ?_⟩
    cases h s (by simp) with
    | expr | cond | condElse =>
      intro i hi
      obtain rfl := Option.some.inj hi
      rfl

/-- A line as far in as the block cannot stand behind it. -/
theorem not_below_line {level : Nat} {is : List Item} : ¬ Below level (.line level :: is) := by
  intro h
  obtain ⟨k, hk, hlt⟩ := h _ rfl
  obtain rfl := Item.line.inj hk
  exact absurd hlt (Nat.lt_irrefl level)

theorem determined_stackItems {b : Block} (hd : ∀ s ∈ b, s.Determined) (hs : ∀ s ∈ b, s.Silent)
    {level : Nat} {b' : Block} (hs' : ∀ s ∈ b', s.Silent) {rs us : List Item} (hr : Below level rs)
    (hu : Below level us) (h : (stackItems level (itemsAll level b)).map Item.norm ++ rs =
      (stackItems level (itemsAll level b')).map Item.norm ++ us) :
    b.map Stmt.norm = b'.map Stmt.norm ∧ rs = us := by
  induction b generalizing b' with
  | nil =>
    cases b' with
    | nil => exact ⟨rfl, h⟩
    | cons s' ss' =>
      rw [map_stackItems_cons] at h
      change rs = _ at h
      rw [h] at hr
      exact absurd hr not_below_line
  | cons s ss ih =>
    cases b' with
    | nil =>
      rw [map_stackItems_cons] at h
      change _ = us at h
      rw [← h] at hu
      exact absurd hu not_below_line
    | cons s' ss' =>
      rw [map_stackItems_cons, map_stackItems_cons] at h
      have hss : ∀ t ∈ ss, t.Silent := fun t ht => hs t (List.mem_cons_of_mem s ht)
      have hss' : ∀ t ∈ ss', t.Silent := fun t ht => hs' t (List.mem_cons_of_mem s' ht)
      obtain ⟨hnorm, hrest⟩ := hd s (by simp) s' (hs' s' (by simp)) level false _ _
        (followsAt_stackItems hss hr) (followsAt_stackItems hss' hu) (List.cons.inj h).2
      obtain ⟨hmap, heq⟩ := ih (fun t ht => hd t (List.mem_cons_of_mem s ht)) hss hss' hrest
      rw [List.map_cons, List.map_cons, hnorm, hmap]
      exact ⟨rfl, heq⟩

/-- The block behind a colon is determined. Where it is one statement no line starts, and where it
is empty the line is not indented. -/
theorem determined_hangItems {b : Block} (hd : ∀ s ∈ b, s.Determined) (hs : ∀ s ∈ b, s.Silent)
    {level : Nat} {b' : Block} (hs' : ∀ s ∈ b', s.Silent) {rs us : List Item}
    (hr : Below (level + 1) rs) (hu : Below (level + 1) us)
    (h : (hangItems (level + 1) (itemsAll (level + 1) b)).map Item.norm ++ rs =
      (hangItems (level + 1) (itemsAll (level + 1) b')).map Item.norm ++ us) :
    b.map Stmt.norm = b'.map Stmt.norm ∧ rs = us := by
  match b, b' with
  | [], [] => exact ⟨rfl, (List.cons.inj h).2⟩
  | [s], [s'] =>
    obtain ⟨hnorm, hrest⟩ := hd s (by simp) s' (hs' s' (by simp)) (level + 1) false rs us
      (Or.inl hr) (Or.inl hu) (List.cons.inj h).2
    exact ⟨congrArg (fun t => [t]) hnorm, hrest⟩
  | s :: t :: ss, s' :: t' :: ss' => exact determined_stackItems hd hs hs' hr hu h
  | [], [s'] => exact nomatch (List.cons.inj h).1
  | [s], [] => exact nomatch (List.cons.inj h).1
  | [], s' :: t' :: ss' => exact nomatch Item.line.inj (List.cons.inj h).1
  | s :: t :: ss, [] => exact nomatch Item.line.inj (List.cons.inj h).1
  | [s], s' :: t' :: ss' => exact nomatch (List.cons.inj h).1
  | s :: t :: ss, [s'] => exact nomatch (List.cons.inj h).1

/-- Behind a new line, the items of an `else` start with one that has the word in it. -/
theorem exists_itemsElse (level : Nat) (b : Block) : ∃ i is,
    (itemsElse level (some b)).map Item.norm = .line level :: i :: is ∧ i.isElse = true := by
  rcases itemsElse_cases level b with ⟨s, -, hs, heq⟩ | ⟨-, heq⟩
  · rw [heq]
    cases s with
    | cond c body other => exact ⟨_, _, rfl, rfl⟩
    | expr | comment => exact nomatch hs
  · rw [heq]
    exact ⟨_, _, rfl, rfl⟩

theorem not_followsAt_else {level : Nat} {b : Block} {us : List Item} :
    ¬ FollowsAt level ((itemsElse level (some b)).map Item.norm ++ us) := by
  obtain ⟨i, is, heq, hi⟩ := exists_itemsElse level b
  rw [heq]
  rintro (h | ⟨rs, hrs, hhead⟩)
  · exact not_below_line h
  · obtain rfl : i :: (is ++ us) = rs := (List.cons.inj hrs).2
    rw [hhead i rfl] at hi
    exact nomatch hi

theorem determined_some {b b' : Block} (hd : ∀ s ∈ b, s.Determined) (hs : ∀ s ∈ b, s.Silent)
    (hs' : ∀ s ∈ b', s.Silent) {level : Nat} {rs us : List Item} (hr : FollowsAt level rs)
    (hu : FollowsAt level us) (h : (itemsElse level (some b)).map Item.norm ++ rs =
      (itemsElse level (some b')).map Item.norm ++ us) :
    b.map Stmt.norm = b'.map Stmt.norm ∧ rs = us := by
  have hmixed : ∀ {s : Stmt} {is ps qs : List Item}, s.isCond = true →
      (s.items level true).map Item.norm ++ ps ≠ .otherwise :: is ++ qs := by
    intro s is ps qs hcond heq
    cases s with
    | cond c body other => exact nomatch (List.cons.inj heq).1
    | expr | comment => exact nomatch hcond
  rcases itemsElse_cases level b with ⟨s, rfl, hcond, heq⟩ | ⟨-, heq⟩ <;>
    rcases itemsElse_cases level b' with ⟨s', rfl, hcond', heq'⟩ | ⟨-, heq'⟩ <;>
      rw [heq, heq'] at h <;> replace h := (List.cons.inj h).2
  · obtain ⟨hnorm, hrest⟩ := hd s (by simp) s' (hs' s' (by simp)) level true rs us hr hu h
    exact ⟨congrArg (fun t => [t]) hnorm, hrest⟩
  · exact absurd h (hmixed hcond)
  · exact absurd h.symm (hmixed hcond')
  · exact determined_hangItems hd hs hs' hr.below hu.below (List.cons.inj h).2

/-- What follows the body of a conditional is determined. -/
theorem determined_else {other other' : Option Block}
    (hd : ∀ b, other = some b → ∀ s ∈ b, s.Determined)
    (hs : ∀ b, other = some b → ∀ s ∈ b, s.Silent)
    (hs' : ∀ b, other' = some b → ∀ s ∈ b, s.Silent) {level : Nat} {rs us : List Item}
    (hr : FollowsAt level rs) (hu : FollowsAt level us)
    (h : (itemsElse level other).map Item.norm ++ rs =
      (itemsElse level other').map Item.norm ++ us) :
    normElse other = normElse other' ∧ rs = us := by
  match other, other' with
  | none, none => exact ⟨rfl, h⟩
  | none, some b' =>
    change rs = _ at h
    rw [h] at hr
    exact absurd hr not_followsAt_else
  | some b, none =>
    change _ = us at h
    rw [← h] at hu
    exact absurd hu not_followsAt_else
  | some b, some b' =>
    obtain ⟨hnorm, hrest⟩ := determined_some (hd b rfl) (hs b rfl) (hs' b' rfl) hr hu h
    rw [normElse, normElse, normAll_eq_map, normAll_eq_map, hnorm]
    exact ⟨rfl, hrest⟩

/-- Behind the body of a conditional stands its `else`, or what follows the conditional. -/
theorem below_else {level : Nat} (other : Option Block) {rs : List Item} (hr : FollowsAt level rs) :
    Below (level + 1) ((itemsElse level other).map Item.norm ++ rs) := by
  cases other with
  | none => exact hr.below
  | some b =>
    obtain ⟨i, is, heq, -⟩ := exists_itemsElse level b
    rw [heq]
    intro j hj
    exact ⟨level, (Option.some.inj hj).symm, Nat.lt_succ_self level⟩

theorem map_items_cond (c : Expr) (body : Block) (other : Option Block) (level : Nat)
    (chained : Bool) (rs : List Item) :
    ((Stmt.cond c body other).items level chained).map Item.norm ++ rs =
      .head chained c.norm :: ((hangItems (level + 1) (itemsAll (level + 1) body)).map Item.norm ++
        ((itemsElse level other).map Item.norm ++ rs)) := by
  simp [Stmt.items, Item.norm]

theorem determined_cond {c : Expr} {body : Block} {other : Option Block}
    (hb : ∀ s ∈ body, s.Determined) (hbs : ∀ s ∈ body, s.Silent)
    (ho : ∀ b, other = some b → ∀ s ∈ b, s.Determined)
    (hos : ∀ b, other = some b → ∀ s ∈ b, s.Silent) : (Stmt.cond c body other).Determined := by
  intro s' hs' level chained rs us hr hu h
  -- Every other conditional, with or without `else`.
  have hcond : ∀ {c' : Expr} {body' : Block} {other' : Option Block}, s' = .cond c' body' other' →
      (∀ s ∈ body', s.Silent) → (∀ b, other' = some b → ∀ s ∈ b, s.Silent) →
        (Stmt.cond c body other).norm = s'.norm ∧ rs = us := by
    rintro c' body' other' rfl hbs' hos'
    rw [map_items_cond, map_items_cond] at h
    obtain ⟨hhead, htail⟩ := List.cons.inj h
    obtain ⟨hbody, helse⟩ :=
      determined_hangItems hb hbs hbs' (below_else other hr) (below_else other' hu)
      htail
    obtain ⟨hother, hrest⟩ := determined_else ho hos hos' hr hu helse
    rw [Stmt.norm, Stmt.norm, normAll_eq_map, normAll_eq_map, (Item.head.inj hhead).2, hbody,
      hother]
    exact ⟨rfl, hrest⟩
  cases hs' with
  | expr he => exact nomatch (List.cons.inj h).1
  | cond hc' hb' => exact hcond rfl hb' nofun
  | condElse hc' hb' ho' =>
    refine hcond rfl hb' fun b hsome => ?_
    obtain rfl := Option.some.inj hsome
    exact ho'

theorem Stmt.Silent.determined {s : Stmt} (h : s.Silent) : s.Determined := by
  induction h with
  | @expr e he =>
    intro s' hs' level chained rs us _ _ h
    cases hs' with
    | expr he' =>
      obtain ⟨hnorm, hrest⟩ := List.cons.inj h
      exact ⟨congrArg Stmt.expr (Item.expr.inj hnorm), hrest⟩
    | cond | condElse => exact nomatch (List.cons.inj h).1
  | cond hc hb ih => exact determined_cond ih hb nofun nofun
  | @condElse c body other hc hb ho ihb iho =>
    refine determined_cond ihb hb (fun b hsome => ?_) fun b hsome => ?_
    · obtain rfl := Option.some.inj hsome
      exact iho
    · obtain rfl := Option.some.inj hsome
      exact ho

theorem Block.norm_eq_of_items {b b' : Block} (h : ∀ s ∈ b, s.Silent) (h' : ∀ s ∈ b', s.Silent)
    (hitems : b.items.map Item.norm = b'.items.map Item.norm) :
    b.map Stmt.norm = b'.map Stmt.norm := by
  have hne : ∀ {s : Stmt} {ss : Block}, s.Silent → (Block.items (s :: ss)).map Item.norm ≠ [] := by
    intro s ss hs
    cases hs with
    | expr | cond | condElse => exact nofun
  match b, b' with
  | [], [] => rfl
  | [], s' :: ss' => exact absurd hitems.symm (hne (h' s' (by simp)))
  | s :: ss, [] => exact absurd hitems (hne (h s (by simp)))
  | s :: ss, s' :: ss' =>
    have hstack : (stackItems 0 (itemsAll 0 (s :: ss))).map Item.norm ++ [] =
        (stackItems 0 (itemsAll 0 (s' :: ss'))).map Item.norm ++ [] := by
      rw [List.append_nil, List.append_nil]
      exact congrArg (Item.line 0 :: ·) hitems
    exact (determined_stackItems (fun t ht => (h t ht).determined) h h' (below_nil 0) (below_nil 0)
      hstack).1

def Stmt.isComment : Stmt → Bool
  | .comment _ => true
  | _ => false

/-- Programs without comments that are rendered as the same text have the same normal form. -/
theorem norm_eq_of_convert {source source' : String} {b b' : Block}
    (h : Block.parse source = .ok b) (h' : Block.parse source' = .ok b')
    (hb : ∀ s ∈ b, s.every (fun t => !t.isComment) = true)
    (hb' : ∀ s ∈ b', s.every (fun t => !t.isComment) = true)
    (htext : convert source = convert source') : b.map Stmt.norm = b'.map Stmt.norm := by
  have hsilent : ∀ {source : String} {b : Block}, Block.parse source = .ok b →
      (∀ s ∈ b, s.every (fun t => !t.isComment) = true) → ∀ s ∈ b, s.Silent := by
    intro source b h hb s hs
    obtain ⟨ts, -, hl, p, hacc, rfl⟩ := Block.exists_phrase_of_parse h
    exact (p.formed_meaning (hacc.lexical hl) s hs).silent (fun _ => rfl) (hb s hs)
  have hrender : Block.renderProgram .standard b = Block.renderProgram .standard b' := by
    rw [convert, convert, h, h'] at htext
    exact Except.ok.inj htext
  have hs := hsilent h hb
  have hs' := hsilent h' hb'
  have hparts := Block.parts_eq_of_render hs hs' hrender
  exact Block.norm_eq_of_items hs hs'
    (Tidy.norm_eq_of_parts (Block.tidy_items hs) (Block.tidy_items hs') hparts)

/-- The texts `if(a)x=(y=T) else f.z` and `if(a){(x=(y=True))}else{(f).z}` are rendered alike. They
differ in a truth value, in the flag of an assignment and in that of the value of a member. -/
theorem norm_eq_of_convert_flags : ∃ b b' : Block,
    Block.parse "if(a)x=(y=T) else f.z" = .ok b ∧
      Block.parse "if(a)\x7b(x=(y=True))\x7delse\x7b(f).z\x7d" = .ok b' ∧ b ≠ b' ∧
      Block.renderProgram .standard b = "if a: x = (y := True)\nelse: (f).z" ∧
      b.map Stmt.norm = b'.map Stmt.norm := by
  have hscan : Token.scan "if(a)x=(y=T) else f.z" = .ok
      [⟨.keyword .ifWord, "if", some ⟨0, 0⟩⟩, ⟨.mark .openParen, "(", some ⟨0, 2⟩⟩,
        ⟨.name, "a", some ⟨0, 3⟩⟩, ⟨.mark .closeParen, ")", some ⟨0, 4⟩⟩,
        ⟨.name, "x", some ⟨0, 5⟩⟩, ⟨.mark .equal, "=", some ⟨0, 6⟩⟩,
        ⟨.mark .openParen, "(", some ⟨0, 7⟩⟩, ⟨.name, "y", some ⟨0, 8⟩⟩,
        ⟨.mark .equal, "=", some ⟨0, 9⟩⟩, ⟨.name, "T", some ⟨0, 10⟩⟩,
        ⟨.mark .closeParen, ")", some ⟨0, 11⟩⟩, ⟨.keyword .elseWord, "else", some ⟨0, 13⟩⟩,
        ⟨.name, "f", some ⟨0, 18⟩⟩, ⟨.mark .dot, ".", some ⟨0, 19⟩⟩,
        ⟨.name, "z", some ⟨0, 20⟩⟩] := rfl
  have hscan' : Token.scan "if(a)\x7b(x=(y=True))\x7delse\x7b(f).z\x7d" = .ok
      [⟨.keyword .ifWord, "if", some ⟨0, 0⟩⟩, ⟨.mark .openParen, "(", some ⟨0, 2⟩⟩,
        ⟨.name, "a", some ⟨0, 3⟩⟩, ⟨.mark .closeParen, ")", some ⟨0, 4⟩⟩,
        ⟨.mark .openBrace, "\x7b", some ⟨0, 5⟩⟩, ⟨.mark .openParen, "(", some ⟨0, 6⟩⟩,
        ⟨.name, "x", some ⟨0, 7⟩⟩, ⟨.mark .equal, "=", some ⟨0, 8⟩⟩,
        ⟨.mark .openParen, "(", some ⟨0, 9⟩⟩, ⟨.name, "y", some ⟨0, 10⟩⟩,
        ⟨.mark .equal, "=", some ⟨0, 11⟩⟩, ⟨.name, "True", some ⟨0, 12⟩⟩,
        ⟨.mark .closeParen, ")", some ⟨0, 16⟩⟩, ⟨.mark .closeParen, ")", some ⟨0, 17⟩⟩,
        ⟨.mark .closeBrace, "\x7d", some ⟨0, 18⟩⟩, ⟨.keyword .elseWord, "else", some ⟨0, 19⟩⟩,
        ⟨.mark .openBrace, "\x7b", some ⟨0, 23⟩⟩, ⟨.mark .openParen, "(", some ⟨0, 24⟩⟩,
        ⟨.name, "f", some ⟨0, 25⟩⟩, ⟨.mark .closeParen, ")", some ⟨0, 26⟩⟩,
        ⟨.mark .dot, ".", some ⟨0, 27⟩⟩, ⟨.name, "z", some ⟨0, 28⟩⟩,
        ⟨.mark .closeBrace, "\x7d", some ⟨0, 29⟩⟩] := rfl
  let grouped (e : Phrase .expression) : Phrase .primary := .group e
  let set (truth : String) : Phrase .expression := .assign ⟨"x", by decide⟩
    (.term (.ofPrimary (grouped (.assign ⟨"y", by decide⟩ (.ident truth)))))
  let field (value : Phrase .primary) : Phrase .statement :=
    .expr (.term (.member (.ofPrimary value) "z"))
  let p : Phrase .statements := .nextStatement (.condElse (.ident "a") (.single (.expr (set "T")))
    (.single (field (.word "f")))) .noStatements
  let p' : Phrase .statements := .nextStatement (.condElse (.ident "a")
    (.braces (.nextStatement (.expr (.term (.ofPrimary (grouped (set "True"))))) .noStatements))
    (.braces (.nextStatement (field (grouped (.ident "f"))) .noStatements))) .noStatements
  have hparse := Block.parse_of_phrase hscan (p := p)
    ⟨⟨⟨⟨Token.ends_cons.2 rfl, trivial⟩, Token.ends_cons.2 rfl, trivial⟩, trivial⟩,
      ⟨⟨trivial, rfl, trivial⟩, fun _ => Token.ends_nil _, trivial⟩, rfl, by decide⟩
  have hparse' := Block.parse_of_phrase hscan' (p := p')
    ⟨⟨⟨⟨trivial, trivial⟩, trivial, trivial⟩, trivial⟩,
      ⟨⟨⟨trivial, fun _ => Token.ends_nil _, trivial⟩, rfl, trivial, fun _ => Token.ends_nil _,
        trivial⟩, fun h => absurd h (by decide), trivial⟩, rfl, by decide⟩
  have htext : convert "if(a)x=(y=T) else f.z" =
      convert "if(a)\x7b(x=(y=True))\x7delse\x7b(f).z\x7d" := by
    rw [convert, convert, hparse, hparse']
    rfl
  refine ⟨p.meaning, p'.meaning, hparse, hparse', ?_, rfl, ?_⟩
  · decide
  · exact norm_eq_of_convert hparse hparse' (by decide) (by decide) htext

end Offside
