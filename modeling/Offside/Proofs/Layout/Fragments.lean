import Offside.Proofs.Layout.Remarks

/-!
# Comments in a rendered block

The text of a block is its comments, in their order, with fragments of text around them
(`weave`). The fragments are those of the block with all its comments erased, so a comment has no
say in anything else (`Block.render_weave`). Each comment stands behind `# `, and behind it there
are at most further comments until the line ends (`Trailing`).
-/

namespace Offside

/-- The comments with the fragments around them. -/
def weave : (fragments comments : List String) → String
  | f :: fs, c :: cs => f ++ c ++ weave fs cs
  | f :: _, [] => f
  | [], _ => ""

theorem weave_append (before f : String) (fs cs : List String) :
    weave ((before ++ f) :: fs) cs = before ++ weave (f :: fs) cs := by
  rcases cs with _ | ⟨c, cs⟩
  · rfl
  · simp only [weave, String.append_assoc]

/-! ## The fragments of lines -/

/-- The fragments of some text and of the comments at its end, where `after` are those of what
follows. -/
def remarkFragments (before : String) : (remarks after : List String) → List String
  | [], [] => [before]
  | [], f :: fs => (before ++ f) :: fs
  | _ :: rs, after => (before ++ " # ") :: remarkFragments "" rs after

namespace Line

/-- The fragments of a line with some text before it. -/
def fragments (before : String) (l : Line) (after : List String) : List String :=
  match l.opening with
  | .code text => remarkFragments (before ++ text) l.remarks after
  | .comment _ => (before ++ "# ") :: remarkFragments "" l.remarks after

end Line

/-- More text in front is more text in the first fragment. -/
theorem remarkFragments_append (front before : String) (rs after : List String) :
    ∃ f fs, remarkFragments before rs after = f :: fs ∧
      remarkFragments (front ++ before) rs after = (front ++ f) :: fs := by
  rcases rs with _ | ⟨r, rs⟩
  · rcases after with _ | ⟨g, gs⟩
    · exact ⟨_, _, rfl, rfl⟩
    · exact ⟨_, _, rfl, by rw [remarkFragments, String.append_assoc]⟩
  · exact ⟨_, _, rfl, by rw [remarkFragments, String.append_assoc]⟩

theorem Line.fragments_append (front before : String) (l : Line) (after : List String) :
    ∃ f fs, l.fragments before after = f :: fs ∧
      l.fragments (front ++ before) after = (front ++ f) :: fs := by
  unfold fragments
  split
  · rw [String.append_assoc]
    exact remarkFragments_append _ _ _ _
  · exact ⟨_, _, rfl, by rw [String.append_assoc]⟩

theorem weave_remarkFragments (before : String) (rs cs : List String) {after : List String}
    (h : after ≠ []) :
    weave (remarkFragments before rs after) (rs ++ cs) =
      before ++ String.join (rs.map (" # " ++ ·)) ++ weave after cs := by
  induction rs generalizing before with
  | nil =>
    obtain ⟨f, fs, rfl⟩ := List.exists_cons_of_ne_nil h
    rw [remarkFragments, List.nil_append, weave_append]
    simp
  | cons r rs ih =>
    rw [remarkFragments, List.cons_append, weave, ih]
    simp only [List.map_cons, String.join_cons, String.append_assoc, String.empty_append]

theorem Line.weave_fragments (before : String) (l : Line) (cs : List String) {after : List String}
    (h : after ≠ []) : weave (l.fragments before after) (l.comments ++ cs) =
      before ++ l.text ++ weave after cs := by
  unfold fragments
  split
  · rename_i text hcode
    rw [comments, Line.text, hcode, Opening.comments, Opening.text, List.nil_append,
      weave_remarkFragments _ _ _ h]
    simp only [String.append_assoc]
  · rename_i text hcomment
    rw [comments, Line.text, hcomment, Opening.comments, Opening.text, List.singleton_append,
      List.cons_append, weave, weave_remarkFragments _ _ _ h]
    simp only [String.append_assoc, String.empty_append]

section Fragments

variable (layout : Layout) (base : Nat)

/-- The fragments of lines with a line break before each. -/
def fragmentsBelow : List Line → List String
  | [] => [""]
  | l :: ls => l.fragments ("\n" ++ l.margin layout base) (fragmentsBelow ls)

/-- The fragments of lines. -/
def fragments : List Line → List String
  | [] => [""]
  | l :: ls => l.fragments (l.margin layout base) (fragmentsBelow layout base ls)

theorem fragmentsBelow_ne_nil (ls : List Line) : fragmentsBelow layout base ls ≠ [] := by
  rcases ls with _ | ⟨l, ls⟩
  · exact List.cons_ne_nil _ _
  · obtain ⟨f, fs, -, h⟩ :=
      l.fragments_append "\n" (l.margin layout base) (fragmentsBelow layout base ls)
    rw [fragmentsBelow, h]
    exact List.cons_ne_nil _ _

theorem weave_fragmentsBelow (ls : List Line) :
    weave (fragmentsBelow layout base ls) (ls.flatMap Line.comments) = below layout base ls := by
  induction ls with
  | nil => rfl
  | cons l ls ih =>
    rw [fragmentsBelow, List.flatMap_cons,
      l.weave_fragments _ _ (fragmentsBelow_ne_nil layout base ls), ih, below, below, List.map_cons,
      List.map_cons, String.join_cons, Line.written]
    simp only [String.append_assoc]

theorem weave_fragments (ls : List Line) :
    weave (fragments layout base ls) (ls.flatMap Line.comments) =
      joinLines (ls.map (Line.written layout base)) := by
  rcases ls with _ | ⟨l, ls⟩
  · rfl
  · rw [fragments, List.flatMap_cons,
      l.weave_fragments _ _ (fragmentsBelow_ne_nil layout base ls), weave_fragmentsBelow,
      List.map_cons, joinLines_cons, Line.written, below]

end Fragments

/-! ## Erased lines -/

theorem remarkFragments_map (g : String → String) (before : String) (rs after : List String) :
    remarkFragments before (rs.map g) after = remarkFragments before rs after := by
  induction rs generalizing before with
  | nil => rfl
  | cons r rs ih => rw [List.map_cons, remarkFragments, remarkFragments, ih]

theorem Line.fragments_erased (before : String) (l : Line) (after : List String) :
    l.erased.fragments before after = l.fragments before after := by
  unfold fragments
  rcases hl : l.opening with text | text
  · simp only [erased, hl, Opening.erased, remarkFragments_map]
  · simp only [erased, hl, Opening.erased, remarkFragments_map]

theorem fragmentsBelow_erased (layout : Layout) (base : Nat) (ls : List Line) :
    fragmentsBelow layout base (ls.map Line.erased) = fragmentsBelow layout base ls := by
  induction ls with
  | nil => rfl
  | cons l ls ih =>
    rw [List.map_cons, fragmentsBelow, fragmentsBelow, ih, Line.fragments_erased]
    rfl

theorem fragments_erased (layout : Layout) (base : Nat) (ls : List Line) :
    fragments layout base (ls.map Line.erased) = fragments layout base ls := by
  rcases ls with _ | ⟨l, ls⟩
  · rfl
  · rw [List.map_cons, fragments, fragments, fragmentsBelow_erased, Line.fragments_erased]
    rfl

/-! ## What follows a comment -/

/-- The fragments behind a comment: the line ends, or another comment follows on it. -/
inductive Trailing : (fragments : List String) → Prop where
  | finish : Trailing [""]
  | remark {fs : List String} (h : Trailing fs) : Trailing (" # " :: fs)
  | lastLine (f : String) : Trailing ["\n" ++ f]
  | line (f : String) {fs : List String} (h : Trailing fs) : Trailing (("\n" ++ f ++ "# ") :: fs)

namespace Trailing

variable {f : String} {fs : List String}

/-- What stands behind a comment can also stand at the end of a line below it. -/
theorem prepend (h : Trailing (f :: fs)) (before : String) :
    Trailing (("\n" ++ before ++ f) :: fs) := by
  cases h with
  | finish =>
    rw [String.append_empty]
    exact .lastLine before
  | remark h =>
    have hmark : "\n" ++ before ++ " # " = "\n" ++ (before ++ " ") ++ "# " := by
      simp only [String.append_assoc]
      rfl
    rw [hmark]
    exact .line _ h
  | lastLine f =>
    rw [String.append_assoc]
    exact .lastLine _
  | line f h =>
    have hline : "\n" ++ before ++ ("\n" ++ f ++ "# ") = "\n" ++ (before ++ "\n" ++ f) ++ "# " := by
      simp only [String.append_assoc]
    rw [hline]
    exact .line _ h

theorem of_remarkFragments {after : List String} (h : Trailing after) (rs : List String) :
    Trailing (remarkFragments "" rs after) := by
  induction rs with
  | nil =>
    rcases after with _ | ⟨g, gs⟩
    · exact .finish
    · rwa [remarkFragments, String.empty_append]
  | cons r rs ih =>
    rw [remarkFragments, String.empty_append]
    exact .remark ih

theorem of_line {after : List String} (h : Trailing after) (l : Line) (before : String) :
    Trailing (l.fragments ("\n" ++ before) after) := by
  unfold Line.fragments
  split
  · rename_i text _
    obtain ⟨f, fs, hf, htrail⟩ := remarkFragments_append ("\n" ++ before ++ text) "" l.remarks after
    have hbehind := h.of_remarkFragments l.remarks
    rw [hf] at hbehind
    rw [String.append_empty] at htrail
    rw [htrail]
    simpa only [String.append_assoc] using hbehind.prepend (before ++ text)
  · exact .line before (h.of_remarkFragments l.remarks)

theorem of_below (layout : Layout) (base : Nat) (ls : List Line) :
    Trailing (fragmentsBelow layout base ls) := by
  induction ls with
  | nil => exact .finish
  | cons l ls ih => exact of_line ih l _

theorem ne_nil (h : Trailing fs) : fs ≠ [] := by
  cases h <;> exact List.cons_ne_nil _ _

/-- All fragments but the last one end with the mark of a comment. -/
theorem mark (h : Trailing (f :: fs)) (hne : fs ≠ []) : (∃ t, f = t ++ "# ") ∧ Trailing fs := by
  cases h with
  | finish => exact absurd rfl hne
  | remark h => exact ⟨⟨" ", rfl⟩, h⟩
  | lastLine f => exact absurd rfl hne
  | line f h => exact ⟨⟨"\n" ++ f, rfl⟩, h⟩

theorem closes (h : Trailing fs) : ∀ k f, fs[k]? = some f →
    (∃ t, f = "\n" ++ t) ∨ f = if k + 1 = fs.length then "" else " # " := by
  induction h with
  | finish =>
    intro k f hf
    rcases k with _ | k
    · exact Or.inr (Option.some.inj hf).symm
    · exact absurd hf (by simp)
  | remark h ih =>
    intro k f hf
    rcases k with _ | k
    · obtain rfl := Option.some.inj hf
      have hlength := List.length_pos_of_ne_nil h.ne_nil
      rw [List.length_cons, if_neg (by omega)]
      exact Or.inr rfl
    · simpa using ih k f hf
  | lastLine g =>
    intro k f hf
    rcases k with _ | k
    · exact Or.inl ⟨g, (Option.some.inj hf).symm⟩
    · exact absurd hf (by simp)
  | line g h ih =>
    intro k f hf
    rcases k with _ | k
    · exact Or.inl ⟨g ++ "# ", by rw [← Option.some.inj hf, String.append_assoc]⟩
    · simpa using ih k f hf

/-- Behind a comment there are at most further comments until the line ends. -/
theorem weave_eq (h : Trailing fs) : ∀ cs : List String, fs.length = cs.length + 1 →
    ∃ more rest, weave fs cs = String.join (more.map (" # " ++ ·)) ++ rest ∧ more <+: cs ∧
      (rest = "" ∨ ∃ t, rest = "\n" ++ t) := by
  induction h with
  | finish =>
    intro cs hcs
    obtain rfl := List.length_eq_zero_iff.1 (Nat.succ.inj hcs).symm
    exact ⟨[], "", rfl, List.nil_prefix, Or.inl rfl⟩
  | remark h ih =>
    intro cs hcs
    rcases cs with _ | ⟨c, cs⟩
    · exact absurd (List.length_eq_zero_iff.1 (Nat.succ.inj hcs)) h.ne_nil
    · obtain ⟨more, rest, htext, hmore, hrest⟩ := ih cs (Nat.succ.inj hcs)
      refine ⟨c :: more, rest, ?_, List.cons_prefix_cons.2 ⟨rfl, hmore⟩, hrest⟩
      rw [weave, htext, List.map_cons, String.join_cons]
      simp only [String.append_assoc]
  | lastLine g =>
    intro cs hcs
    obtain rfl := List.length_eq_zero_iff.1 (Nat.succ.inj hcs).symm
    exact ⟨[], "\n" ++ g, by simp [weave], List.nil_prefix, Or.inr ⟨g, rfl⟩⟩
  | @line g fs h ih =>
    intro cs hcs
    rcases cs with _ | ⟨c, cs⟩
    · exact absurd (List.length_eq_zero_iff.1 (Nat.succ.inj hcs)) h.ne_nil
    · refine ⟨[], _, (String.empty_append).symm, List.nil_prefix,
        Or.inr ⟨g ++ "# " ++ c ++ weave fs cs, ?_⟩⟩
      rw [weave]
      simp only [String.append_assoc]

end Trailing

/-- The fragments of a text: the first one ends with the mark of a comment if there is a second, and
that is one behind a comment. -/
def Leading (fs : List String) : Prop :=
  ∃ f fs', fs = f :: fs' ∧ (fs' ≠ [] → (∃ t, f = t ++ "# ") ∧ Trailing fs')

theorem Trailing.leading {fs : List String} (h : Trailing fs) : Leading fs := by
  obtain ⟨f, fs, rfl⟩ := List.exists_cons_of_ne_nil h.ne_nil
  exact ⟨f, fs, rfl, h.mark⟩

theorem Trailing.leading_line {after : List String} (h : Trailing after) (l : Line)
    (before : String) : Leading (l.fragments before after) := by
  unfold Line.fragments
  split
  · rename_i text _
    obtain ⟨f, fs, hf, htrail⟩ := remarkFragments_append (before ++ text) "" l.remarks after
    have hbehind := h.of_remarkFragments l.remarks
    rw [hf] at hbehind
    rw [String.append_empty] at htrail
    refine ⟨_, fs, htrail, fun hne => ?_⟩
    obtain ⟨⟨t, rfl⟩, hfs⟩ := hbehind.mark hne
    exact ⟨⟨before ++ text ++ t, by simp only [String.append_assoc]⟩, hfs⟩
  · exact ⟨_, _, rfl, fun _ => ⟨⟨before, rfl⟩, h.of_remarkFragments l.remarks⟩⟩

theorem leading_fragments (layout : Layout) (base : Nat) (ls : List Line) :
    Leading (fragments layout base ls) := by
  rcases ls with _ | ⟨l, ls⟩
  · exact Trailing.finish.leading
  · exact (Trailing.of_below layout base ls).leading_line l _

/-- In the text the comment stands behind `# `, and only some of the later comments follow until the
line ends. -/
def ClosesLine (text comment : String) (later : List String) : Prop :=
  ∃ front more rest,
    text = front ++ "# " ++ comment ++ String.join (more.map (" # " ++ ·)) ++ rest ∧
      more <+: later ∧ (rest = "" ∨ ∃ t, rest = "\n" ++ t)

/-- Fragments around `n` comments. Each comment is marked as one, and behind it the line ends or
another comment follows. -/
structure Template (n : Nat) (fs : List String) : Prop where
  length : fs.length = n + 1
  marks : ∀ k f, k < n → fs[k]? = some f → ∃ t, f = t ++ "# "
  closes : ∀ k f, fs[k + 1]? = some f →
    (∃ t, f = "\n" ++ t) ∨ f = if k + 1 = n then "" else " # "

namespace Leading

variable {n : Nat} {fs : List String}

theorem marks (h : Leading fs) (hn : fs.length = n + 1) :
    ∀ k f, k < n → fs[k]? = some f → ∃ t, f = t ++ "# " := by
  intro k f hk hf
  induction k generalizing fs n with
  | zero =>
    obtain ⟨g, fs', rfl, hfs⟩ := h
    have hne : fs' ≠ [] := by
      rintro rfl
      simp at hn
      omega
    rw [← Option.some.inj hf]
    exact (hfs hne).1
  | succ k ih =>
    obtain ⟨g, fs', rfl, hfs⟩ := h
    rw [List.length_cons] at hn
    rw [List.getElem?_cons_succ] at hf
    have hne : fs' ≠ [] := List.ne_nil_of_mem (List.mem_of_getElem? hf)
    exact ih (n := n - 1) (hfs hne).2.leading (by omega) (by omega) hf

theorem template (h : Leading fs) (hn : fs.length = n + 1) : Template n fs where
  length := hn
  marks := h.marks hn
  closes := by
    obtain ⟨g, fs', rfl, hfs⟩ := h
    intro k f hf
    rw [List.getElem?_cons_succ] at hf
    have hne : fs' ≠ [] := List.ne_nil_of_mem (List.mem_of_getElem? hf)
    have hlength : fs'.length = n := Nat.succ.inj hn
    rw [← hlength]
    exact (hfs hne).2.closes k f hf

theorem closesLine (h : Leading fs) {cs : List String} (hcs : fs.length = cs.length + 1) :
    ∀ k c, cs[k]? = some c → ClosesLine (weave fs cs) c (cs.drop (k + 1)) := by
  intro k c hc
  induction k generalizing fs cs with
  | zero =>
    obtain ⟨g, fs, rfl, hfs⟩ := h
    rcases cs with _ | ⟨c', cs⟩
    · exact absurd hc (by simp)
    obtain rfl := Option.some.inj hc
    have hlength : fs.length = cs.length + 1 := Nat.succ.inj hcs
    obtain ⟨⟨t, rfl⟩, htrailing⟩ := hfs (List.ne_nil_of_length_eq_add_one hlength)
    obtain ⟨more, rest, htext, hmore, hrest⟩ := htrailing.weave_eq cs hlength
    refine ⟨t, more, rest, ?_, hmore, hrest⟩
    rw [weave, htext]
    simp only [String.append_assoc]
  | succ k ih =>
    obtain ⟨g, fs, rfl, hfs⟩ := h
    rcases cs with _ | ⟨c', cs⟩
    · exact absurd hc (by simp)
    rw [List.getElem?_cons_succ] at hc
    have hlength : fs.length = cs.length + 1 := Nat.succ.inj hcs
    have hleading := (hfs (List.ne_nil_of_length_eq_add_one hlength)).2.leading
    obtain ⟨front, more, rest, htext, hmore, hrest⟩ := ih hleading hlength hc
    refine ⟨g ++ c' ++ front, more, rest, ?_, hmore, hrest⟩
    rw [weave, htext]
    simp only [String.append_assoc]

end Leading

/-! ## Blocks -/

theorem length_remarkFragments (before : String) (rs : List String) {after : List String}
    (h : after ≠ []) :
    (remarkFragments before rs after).length = rs.length + after.length := by
  induction rs generalizing before with
  | nil =>
    obtain ⟨f, fs, rfl⟩ := List.exists_cons_of_ne_nil h
    simp [remarkFragments]
  | cons r rs ih =>
    rw [remarkFragments, List.length_cons, List.length_cons, ih]
    omega

theorem Line.length_fragments (before : String) (l : Line) {after : List String} (h : after ≠ []) :
    (l.fragments before after).length = l.comments.length + after.length := by
  unfold fragments
  split
  · rename_i hl
    rw [length_remarkFragments _ _ h, comments, hl, Opening.comments, List.nil_append]
  · rename_i hl
    rw [List.length_cons, length_remarkFragments _ _ h, comments, hl, Opening.comments,
      List.length_append, List.length_singleton]
    omega

theorem length_fragmentsBelow (layout : Layout) (base : Nat) (ls : List Line) :
    (fragmentsBelow layout base ls).length = (ls.flatMap Line.comments).length + 1 := by
  induction ls with
  | nil => rfl
  | cons l ls ih =>
    rw [fragmentsBelow, l.length_fragments _ (fragmentsBelow_ne_nil layout base ls), ih,
      List.flatMap_cons, List.length_append, Nat.add_assoc]

theorem length_fragments (layout : Layout) (base : Nat) (ls : List Line) :
    (fragments layout base ls).length = (ls.flatMap Line.comments).length + 1 := by
  rcases ls with _ | ⟨l, ls⟩
  · rfl
  · rw [fragments, l.length_fragments _ (fragmentsBelow_ne_nil layout base ls),
      length_fragmentsBelow, List.flatMap_cons, List.length_append, Nat.add_assoc]

theorem Block.render_fragments (layout : Layout) (level : Nat) (b : Block) :
    Block.render layout level b = weave (fragments layout level b.lines) b.comments := by
  rw [Block.render_lines, ← weave_fragments, Block.comments_lines]

/-- The text of a block is its comments with fragments between them that mark and close them. The
fragments are the same for every block that differs in the texts of its comments only, and these can
be any texts. So nothing but comments stands behind a comment on its line. -/
theorem Block.render_weave (layout : Layout) (level : Nat) (b : Block) :
    ∃ fs, Template b.comments.length fs ∧
      (∀ b' : Block, b'.erased = b.erased → Block.render layout level b' = weave fs b'.comments ∧
        ∀ k c, b'.comments[k]? = some c →
          ClosesLine (Block.render layout level b') c (b'.comments.drop (k + 1))) ∧
      ∀ cs : List String, cs.length = b.comments.length →
        ∃ b' : Block, b'.erased = b.erased ∧ b'.comments = cs := by
  have hlength : ∀ b' : Block,
      (fragments layout level b'.lines).length = b'.comments.length + 1 := by
    intro b'
    rw [length_fragments, Block.comments_lines]
  have hleading := leading_fragments layout level b.lines
  refine ⟨fragments layout level b.lines, hleading.template (hlength b), fun b' hb' => ?_,
    fun cs hcs => Block.exists_comments (fun s _ => s.fillable) cs hcs⟩
  have hsame : fragments layout level b'.lines = fragments layout level b.lines := by
    rw [← fragments_erased, ← Block.lines_erased, hb', Block.lines_erased, fragments_erased]
  have hrender := Block.render_fragments layout level b'
  rw [hsame] at hrender
  refine ⟨hrender, fun k c hc => ?_⟩
  rw [hrender]
  exact hleading.closesLine (hsame ▸ hlength b') k c hc

end Offside
