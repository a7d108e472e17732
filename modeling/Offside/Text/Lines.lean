/-!
# Lines

A line ends at a line feed, or at a carriage return with a line feed right after it. A carriage
return that stands alone is an ordinary character of its line. The line breaks are made uniform
first, in one pass from the left, and the text is then cut at each line feed; a text with `n` line
breaks has `n + 1` lines.
-/

namespace Offside

namespace Text

/-- Writes every carriage return and line feed pair as a line feed. -/
def unifyBreaks : List Char → List Char
  | '\r' :: '\n' :: cs => '\n' :: unifyBreaks cs
  | c :: cs => c :: unifyBreaks cs
  | [] => []

/-- Cuts at every line feed. -/
def cutLines : List Char → List (List Char)
  | [] => [[]]
  | c :: cs =>
    if c = '\n' then [] :: cutLines cs
    else match cutLines cs with
      | [] => [[c]]
      | l :: ls => (c :: l) :: ls

def lines (cs : List Char) : List (List Char) := cutLines (unifyBreaks cs)

theorem cutLines_ne_nil : ∀ cs, cutLines cs ≠ []
  | [] => by simp [cutLines]
  | c :: cs => by
    simp only [cutLines]
    split
    · simp
    · split <;> simp

theorem cutLines_break (cs : List Char) : cutLines ('\n' :: cs) = [] :: cutLines cs := by
  simp [cutLines]

end Text

end Offside
