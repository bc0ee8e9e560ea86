import LocatedYaml.Text.Basic

/-!
# Gaps inside flow scalars

White space between two words of a plain or quoted scalar. On one line it stays as it is. Around line breaks it is
dropped; one break becomes a space, and of several all but the first are kept.
-/

namespace LocatedYaml.Token

structure Gap where
  /-- The blanks before the first line break. -/
  blanks : Text := []
  /-- A line has ended since the last word. -/
  newLine : Bool := false
  /-- A line break that is not escaped has been read. -/
  broken : Bool := false
  /-- The number of line breaks after the first one, or after an escaped one. -/
  more : Nat := 0

namespace Gap

/-- The gap with one more blank; blanks at the start of a line are dropped. -/
def blank (gap : Gap) (c : Char) : Gap :=
  if gap.newLine then gap else { gap with blanks := gap.blanks ++ [c] }

/-- The gap with one more line break. -/
def lineBreak (gap : Gap) : Gap :=
  if gap.newLine then { gap with more := gap.more + 1 }
  else { gap with blanks := [], newLine := true, broken := true }

/-- What the gap contributes to the scalar. -/
def text (gap : Gap) : Text :=
  if gap.newLine then
    if gap.broken && gap.more == 0 then [' '] else List.replicate gap.more '\n'
  else gap.blanks

end Gap

end LocatedYaml.Token
