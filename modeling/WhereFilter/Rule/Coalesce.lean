import WhereFilter.Text.Blank
import WhereFilter.Text.Folded
import WhereFilter.Text.Pattern
import WhereFilter.Text.Word

namespace WhereFilter

/-- A call of `COALESCE`, in any case, with a name and a literal that has no quotes in it;
the hit is the name. -/
def coalesce : Pattern Char Text := fun _ s => do
  let (_, s) ← Text.folded? "COALESCE".toList s
  let s ← Text.after? ['('] (Text.skipBlanks s)
  let (name, s) ← Text.word? (Text.skipBlanks s)
  let s ← Text.after? [','] (Text.skipBlanks s)
  let s ← Text.after? ['\''] (Text.skipBlanks s)
  let s ← Text.after? ['\''] (s.dropWhile (· ≠ '\''))
  let s ← Text.after? [')'] (Text.skipBlanks s)
  some (name, s)

/-- Leaves of each such call the name alone. -/
def dropCoalesce (s : Text) : Text :=
  coalesce.replace id s

end WhereFilter
