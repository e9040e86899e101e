import WhereFilter.Text.Blank
import WhereFilter.Text.Pattern
import WhereFilter.Text.Word

namespace WhereFilter

namespace Wrapped

/-- What stands before and after the last closing parenthesis. -/
def lastClose? : Text → Option (Text × Text)
  | [] => none
  | c :: r =>
    match lastClose? r with
    | some (front, back) => some (c :: front, back)
    | none => if c = ')' then some ([], r) else none

/-- The longest operand at the front of `s` that a closing parenthesis follows, and what
follows that. An operand has no blank in it and is not empty. -/
def operand? (s : Text) : Option (Text × Text) :=
  match s.takeWhile (!isBlank ·) with
  | [] => none
  | c :: run =>
    let rest := s.dropWhile (!isBlank ·)
    match Text.after? [')'] (Text.skipBlanks rest) with
    | some rest => some (c :: run, rest)
    | none => (lastClose? run).map fun (front, back) => (c :: front, back ++ rest)

/-- One `eq` comparison in parentheses; the hit is the comparison. -/
def clause : Pattern Char Text := fun _ s => do
  let s ← Text.after? ['('] s
  let (column, s) ← Text.word? (Text.skipBlanks s)
  let (gap, s) ← Text.blanks? s
  let s ← Text.after? "eq".toList s
  let (gap', s) ← Text.blanks? s
  let (operand, s) ← operand? s
  some (column ++ gap ++ "eq".toList ++ gap' ++ operand, s)

end Wrapped

/-- Takes the parentheses off single comparisons. -/
def unwrapClauses (s : Text) : Text :=
  Wrapped.clause.replace id s

end WhereFilter
