import WhereFilter.Text.Blank
import WhereFilter.Text.Pattern
import WhereFilter.Text.Word

namespace WhereFilter

namespace YesNo

/-- Reads `'Y'` or `'N'`. -/
def literal? : Text → Option (Bool × Text)
  | '\'' :: 'Y' :: '\'' :: r => some (true, r)
  | '\'' :: 'N' :: '\'' :: r => some (false, r)
  | _ => none

/-- Two such literals with an equals sign between; the hit says whether they agree. -/
def comparison : Pattern Char Bool := fun _ s => do
  let (a, s) ← literal? s
  let s ← Text.after? ['='] (Text.skipBlanks s)
  let (b, s) ← literal? (Text.skipBlanks s)
  some (a == b, s)

/-- A comparison that holds becomes `1=1` and one that fails `1=0`. -/
def foldComparisons (s : Text) : Text :=
  comparison.replace (fun agree => if agree then "1=1".toList else "1=0".toList) s

def operator? (s : Text) : Option (Text × Text) :=
  match Text.after? "neq".toList s with
  | some s => some ("neq".toList, s)
  | none => (Text.after? "eq".toList s).map ("eq".toList, ·)

/-- Such a literal behind the word `eq` or `neq`; the hit is the word and the literal. -/
def operand : Pattern Char (Text × Bool) := fun back s =>
  if back.any isWordChar then none
  else do
    let (op, s) ← operator? s
    let (_, s) ← Text.blanks? s
    let (b, s) ← literal? s
    some ((op, b), s)

/-- The filter language has truth values where the rule has the two letters. -/
def useTruthValues (s : Text) : Text :=
  operand.replace (fun (op, b) => op ++ ' ' :: if b then "true".toList else "false".toList) s

end YesNo

end WhereFilter
