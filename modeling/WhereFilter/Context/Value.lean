import WhereFilter.Number.Binary64

namespace WhereFilter

/-- What a context variable is bound to. -/
inductive Value
  | yesNo (b : Bool)
  | number (x : Binary64)
  | text (t : Text)
  deriving DecidableEq

namespace Value

def yesNoLetter (b : Bool) : Char :=
  if b then 'Y' else 'N'

/-- A quote inside a literal is written twice. -/
def doubleQuotes (t : Text) : Text :=
  t.flatMap fun c => if c = '\'' then ['\'', '\''] else [c]

/-- The value as a part of a literal. -/
def inLiteral : Value → Text
  | .yesNo b => [yesNoLetter b]
  | .number x => x.text
  | .text t => doubleQuotes t

/-- The value as an operand of its own: all but numbers are quoted. -/
def operand : Value → Text
  | .number x => x.text
  | v => '\'' :: v.inLiteral ++ ['\'']

def equals : Value → Value → Bool
  | .yesNo a, .yesNo b => a == b
  | .number x, .number y => x.equals y
  | .text s, .text t => s == t
  | _, _ => false

end Value

end WhereFilter
