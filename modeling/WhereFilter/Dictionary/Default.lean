import WhereFilter.Calendar
import WhereFilter.Context.SlotTable
import WhereFilter.Dictionary.FieldType
import WhereFilter.Text.Word
import WhereFilter.Token.Basic

namespace WhereFilter

/-- The value that a new record starts with. -/
inductive Default
  | yesNo (b : Bool)
  | integer (n : Int)
  | decimal (x : Binary64)
  | text (t : Text)
  | date (d : Date)
  | timestamp (i : Instant)
  deriving DecidableEq

namespace Default

def yesNoText (b : Bool) : Text :=
  if b then "true".toList else "false".toList

/-- The value as it is shown. -/
def shown : Default → Text
  | .yesNo b => yesNoText b
  | .integer n => Integer.text n
  | .decimal x => x.text
  | .text t => t
  | .date d => d.text
  | .timestamp i => i.text

/-- The name in an expression that is one variable from end to end. -/
def wholeName? (expr : Text) : Option Text := do
  let name ← Text.before? ['@'] (← Text.after? ['@'] expr)
  match bareName name with
  | c :: r => if Token.isNameStart c && r.all Token.isNameChar then some name else none
  | [] => none

def ofSlot (login : Login) (now : Instant) : Slot → Default
  | .today => .date now.date
  | .organization => .integer login.organization
  | .warehouse => .integer login.warehouse
  | .client => .integer login.client
  | .salesTransaction => .yesNo login.sales

def keyword? (now : Instant) (expr : Text) : Option Default :=
  if expr = ['Y'] then some (.yesNo true)
  else if expr = ['N'] then some (.yesNo false)
  else if expr = "SYSDATE".toList ∨ expr = "CURRENT_TIMESTAMP".toList then
    some (.timestamp now.wholeSecond)
  else if expr = "CURRENT_DATE".toList then some (.date now.date)
  else none

def isDigits (t : Text) : Bool :=
  !t.isEmpty && t.all isDecimalDigit

def unsigned (expr : Text) : Text :=
  (Text.after? ['-'] expr).getD expr

def isWhole (expr : Text) : Bool :=
  isDigits (unsigned expr)

def isFraction (expr : Text) : Bool :=
  match cutFirst? '.' (unsigned expr) with
  | some (whole, fraction) => isDigits whole && isDigits fraction
  | none => false

/-- A whole number is exact as far as 64 bits hold it. Digits of other scripts look like a
number but cannot be read as one: in a whole number that leaves no value, in a fraction it
leaves the text. -/
def ofNumeral (expr : Text) : Option Default :=
  if isWhole expr then
    match (Integer.read? expr).filter Integer.fits with
    | some n => some (.integer n)
    | none => (Binary64.read? expr).map .decimal
  else if isFraction expr then
    match Binary64.read? expr with
    | some x => some (.decimal x)
    | none => some (.text expr)
  else some (.text expr)

/-- What the server must compute starts like this. -/
def serverSide : Text := "@SQL=".toList

/-- The value that a column's default expression stands for, where it can be known here. -/
def resolve (table : SlotTable) (login : Login) (type : Option FieldType) (now : Instant)
    (expr : Text) : Option Default :=
  if expr.isEmpty || (Text.after? serverSide expr).isSome then none
  else
    match wholeName? expr with
    | some name => (table.lookup? name).map (ofSlot login now)
    | none =>
      match keyword? now expr with
      | some d => some d
      | none => if type.any FieldType.isTextual then some (.text expr) else ofNumeral expr

end Default

end WhereFilter
