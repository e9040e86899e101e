import WhereFilter.Keyed
import WhereFilter.Number.Binary64

namespace WhereFilter

/-- A number written without point and exponent is an integer as far as 64 bits hold it; any
other, and minus zero, is rounded. Members have different names. -/
inductive Json
  | null
  | bool (b : Bool)
  | int (n : Int)
  | real (x : Binary64)
  | str (t : Text)
  | arr (items : List Json)
  | obj (members : List (Text × Json))

namespace Json

/-- An object; of several members of one name the last counts. -/
def ofMembers (members : List (Text × Json)) : Json :=
  .obj (members.foldl (fun found (name, j) => put name j found) [])

def member? (name : Text) : Json → Option Json
  | .obj members => find? name members
  | _ => none

def bool? : Json → Option Bool
  | .bool b => some b
  | _ => none

def text? : Json → Option Text
  | .str t => some t
  | _ => none

def array? : Json → Option (List Json)
  | .arr items => some items
  | _ => none

/-- An integer from `least` to `greatest`. -/
def int? (least greatest : Int) : Json → Option Int
  | .int n => if least ≤ n ∧ n ≤ greatest then some n else none
  | _ => none

def int64? : Json → Option Int :=
  int? (-9223372036854775808) 9223372036854775807

/-- Any number, rounded. -/
def number? : Json → Option Binary64
  | .int n => some (.ofInt n)
  | .real x => some x
  | _ => none

end Json

end WhereFilter
