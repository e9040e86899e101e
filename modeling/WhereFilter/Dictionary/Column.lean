import WhereFilter.Dictionary.Default

namespace WhereFilter

/-- What a dictionary says of a column. -/
structure Column where
  id : Int := 0
  name : Text
  typeCode : Int
  valueListId : Option Int := none
  length : Int := 0
  mandatory : Bool := false
  default : Text := []
  updateable : Bool := false
  ruleId : Option Int := none
  deriving Repr, DecidableEq

namespace Column

/-- Not every code has a type. -/
def type? (c : Column) : Option FieldType :=
  FieldType.ofCode? c.typeCode

def idEnding : Text := "_ID".toList

/-- The table whose records a column names. Where the dictionary gave one, that is
`resolved`; or else the name of the column tells. -/
def target? (c : Column) (resolved : Option Text) : Option Text :=
  match c.type? with
  | some .tableDirect => some ((Text.before? idEnding c.name).getD c.name)
  | some .table | some .search =>
    match resolved with
    | some (a :: t) => some (a :: t)
    | _ => Text.before? idEnding c.name
  | _ => none

/-- The filter for the columns with these ids. -/
def batchFilter? : List Int → Option Text
  | [] => none
  | ids => some <| " or ".toList.intercalate (ids.map fun id =>
      "AD_Column_ID eq ".toList ++ Integer.text id)

/-- The server fills these in on every insert. -/
def autoFilled : List Text :=
  ["AD_Client_ID".toList, "AD_Org_ID".toList, "IsActive".toList, "Created".toList,
   "CreatedBy".toList, "Updated".toList, "UpdatedBy".toList]

/-- Whether a new record of `table` must bring a value that nobody has entered. Its name and
search key are what one does enter. -/
def needsDefault (table : Text) (c : Column) : Bool :=
  c.mandatory && !(autoFilled.contains c.name || c.name == table ++ idEnding ||
    c.name == "Name".toList || c.name == "Value".toList)

/-- Writes `v` beside `k` in a list sorted by key. -/
def putSorted (k : Text) (v : ν) : List (Text × ν) → List (Text × ν)
  | [] => [(k, v)]
  | (j, w) :: es =>
    if k = j then (k, v) :: es
    else if k < j then (k, v) :: (j, w) :: es
    else (j, w) :: putSorted k v es

/-- Whether a record can be entered by its name alone, and the defaults to send with it, sorted
by column. -/
@[ext]
structure EntryPlan where
  eligible : Bool := false
  defaults : List (Text × Default) := []
  deriving DecidableEq

/-- Adds the default of each column that needs one. The `n`-th is resolved at `clock n`, and the
first that has no value ends it. -/
def addDefaults (slots : SlotTable) (clock : Nat → Instant) (table : Text) (n : Nat)
    (found : List (Text × Default)) : List Column → Option (List (Text × Default))
  | [] => some found
  | c :: rest =>
    if needsDefault table c then
      match Default.resolve slots .system c.type? (clock n) c.default with
      | none => none
      | some d => addDefaults slots clock table (n + 1) (putSorted c.name d found) rest
    else addDefaults slots clock table n found rest

def entryPlan (slots : SlotTable) (clock : Nat → Instant) (table : Text) (columns : List Column) :
    EntryPlan :=
  match addDefaults slots clock table 0 [] columns with
  | some found => { eligible := true, defaults := found }
  | none => {}

/-- The defaults alone, at one time; none if a column lacks one. -/
def entryDefaults? (slots : SlotTable) (now : Instant) (table : Text) (columns : List Column) :
    Option (List (Text × Default)) :=
  let plan := entryPlan slots (fun _ => now) table columns
  if plan.eligible then some plan.defaults else none

end Column

end WhereFilter
