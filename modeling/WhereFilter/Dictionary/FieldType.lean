namespace WhereFilter

/-- The kind of data a column holds. -/
inductive FieldType
  | string | integer | amount | id | text | date | dateTime | list | table | tableDirect
  | yesNo | number | time | quantity | search | memo
  deriving Repr, DecidableEq

namespace FieldType

def all : List FieldType :=
  [.string, .integer, .amount, .id, .text, .date, .dateTime, .list, .table, .tableDirect,
   .yesNo, .number, .time, .quantity, .search, .memo]

/-- The number a dictionary knows the type by. -/
def code : FieldType → Int
  | .string => 10
  | .integer => 11
  | .amount => 12
  | .id => 13
  | .text => 14
  | .date => 15
  | .dateTime => 16
  | .list => 17
  | .table => 18
  | .tableDirect => 19
  | .yesNo => 20
  | .number => 22
  | .time => 24
  | .quantity => 29
  | .search => 30
  | .memo => 38

def ofCode? (n : Int) : Option FieldType :=
  all.find? fun t => t.code == n

/-- Values of these types are text even where they look like numbers. -/
def isTextual : FieldType → Bool
  | .list | .string | .text | .memo => true
  | _ => false

/-- Values of these types name a record of another table. -/
def isReference : FieldType → Bool
  | .table | .tableDirect | .search => true
  | _ => false

end FieldType

end WhereFilter
