import WhereFilter.Dictionary.Column
import WhereFilter.Json.Basic

namespace WhereFilter

namespace Json

/-- The fields of a record in order: members by name, some of them perhaps missing, or an
array of just as many items. -/
def fields? (names : List Text) : Json → Option (List (Option Json))
  | .obj members => some (names.map (find? · members))
  | .arr items => if items.length = names.length then some (items.map some) else none
  | _ => none

/-- A field that may be missing or null. -/
def optional? (read : Json → Option α) : Option Json → Option (Option α)
  | none | some .null => some none
  | some j => (read j).map some

end Json

namespace Value

/-- A boolean, a number or a text. -/
def ofJson? : Json → Option Value
  | .bool b => some (.yesNo b)
  | .str t => some (.text t)
  | j => j.number?.map .number

end Value

namespace Default

/-- Dates come back as the texts they are written as. -/
def ofJson? : Json → Option Default
  | .bool b => some (.yesNo b)
  | .str t => some (.text t)
  | .int n => if Integer.fits n then some (.integer n) else some (.decimal (.ofInt n))
  | .real x => some (.decimal x)
  | _ => none

def toJson : Default → Json
  | .yesNo b => .bool b
  | .integer n => .int n
  | .decimal x => .real x
  | .text t => .str t
  | .date d => .str d.text
  | .timestamp i => .str i.text

end Default

namespace Bindings

def ofJson? : Json → Option Bindings
  | .obj members => (members.mapM bound?).map Keyed.ofList
  | _ => none
where
  bound? (m : Text × Json) : Option (Text × Value) :=
    (Value.ofJson? m.2).map (m.1, ·)

end Bindings

namespace Slot

/-- The name alone, or as the one member of an object, beside null. -/
def ofJson? : Json → Option Slot
  | .str t => ofName? t
  | .obj [(t, .null)] => ofName? t
  | _ => none

end Slot

namespace SlotTable

/-- Pairs of name and slot. Names are kept as they are. -/
def ofJson? : Json → Option SlotTable
  | .arr items => (items.mapM entry?).map SlotTable.mk
  | _ => none
where
  entry? : Json → Option (Text × Slot)
    | .arr [.str name, slot] => (Slot.ofJson? slot).map (name, ·)
    | _ => none

def toJson (t : SlotTable) : Json :=
  .arr (t.entries.map fun e => .arr [.str e.1, .str e.2.name])

theorem ofJson?_toJson (t : SlotTable) : ofJson? t.toJson = some t := by
  have hentry (e : Text × Slot) : ofJson?.entry? (.arr [.str e.1, .str e.2.name]) = some e := by
    simp [ofJson?.entry?, Slot.ofJson?, Slot.ofName?_name]
  have hentries (es : List (Text × Slot)) :
      (es.map fun e => Json.arr [.str e.1, .str e.2.name]).mapM ofJson?.entry? = some es := by
    induction es with
    | nil => rfl
    | cons e es ih => simp [hentry, ih]
  simp [ofJson?, toJson, hentries]

end SlotTable

namespace FieldType

def ofJson? (j : Json) : Option FieldType :=
  (j.int? (-2147483648) 2147483647).bind ofCode?

end FieldType

namespace Login

def fieldNames : List Text :=
  ["organization_id".toList, "warehouse_id".toList, "client_id".toList,
   "is_sales_transaction".toList]

def ofJson? (j : Json) : Option Login := do
  match ← j.fields? fieldNames with
  | [some organization, some warehouse, some client, some sales] =>
    some ⟨← organization.int64?, ← warehouse.int64?, ← client.int64?, ← sales.bool?⟩
  | _ => none

def toJson (l : Login) : Json :=
  .obj (fieldNames.zip [.int l.organization, .int l.warehouse, .int l.client, .bool l.sales])

end Login

namespace Column

def fieldNames : List Text :=
  ["id".toList, "column_name".toList, "reference_id".toList, "reference_value_id".toList,
   "field_length".toList, "is_mandatory".toList, "default_value".toList,
   "is_updateable".toList, "validation_rule_id".toList]

def ofJson? (j : Json) : Option Column := do
  match ← j.fields? fieldNames with
  | [some id, some name, some typeCode, valueListId, some length, some mandatory, some default,
      some updateable, ruleId] =>
    some {
      id := ← id.int64?
      name := ← name.text?
      typeCode := ← typeCode.int? (-2147483648) 2147483647
      valueListId := ← Json.optional? Json.int64? valueListId
      length := ← length.int? 0 4294967295
      mandatory := ← mandatory.bool?
      default := ← default.text?
      updateable := ← updateable.bool?
      ruleId := ← Json.optional? Json.int64? ruleId }
  | _ => none

def toJson (c : Column) : Json :=
  let optional (n : Option Int) : Json := (n.map Json.int).getD .null
  .obj (fieldNames.zip
    [.int c.id, .str c.name, .int c.typeCode, optional c.valueListId, .int c.length,
     .bool c.mandatory, .str c.default, .bool c.updateable, optional c.ruleId])

end Column

end WhereFilter
