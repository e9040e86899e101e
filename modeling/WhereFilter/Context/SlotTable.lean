import WhereFilter.Context.Bindings
import WhereFilter.Text.Blank

namespace WhereFilter

/-- The parts of a login that a default may stand for. -/
inductive Slot
  | today | organization | warehouse | client | salesTransaction
  deriving Repr, DecidableEq

namespace Slot

def all : List Slot :=
  [.today, .organization, .warehouse, .client, .salesTransaction]

def name : Slot → Text
  | .today => "today".toList
  | .organization => "organization_id".toList
  | .warehouse => "warehouse_id".toList
  | .client => "client_id".toList
  | .salesTransaction => "sales_transaction".toList

def ofName? (t : Text) : Option Slot :=
  all.find? fun s => s.name == t

theorem ofName?_name (s : Slot) : ofName? s.name = some s := by
  cases s <;> decide

theorem ofName?_eq_some {t : Text} {s : Slot} : ofName? t = some s ↔ s.name = t := by
  constructor
  · intro h
    simpa using List.find?_some h
  · rintro rfl
    exact ofName?_name s

theorem ofName?_eq_none {t : Text} : ofName? t = none ↔ ∀ s : Slot, s.name ≠ t := by
  constructor
  · intro h s hs
    rw [ofName?_eq_some.mpr hs] at h
    cases h
  · intro h
    cases hs : ofName? t with
    | none => rfl
    | some s => exact absurd (ofName?_eq_some.mp hs) (h s)

end Slot

/-- Who is logged in and where. -/
structure Login where
  organization : Int
  warehouse : Int
  client : Int
  sales : Bool := true
  deriving Repr, DecidableEq

/-- Stands in where no login applies. -/
def Login.system : Login :=
  { organization := 0, warehouse := 0, client := 0 }

/-- Slots by context name, in order; the first entry of a name counts. -/
structure SlotTable where
  entries : List (Text × Slot)
  deriving Repr, DecidableEq

/-- Why a text of overrides is refused. -/
inductive OverrideError
  | missingSlot (line : Nat)
  | unknownSlot (line : Nat) (slot : Text)
  deriving Repr, DecidableEq

namespace OverrideError

def message : OverrideError → Text
  | .missingSlot line => "line ".toList ++ Digits.ofNat line ++ ": expected Name=slot".toList
  | .unknownSlot line slot =>
    "line ".toList ++ Digits.ofNat line ++ ": unknown slot '".toList ++ slot ++ ['\'']

end OverrideError

namespace SlotTable

def empty : SlotTable := ⟨[]⟩

def builtIn : SlotTable :=
  ⟨[("Date".toList, .today), ("AD_Org_ID".toList, .organization),
    ("M_Warehouse_ID".toList, .warehouse), ("AD_Client_ID".toList, .client),
    ("IsSOTrx".toList, .salesTransaction)]⟩

/-- Gives `name` a slot in place of the one it had. -/
def set (t : SlotTable) (name : Text) (s : Slot) : SlotTable :=
  ⟨put (bareName name) s t.entries⟩

def lookup? (t : SlotTable) (name : Text) : Option Slot :=
  find? (bareName name) t.entries

/-- What one line of overrides asks for: nothing if it is blank or starts with `;`. -/
def entryOf (number : Nat) (line : Text) : Except OverrideError (Option (Text × Slot)) :=
  match Text.trim line with
  | [] => .ok none
  | ';' :: _ => .ok none
  | line =>
    match cutFirst? '=' line with
    | none => .error (.missingSlot number)
    | some (name, slot) =>
      match Slot.ofName? (Text.trim slot) with
      | none => .error (.unknownSlot number (Text.trim slot))
      | some s => .ok (some (Text.trim name, s))

/-- Adds the lines from line `number` on; the first bad one ends it. -/
def override (t : SlotTable) (number : Nat) : List Text → Except OverrideError SlotTable
  | [] => .ok t
  | line :: rest =>
    match entryOf number line with
    | .error e => .error e
    | .ok none => override t (number + 1) rest
    | .ok (some (name, s)) => override (t.set name s) (number + 1) rest

/-- The built-in table with the `Name=slot` lines of `text` added. -/
def ofOverrides (text : Text) : Except OverrideError SlotTable :=
  override builtIn 1 (lines '\n' '\r' text)

theorem lookup?_set (t : SlotTable) (m n : Text) (s : Slot) :
    (t.set n s).lookup? m = if bareName n = bareName m then some s else t.lookup? m :=
  find?_put (bareName m) (bareName n) s t.entries

end SlotTable

end WhereFilter
