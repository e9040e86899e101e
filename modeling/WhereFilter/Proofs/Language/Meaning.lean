import WhereFilter.Context.Bindings
import WhereFilter.Proofs.Language.Syntax

namespace WhereFilter

namespace Language

/-- What the values of columns are compared with. -/
inductive Operand
  | number (t : Text)
  | text (t : Text)
  deriving Repr, DecidableEq

/-- The values of the columns of a row, none of them null, by how they compare with operands. -/
abbrev Row := Text → Operand → Ordering

def Relation.holds : Relation → Ordering → Bool
  | .less, o => o == .lt
  | .greater, o => o == .gt
  | .lessEquals, o => o != .gt
  | .greaterEquals, o => o != .lt
  | .equals, o | .doubleEquals, o | .eqWord, o => o == .eq
  | .notEquals, o | .bangEquals, o | .neqWord, o => o != .eq

def yesNo (holds : Bool) : Operand :=
  .text [Value.yesNoLetter holds]

/-- The operand that a variable stands for, in quotes or without. -/
def valueOperand (quoted : Bool) : Value → Operand
  | .yesNo holds => yesNo holds
  | .number x => if quoted then .text x.text else .number x.text
  | .text t => .text t

def signed (negative : Bool) (digits : Text) : Text :=
  if negative then '-' :: digits else digits

namespace Item

/-- A truth value in a filter stands for one of the letters that rules have. -/
def value (b : Bindings) : Item → Operand
  | .number negative digits => .number (signed negative digits)
  | .literal contents => .text contents
  | .placeholder quoted p =>
    match b.lookup? p.name with
    | some v => valueOperand quoted v
    | none => .text p.text
  | .truth holds => yesNo holds

end Item

namespace Clause

/-- Whether a clause holds of a row. -/
def truth (b : Bindings) (row : Row) : Clause → Bool
  | .compare (.subject x) _ relation _ right => relation.holds (row x.column (right.value b))
  | .compare (.item i) _ _ _ right => i.value b == right.value b
  | .member x negation _ _ first rest =>
    match negation with
    | none => (first :: rest).any fun e => row x.column (e.item.value b) == .eq
    | some _ => (first :: rest).all fun e => row x.column (e.item.value b) != .eq

def ForItems (P : Item → Prop) : Clause → Prop
  | .compare (.subject _) _ _ _ right => P right
  | .compare (.item i) _ _ _ right => P i ∧ P right
  | .member _ _ _ _ first rest => ∀ e ∈ first :: rest, P e.item

end Clause

/-- Truth values, finite numbers and plain texts. -/
def Allowed : Value → Prop
  | .yesNo _ => True
  | .number x => ∃ negative m, x = .finite negative m
  | .text t => Plain t

def Item.Bound (b : Bindings) : Item → Prop
  | .placeholder _ p => ∃ v, b.lookup? p.name = some v ∧ Allowed v
  | _ => True

def Item.InRules : Item → Prop
  | .truth _ => False
  | _ => True

/-- A column is compared by a sign, or a quoted variable with one of the two letters. -/
def Clause.InRules : Clause → Prop
  | .compare (.subject _) _ relation _ right => relation.isSpelled = false ∧ right.InRules
  | .compare (.item i) _ relation _ right =>
    (∃ p, i = .placeholder true p) ∧ relation = .equals ∧
      (right = .literal ['Y'] ∨ right = .literal ['N'])
  | .member _ _ _ _ first rest => ∀ e ∈ first :: rest, e.item.InRules

/-- Every variable of the clause has a value, and one that no column is compared with has a
truth value. -/
def Clause.Bound (b : Bindings) (c : Clause) : Prop :=
  c.ForItems (Item.Bound b) ∧
    ∀ quoted p before relation behind right,
      c = .compare (.item (.placeholder quoted p)) before relation behind right →
        ∃ holds, b.lookup? p.name = some (.yesNo holds)

/-- A comparison as a filter has it. -/
structure Comparison where
  column : Text
  relation : Relation
  operand : Operand

namespace Comparison

def operand? : List Token → Option Operand
  | [⟨.number, t⟩] => some (.number t)
  | [⟨.minus, _⟩, ⟨.number, t⟩] => some (.number ('-' :: t))
  | [⟨.literal, t⟩] => some (.text t.tail.dropLast)
  | [⟨.word, t⟩] =>
    if t = "true".toList then some (yesNo true)
    else if t = "false".toList then some (yesNo false)
    else none
  | _ => none

def relation? (t : Token) : Option Relation :=
  [Relation.less, .greater, .lessEquals, .greaterEquals, .eqWord, .neqWord].find?
    fun r => r.token == t

/-- Reads a column, a relation and an operand. -/
def read? : List Token → Option Comparison
  | ⟨.word, column⟩ :: r :: ts => do
    let relation ← relation? r
    let operand ← operand? ts
    some ⟨column, relation, operand⟩
  | _ => none

def holds (row : Row) (c : Comparison) : Bool :=
  c.relation.holds (row c.column c.operand)

end Comparison

/-- Whether the comparison that `ts` spell holds of a row. -/
def holdsOf (row : Row) (ts : List Token) : Bool :=
  ((Comparison.read? ts).map (Comparison.holds row)).getD false

end Language

end WhereFilter
