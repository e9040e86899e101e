import WhereFilter.Text.Blank
import WhereFilter.Text.Pattern
import WhereFilter.Token.Scan

namespace WhereFilter

/-- A column that is, or is not, one of the items of a list. -/
structure Membership where
  gap : Text
  column : Text
  negated : Bool
  items : List Text
  deriving Repr, DecidableEq

namespace Membership

/-- A comparison for each item: one must hold, or, negated, all. -/
def text (m : Membership) : Text :=
  let op := if m.negated then " neq ".toList else " eq ".toList
  let joint := if m.negated then " and ".toList else " or ".toList
  m.gap ++ '(' :: joint.intercalate (m.items.map fun item => m.column ++ op ++ item) ++ [')']

/-- The items up to the closing parenthesis and what follows it. None if a parenthesis opens
before that or an item has no token. -/
def items? (ls : List Lexeme) : Option (List Text × List Lexeme) :=
  let inner (l : Lexeme) : Bool := !(l.is .parenLeft || l.is .parenRight)
  match ls.dropWhile inner with
  | [] => none
  | close :: rest =>
    let items := cut (·.is .comma) (ls.takeWhile inner)
    if close.is .parenRight && items.all (!·.isEmpty) then
      some (items.map fun item => Text.trim (slice item), rest)
    else none

/-- Reads `Column IN (…)` or `Column NOT IN (…)`. -/
def pattern : Pattern Lexeme Membership := fun _ ls =>
  match ls with
  | [] => none
  | column :: ls =>
    if !column.is .word || column.isWord "NOT".toList then none
    else
      let (negated, ls) := match ls with
        | l :: rest => if l.isWord "NOT".toList then (true, rest) else (false, ls)
        | [] => (false, ls)
      match ls with
      | word :: open_ :: ls =>
        if word.isWord "IN".toList && open_.is .parenLeft then
          (items? ls).map fun (items, rest) =>
            (⟨column.gap, column.token.text, negated, items⟩, rest)
        else none
      | _ => none

end Membership

/-- Writes each list out as comparisons. -/
def expandLists (s : Text) : Except Unclosed Text :=
  (scan s).map fun found =>
    Membership.pattern.render Lexeme.text Membership.text found.lexemes ++ found.tail

end WhereFilter
