import WhereFilter.Text.Pattern
import WhereFilter.Token.Scan

namespace WhereFilter

/-- A table name, a dot and a column name with no gap between them; the hit is the column
in place of all three. -/
def qualified : Pattern Lexeme Lexeme := fun _ ls =>
  match ls with
  | table :: dot :: column :: rest =>
    if table.is .word && dot.is .dot && column.is .word &&
        dot.gap.isEmpty && column.gap.isEmpty then
      some ({ column with gap := table.gap }, rest)
    else none
  | _ => none

/-- Drops the table names before the columns of `s`. -/
def dropQualifiers (s : Text) : Except Unclosed Text :=
  (scan s).map fun found =>
    ({ found with lexemes := qualified.replace (fun column => [column]) found.lexemes } : Scan).text

end WhereFilter
