import WhereFilter.Rule.Placeholder
import WhereFilter.Rule.Refusal
import WhereFilter.Text.Blank
import WhereFilter.Text.Folded

namespace WhereFilter

/-- What the filter language cannot say: subqueries, groups, order and null tests. -/
def unsupportedPhrases : List (List Text) :=
  [["SELECT".toList], ["EXISTS".toList], ["FROM".toList], ["JOIN".toList], ["UNION".toList],
   ["GROUP".toList, "BY".toList], ["HAVING".toList], ["ORDER".toList, "BY".toList],
   ["IS".toList, "NULL".toList], ["IS".toList, "NOT".toList, "NULL".toList]]

namespace Phrase

/-- Reads words in any case with blanks between them. -/
def read? : List Text → Text → Option (Text × Text)
  | [], s => some ([], s)
  | [w], s => Text.folded? w s
  | w :: ws, s => do
    let (word, s) ← Text.folded? w s
    let (gap, s) ← Text.blanks? s
    let (more, s) ← read? ws s
    some (word ++ gap ++ more, s)

/-- A phrase the filter language lacks, where no word reaches across its ends. -/
def unsupported : Pattern Char Text := fun back s =>
  if back.any isWordChar then none
  else unsupportedPhrases.findSome? fun ws =>
    match read? ws s with
    | some (phrase, rest) => if rest.head?.any isWordChar then none else some (phrase, rest)
    | none => none

end Phrase

/-- Refuses a rule for the first phrase that the filter language lacks, even one inside a
literal. -/
def checkSupported (rule : Text) : Except Refusal Unit :=
  match Phrase.unsupported.hits rule with
  | [] => .ok ()
  | phrase :: _ => .error (.unsupported phrase)

/-- Refuses a rule for its first variable without a value, so that none is ever guessed. -/
def checkBound (b : Bindings) (rule : Text) : Except Refusal Unit :=
  match (Placeholder.names rule).find? fun name => !b.binds name with
  | none => .ok ()
  | some name => .error (.unbound name)

end WhereFilter
