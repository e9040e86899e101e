import WhereFilter.CommandLine
import WhereFilter.Json.Printer
import WhereFilter.Json.Reader
import WhereFilter.Json.Records
import WhereFilter.Main
import WhereFilter.Memo
import WhereFilter.Token.Cursor
import WhereFilter.Proofs.Token.Fit
import WhereFilter.Proofs.Reading.Parts
import WhereFilter.Proofs.Reading.Printed
import WhereFilter.Proofs.Reading.Folded
import WhereFilter.Proofs.Reading.Written
import WhereFilter.Proofs.Reading.Meaning
import WhereFilter.Proofs.Reading.Normal
import WhereFilter.Proofs.Text.Segments
import WhereFilter.Proofs.Text.Runs
import WhereFilter.Proofs.Token.Alike
import WhereFilter.Proofs.Rule.Placeholder
import WhereFilter.Proofs.Context.Bindings
import WhereFilter.Proofs.Rule.Filled
import WhereFilter.Proofs.Rule.Splice
import WhereFilter.Proofs.Rule.Tidy
import WhereFilter.Proofs.Rule.Removal
import WhereFilter.Proofs.Rule.Gate
import WhereFilter.Proofs.Text.Turns
import WhereFilter.Proofs.Language.Layout
import WhereFilter.Proofs.Language.Subjects
import WhereFilter.Proofs.Language.Calls
import WhereFilter.Proofs.Language.Meaning
import WhereFilter.Proofs.Number.Numeral
import WhereFilter.Proofs.Number.Nearest
import WhereFilter.Proofs.Number.Decimal
import WhereFilter.Proofs.Number.Shortest
import WhereFilter.Proofs.Language.Values
import WhereFilter.Proofs.Language.Flags
import WhereFilter.Proofs.Language.Lists
import WhereFilter.Proofs.Token.Longest
import WhereFilter.Proofs.Language.Signs
import WhereFilter.Proofs.Language.Truths
import WhereFilter.Proofs.Language.Markers
import WhereFilter.Proofs.Language.Wraps
import WhereFilter.Proofs.Language.Spacing
import WhereFilter.Proofs.Language.Variables
import WhereFilter.Proofs.Language.Translation
import WhereFilter.Proofs.Language.Phrases
import WhereFilter.Proofs.Language.Flat
import WhereFilter.Proofs.Layout.Translation
import WhereFilter.Proofs.Output.Answers
import WhereFilter.Proofs.Rule.Memberships
import WhereFilter.Proofs.Rule.Operands
import WhereFilter.Proofs.Rule.Calls
import WhereFilter.Proofs.Rule.Comparisons
import WhereFilter.Proofs.Rule.Operators
import WhereFilter.Proofs.Rule.Unwrapped
import WhereFilter.Proofs.Rule.Unqualified
import WhereFilter.Proofs.Rule.Filling
import WhereFilter.Proofs.Rule.Refused
import WhereFilter.Proofs.Token.Unclosed
import WhereFilter.Proofs.Bytewise.Translate
import WhereFilter.Proofs.Verbatim.Translation
import WhereFilter.Proofs.Context.Overrides
import WhereFilter.Proofs.Dictionary.EntryPlan
import WhereFilter.Proofs.Memo.Coherence
import WhereFilter.Proofs.Number.WholeNumeral
import WhereFilter.Proofs.Dictionary.WholeDefault
import WhereFilter.Proofs.Dictionary.BatchFilter
import WhereFilter.Proofs.Token.Locality
import WhereFilter.Proofs.Context.Operand
import WhereFilter.Proofs.Context.Entries
import WhereFilter.Proofs.Token.Session
import WhereFilter.Proofs.Reading.Balanced
import WhereFilter.Proofs.Context.History
