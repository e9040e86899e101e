import WhereFilter.Rule.Coalesce
import WhereFilter.Rule.Gate
import WhereFilter.Rule.Membership
import WhereFilter.Rule.Operator
import WhereFilter.Rule.Qualifier
import WhereFilter.Rule.Verdict
import WhereFilter.Rule.Wrapped
import WhereFilter.Rule.YesNo

namespace WhereFilter

/-- One step of a translation, under the name it is reported by. -/
structure Pass where
  name : String
  run : Bindings → Text → Except Refusal Text

namespace Pass

/-- A step that cannot fail. -/
def plain (name : String) (run : Text → Text) : Pass :=
  ⟨name, fun _ s => .ok (run s)⟩

/-- A step that reads tokens and fails where they cannot be read. -/
def scanning (name : String) (run : Bindings → Text → Except Unclosed Text) : Pass :=
  ⟨name, fun b s => (run b s).mapError .malformed⟩

/-- The order matters: lists and unequal signs are gone before `=` becomes `eq`, and markers
are folded only once they read `1 eq 1`. -/
def all : List Pass :=
  [scanning "strip_qualifiers" fun _ => dropQualifiers,
   plain "strip_coalesce" dropCoalesce,
   scanning "substitute_context" fillPlaceholders,
   plain "fold_yes_no_comparisons" YesNo.foldComparisons,
   scanning "expand_in_lists" fun _ => expandLists,
   scanning "not_equals" fun _ => respell unequalSpelling,
   scanning "equals" fun _ => respell equalSpelling,
   scanning "lowercase_connectives" fun _ => respell connectiveSpelling,
   plain "yes_no_to_bool" YesNo.useTruthValues,
   ⟨"fold_markers", fun _ => foldMarkers⟩,
   plain "unwrap_single_clauses" unwrapClauses,
   plain "normalize_whitespace" Text.respace]

def named? (name : String) : Option Pass :=
  all.find? (·.name == name)

/-- Each pass works on the text that the one before it left. -/
def runAll (b : Bindings) : List Pass → Text → Except Refusal Text
  | [], s => .ok s
  | p :: ps, s =>
    match p.run b s with
    | .ok t => runAll b ps t
    | .error e => .error e

/-- What each pass leaves, up to the first that fails. -/
def trace (b : Bindings) : List Pass → Text → List (String × Except Refusal Text)
  | [], _ => []
  | p :: ps, s =>
    match p.run b s with
    | .ok t => (p.name, .ok t) :: trace b ps t
    | .error e => [(p.name, .error e)]

end Pass

/-- The filter that says what `rule` says, or why there is none. A rule that needs no filter
is refused too. -/
def translate (b : Bindings) (rule : Text) : Except Refusal Text := do
  checkSupported rule
  checkBound b rule
  let filter ← Pass.runAll b Pass.all rule
  if filter.isEmpty then .error .vacuous else .ok filter

def translate? (b : Bindings) (rule : Text) : Option Text :=
  (translate b rule).toOption

end WhereFilter
