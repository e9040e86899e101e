import WhereFilter.Rule.Reading
import WhereFilter.Rule.Refusal

namespace WhereFilter

/-- What is left of a filter without its markers. A `compound` text has a connective
outside parentheses. -/
inductive Verdict
  | always
  | never
  | filter (text : Text) (compound : Bool)
  deriving Repr, DecidableEq

namespace Verdict

def either : Verdict → Verdict → Verdict
  | .always, _ => .always
  | _, .always => .always
  | .never, v => v
  | v, .never => v
  | .filter s _, .filter t _ => .filter (s ++ " or ".toList ++ t) true

def both : Verdict → Verdict → Verdict
  | .never, _ => .never
  | _, .never => .never
  | .always, v => v
  | v, .always => v
  | .filter s _, .filter t _ => .filter (s ++ " and ".toList ++ t) true

/-- Parentheses stay only around a compound text. -/
def group : Verdict → Verdict
  | .filter s true => .filter ('(' :: s ++ [')']) false
  | v => v

end Verdict

def Reading.verdict : Reading → Verdict
  | .atom ls => .filter (slice ls) false
  | .marker true => .always
  | .marker false => .never
  | .group r => r.verdict.group
  | .either l r => l.verdict.either r.verdict
  | .both l r => l.verdict.both r.verdict

/-- Folds markers away. A text without any stays as it is, one that always holds keeps a
marker of its own, and one that never holds is refused. -/
def foldMarkers (s : Text) : Except Refusal Text :=
  match scan s with
  | .error e => .error (.malformed e)
  | .ok found =>
    if hasMarker found.lexemes then
      match (Reading.ofLexemes found.lexemes).verdict with
      | .filter t _ => .ok t
      | .never => .error .vacuous
      | .always => .ok "1 eq 1".toList
    else .ok s

end WhereFilter
