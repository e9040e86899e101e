import WhereFilter.Token.Scan
import WhereFilter.Number.Digits

namespace WhereFilter

def Unclosed.message (e : Unclosed) : Text :=
  "Unterminated string literal starting at ".toList ++ Digits.ofNat e.offset

/-- Why a rule has no filter. -/
inductive Refusal
  /-- The filter language has nothing for `phrase`. -/
  | unsupported (phrase : Text)
  | unbound (name : Text)
  /-- No branch of the rule can hold. -/
  | vacuous
  | malformed (e : Unclosed)
  deriving Repr, DecidableEq

namespace Refusal

def message : Refusal → Text
  | .unsupported phrase => "unsupported construct: ".toList ++ phrase
  | .unbound name => "no binding for context variable @".toList ++ name ++ ['@']
  | .vacuous => "no filter left after simplification".toList
  | .malformed e => "malformed fragment: ".toList ++ e.message

end Refusal

end WhereFilter
