import WhereFilter.Number.Digits

namespace WhereFilter

/-- The number `digits · 10 ^ exponent`, below zero if `negative`. -/
structure Decimal where
  negative : Bool
  digits : Nat
  exponent : Int
  deriving Repr, DecidableEq

namespace Decimal

/-- Every digit is written out; there is never an exponent. -/
def text (d : Decimal) : Text :=
  let digits := Digits.ofNat d.digits
  let unsigned :=
    match d.exponent with
    | .ofNat zeros => digits ++ List.replicate zeros '0'
    | .negSucc n =>
      let padded := List.replicate (n + 2 - digits.length) '0' ++ digits
      let whole := padded.length - (n + 1)
      padded.take whole ++ '.' :: padded.drop whole
  if d.negative then '-' :: unsigned else unsigned

def sign : Text → Bool × Text
  | '-' :: r => (true, r)
  | '+' :: r => (false, r)
  | r => (false, r)

/-- The exponent that ends a numeral; zero if nothing is left. -/
def exponent? : Text → Option Int
  | [] => some 0
  | c :: r =>
    if c = 'e' ∨ c = 'E' then
      let (negative, ds) := sign r
      if ds.isEmpty || !ds.all Char.isDigit then none
      else if negative then some (-Digits.value ds) else some (Digits.value ds)
    else none

/-- Reads an optional sign, digits with an optional point and at least one digit, and an
optional exponent. -/
def read? (s : Text) : Option Decimal :=
  let (negative, s) := sign s
  let whole := s.takeWhile Char.isDigit
  let (fraction, s) :=
    match s.dropWhile Char.isDigit with
    | '.' :: r => (r.takeWhile Char.isDigit, r.dropWhile Char.isDigit)
    | r => ([], r)
  if whole.isEmpty && fraction.isEmpty then none
  else (exponent? s).map fun e => ⟨negative, Digits.value (whole ++ fraction), e - fraction.length⟩

end Decimal

end WhereFilter
