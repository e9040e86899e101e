import WhereFilter.Number.Decimal

namespace WhereFilter

/-- The quotient's nearest natural number; a half goes to the even one. -/
def roundDiv (n d : Nat) : Nat :=
  let q := n / d
  let r := n % d
  if 2 * r < d then q else if d < 2 * r then q + 1 else q + q % 2

/-- The number `mantissa · 2 ^ scale / 2 ^ 1074`, in the one way it is written with 53 bits. -/
structure Magnitude where
  mantissa : Nat
  scale : Nat
  normal : mantissa < Nat.pow 2 53 ∧ scale ≤ 2045 ∧ (Nat.pow 2 52 ≤ mantissa ∨ scale = 0)
  deriving DecidableEq

namespace Magnitude

def zero : Magnitude :=
  ⟨0, 0, by decide⟩

def ofParts? (mantissa scale : Nat) : Option Magnitude :=
  if h : _ then some ⟨mantissa, scale, h⟩ else none

/-- The magnitude nearest to `n / d`; of two equally near the one with an even mantissa.
None if that is beyond the largest. -/
def nearest? (n d : Nat) : Option Magnitude :=
  let n := n * Nat.pow 2 1074
  let scale := (n / d).log2 - 52
  let mantissa := roundDiv n (d * Nat.pow 2 scale)
  if mantissa < Nat.pow 2 53 then ofParts? mantissa scale else ofParts? (Nat.pow 2 52) (scale + 1)

/-- Four times the magnitude, in units of the least one. -/
def quadruple (m : Magnitude) : Nat :=
  4 * m.mantissa * Nat.pow 2 m.scale

/-- What lies between `least` and `greatest` is nearest to `m`. Below a power of two the
neighbour is only half as far. -/
def least (m : Magnitude) : Nat :=
  if m.mantissa = Nat.pow 2 52 ∧ m.scale ≠ 0 then (4 * m.mantissa - 1) * Nat.pow 2 m.scale
  else (4 * m.mantissa - 2) * Nat.pow 2 m.scale

def greatest (m : Magnitude) : Nat :=
  (4 * m.mantissa + 2) * Nat.pow 2 m.scale

/-- Whether `c · 10 ^ n / 10 ^ 1074` reads back as `m`. A number halfway to a neighbour
does if the mantissa of `m` is even. -/
def covers (m : Magnitude) (n c : Nat) : Bool :=
  let x := c * Nat.pow 10 n * Nat.pow 2 1076
  let low := m.least * Nat.pow 10 1074
  let high := m.greatest * Nat.pow 10 1074
  c != 0 && if m.mantissa % 2 = 0 then low ≤ x && x ≤ high else low < x && x < high

/-- The multiple of `10 ^ n / 10 ^ 1074` that reads back as `m`, if there is one; of two
the nearer, or else the greater. -/
def multiple? (m : Magnitude) (n : Nat) : Option Nat :=
  let x := m.quadruple * Nat.pow 10 1074
  let unit := Nat.pow 10 n * Nat.pow 2 1076
  let c := x / unit
  match m.covers n c, m.covers n (c + 1) with
  | true, true => if 2 * (x % unit) < unit then some c else some (c + 1)
  | true, false => some c
  | false, true => some (c + 1)
  | false, false => none

/-- The value of the greatest number up to the given one that has a value, and that number; zero
has `last`. -/
def descend (value? : Nat → Option Nat) (last : Nat) : Nat → Nat × Nat
  | 0 => (last, 0)
  | n + 1 =>
    match value? (n + 1) with
    | some c => (c, n + 1)
    | none => descend value? last n

/-- The multiple of the greatest power of ten up to `10 ^ n / 10 ^ 1074` that has one, and
that power. The last power divides every magnitude. -/
def shortestFrom (m : Magnitude) (n : Nat) : Nat × Nat :=
  descend m.multiple? (m.quadruple * Nat.pow 10 1074 / Nat.pow 2 1076) n

/-- The fewest digits that read back. -/
def shortest (m : Magnitude) : Nat × Int :=
  let whole := m.quadruple / Nat.pow 2 1076
  let (c, n) := shortestFrom m ((Digits.ofNat whole).length + 1074)
  (c, (n : Int) - 1074)

end Magnitude

/-- A number of 64 bits: not a number at all, beyond all others, or finite. Zero has a
sign. -/
inductive Binary64
  | nan
  | infinite (negative : Bool)
  | finite (negative : Bool) (m : Magnitude)
  deriving DecidableEq

namespace Binary64

def ofRatio (negative : Bool) (n d : Nat) : Binary64 :=
  match Magnitude.nearest? n d with
  | some m => .finite negative m
  | none => .infinite negative

def ofInt (n : Int) : Binary64 :=
  ofRatio (n < 0) n.natAbs 1

/-- Decimals far out of range are decided by the place of their first digit. -/
def ofDecimal (d : Decimal) : Binary64 :=
  let first := (Digits.ofNat d.digits).length + d.exponent
  if d.digits = 0 ∨ first < -330 then .finite d.negative .zero
  else if 310 < first then .infinite d.negative
  else
    match d.exponent with
    | .ofNat e => ofRatio d.negative (d.digits * Nat.pow 10 e) 1
    | .negSucc e => ofRatio d.negative d.digits (Nat.pow 10 (e + 1))

/-- The fewest digits that read back, all written out. -/
def text : Binary64 → Text
  | .nan => "NaN".toList
  | .infinite negative => if negative then "-inf".toList else "inf".toList
  | .finite negative m =>
    if m.mantissa = 0 then Decimal.text ⟨negative, 0, 0⟩
    else
      let (digits, exponent) := m.shortest
      Decimal.text ⟨negative, digits, exponent⟩

/-- Besides decimals, a signed `inf`, `infinity` or `nan` in any case is a number. -/
def read? (s : Text) : Option Binary64 :=
  match Decimal.read? s with
  | some d => some (ofDecimal d)
  | none =>
    let (negative, name) := Decimal.sign s
    if Text.lower name = "nan".toList then some .nan
    else if Text.lower name = "inf".toList ∨ Text.lower name = "infinity".toList then
      some (.infinite negative)
    else none

/-- Nothing equals what is not a number, and zero equals zero whatever its sign. -/
def equals : Binary64 → Binary64 → Bool
  | .infinite s, .infinite t => s == t
  | .finite s m, .finite t n => m == n && (s == t || m.mantissa == 0)
  | _, _ => false

end Binary64

end WhereFilter
