import WhereFilter.Json.Basic

namespace WhereFilter

namespace Json

def isSpace (c : Char) : Bool :=
  c == ' ' || c == '\t' || c == '\n' || c == '\r'

def skipSpace (s : Text) : Text :=
  s.dropWhile isSpace

def hexDigit? (c : Char) : Option Nat :=
  if c.isDigit then some (c.toNat - 48)
  else if 'a' ≤ c ∧ c ≤ 'f' then some (c.toNat - 87)
  else if 'A' ≤ c ∧ c ≤ 'F' then some (c.toNat - 55)
  else none

def hexValue? (ds : Text) : Option Nat :=
  ds.foldlM (fun v c => (hexDigit? c).map (16 * v + ·)) 0

def escaped? : Char → Option Nat
  | '"' => some 0x22
  | '\\' => some 0x5c
  | '/' => some 0x2f
  | 'b' => some 8
  | 'f' => some 12
  | 'n' => some 10
  | 'r' => some 13
  | 't' => some 9
  | _ => none

/-- The code points and halves of code points up to the closing quote. -/
def units? : Text → Option (List Nat × Text)
  | [] => none
  | '"' :: r => some ([], r)
  | '\\' :: 'u' :: a :: b :: c :: d :: r => do
    let n ← hexValue? [a, b, c, d]
    let (ns, rest) ← units? r
    some (n :: ns, rest)
  | '\\' :: e :: r => do
    let n ← escaped? e
    let (ns, rest) ← units? r
    some (n :: ns, rest)
  | c :: r => do
    let (ns, rest) ← units? r
    if c.toNat < 0x20 then none else some (c.toNat :: ns, rest)

def isHighHalf (n : Nat) : Bool := 0xd800 ≤ n && n ≤ 0xdbff

def isLowHalf (n : Nat) : Bool := 0xdc00 ≤ n && n ≤ 0xdfff

/-- Puts halves together; one that stands alone is no character. -/
def ofUnits? : List Nat → Option Text
  | [] => some []
  | h :: l :: r =>
    if isHighHalf h then
      if isLowHalf l then
        (ofUnits? r).map (Char.ofNat (0x10000 + (h - 0xd800) * 0x400 + (l - 0xdc00)) :: ·)
      else none
    else if isLowHalf h then none
    else (ofUnits? (l :: r)).map (Char.ofNat h :: ·)
  | [n] => if isHighHalf n || isLowHalf n then none else some [Char.ofNat n]

def string? (s : Text) : Option (Text × Text) := do
  let (units, rest) ← units? s
  let t ← ofUnits? units
  some (t, rest)

/-- An exponent needs a digit; without one there is no exponent. -/
def exponentPart? : Text → Option (Option Int × Text)
  | c :: r =>
    if c = 'e' ∨ c = 'E' then
      let (negative, s) := Decimal.sign r
      match s.takeWhile Char.isDigit with
      | [] => none
      | ds =>
        let n : Int := Digits.value ds
        some (some (if negative then -n else n), s.dropWhile Char.isDigit)
    else some (none, c :: r)
  | [] => some (none, [])

def fractionPart? : Text → Option (Option Text × Text)
  | '.' :: r =>
    match r.takeWhile Char.isDigit with
    | [] => none
    | ds => some (some ds, r.dropWhile Char.isDigit)
  | r => some (none, r)

/-- Reads a number; there is none for a numeral beyond all finite numbers. -/
def number (s : Text) : Option (Json × Text) := do
  let (negative, s) := match s with
    | '-' :: r => (true, r)
    | r => (false, r)
  let whole := s.takeWhile Char.isDigit
  if whole.isEmpty || (whole.head? == some '0' && 1 < whole.length) then none
  let (fraction, s) ← fractionPart? (s.dropWhile Char.isDigit)
  let (exponent, s) ← exponentPart? s
  let n : Int := if negative then -Digits.value whole else Digits.value whole
  let plain := fraction.isNone && exponent.isNone && !(negative && n == 0)
  if plain && -9223372036854775808 ≤ n && n < 18446744073709551616 then some (.int n, s)
  else
    let fraction := fraction.getD []
    match Binary64.ofDecimal
        ⟨negative, Digits.value (whole ++ fraction), exponent.getD 0 - fraction.length⟩ with
    | .finite sign m => some (.real (.finite sign m), s)
    | _ => none

mutual

/-- Each value, item and member uses up one of `fuel`, and at least one character. -/
def value? (fuel : Nat) (s : Text) : Option (Json × Text) :=
  match fuel, skipSpace s with
  | 0, _ => none
  | _ + 1, [] => none
  | fuel + 1, '[' :: r =>
    match skipSpace r with
    | ']' :: rest => some (.arr [], rest)
    | _ => (items? fuel r).map fun (js, rest) => (.arr js, rest)
  | fuel + 1, '\x7b' :: r =>
    match skipSpace r with
    | '\x7d' :: rest => some (.obj [], rest)
    | _ => (members? fuel r).map fun (ms, rest) => (ofMembers ms, rest)
  | _ + 1, '"' :: r => (string? r).map fun (t, rest) => (.str t, rest)
  | _ + 1, 'n' :: r => (Text.after? "ull".toList r).map (.null, ·)
  | _ + 1, 't' :: r => (Text.after? "rue".toList r).map (.bool true, ·)
  | _ + 1, 'f' :: r => (Text.after? "alse".toList r).map (.bool false, ·)
  | _ + 1, s => number s

def items? (fuel : Nat) (s : Text) : Option (List Json × Text) :=
  match fuel with
  | 0 => none
  | fuel + 1 =>
    match value? fuel s with
    | none => none
    | some (j, s) =>
      match skipSpace s with
      | ',' :: r => (items? fuel r).map fun (js, rest) => (j :: js, rest)
      | ']' :: rest => some ([j], rest)
      | _ => none

def members? (fuel : Nat) (s : Text) : Option (List (Text × Json) × Text) :=
  match fuel, skipSpace s with
  | 0, _ => none
  | fuel + 1, '"' :: r =>
    match string? r with
    | none => none
    | some (name, s) =>
      match skipSpace s with
      | ':' :: r =>
        match value? fuel r with
        | none => none
        | some (j, s) =>
          match skipSpace s with
          | ',' :: r => (members? fuel r).map fun (ms, rest) => ((name, j) :: ms, rest)
          | '\x7d' :: rest => some ([(name, j)], rest)
          | _ => none
      | _ => none
  | _ + 1, _ => none

end

/-- The value that `s` is the text of, from end to end. -/
def read? (s : Text) : Option Json :=
  match value? (2 * s.length + 1) s with
  | some (j, rest) => if (skipSpace rest).isEmpty then some j else none
  | none => none

end Json

end WhereFilter
