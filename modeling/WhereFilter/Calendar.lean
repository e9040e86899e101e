import WhereFilter.Number.Digits

namespace WhereFilter

/-- A day of the Gregorian calendar, carried on before it began. -/
structure Date where
  year : Int
  month : Nat
  day : Nat
  deriving Repr, DecidableEq

namespace Date

/-- The day `n` days after the first of January 1970. Years are counted from March, so a
leap day ends its year, in rounds of 400 years or 146097 days. -/
def ofDays (n : Int) : Date :=
  let n := n + 719468
  let round := n / 146097
  let dayOfRound := (n % 146097).toNat
  let yearOfRound :=
    (dayOfRound - dayOfRound / 1460 + dayOfRound / 36524 - dayOfRound / 146096) / 365
  let dayOfYear := dayOfRound - (365 * yearOfRound + yearOfRound / 4 - yearOfRound / 100)
  let march := (5 * dayOfYear + 2) / 153
  let day := dayOfYear - (153 * march + 2) / 5 + 1
  let month := if march < 10 then march + 3 else march - 9
  let year := round * 400 + yearOfRound
  ⟨if month ≤ 2 then year + 1 else year, month, day⟩

/-- The digits of `n` with zeros in front up to `width`. -/
def padded (width n : Nat) : Text :=
  let digits := Digits.ofNat n
  List.replicate (width - digits.length) '0' ++ digits

/-- Years have four digits; a sign marks those that are negative or need more. -/
def text (d : Date) : Text :=
  let sign := if d.year < 0 then ['-'] else if 9999 < d.year then ['+'] else []
  sign ++ padded 4 d.year.natAbs ++ '-' :: padded 2 d.month ++ '-' :: padded 2 d.day

end Date

/-- A second since 1970 began, and the part of it that has passed. A leap second counts as
part of the one before it, from the thousandth million of nanoseconds on. -/
structure Instant where
  seconds : Int
  nanoseconds : Nat
  deriving Repr, DecidableEq

namespace Instant

def date (i : Instant) : Date :=
  .ofDays (i.seconds / 86400)

/-- Written to the whole second; a leap second is number 60. -/
def text (i : Instant) : Text :=
  let s := (i.seconds % 86400).toNat
  let second := s % 60 + i.nanoseconds / 1000000000
  i.date.text ++ 'T' :: Date.padded 2 (s / 3600) ++ ':' :: Date.padded 2 (s / 60 % 60) ++
    ':' :: Date.padded 2 second ++ ['Z']

/-- The second that has begun; a leap second stays one. -/
def wholeSecond (i : Instant) : Instant :=
  ⟨i.seconds, i.nanoseconds - i.nanoseconds % 1000000000⟩

/-- Nothing of the second has passed. -/
def IsWhole (i : Instant) : Prop :=
  i.nanoseconds % 1000000000 = 0

theorem isWhole_wholeSecond (i : Instant) : i.wholeSecond.IsWhole := by
  simp only [IsWhole, wholeSecond]
  omega

end Instant

end WhereFilter
