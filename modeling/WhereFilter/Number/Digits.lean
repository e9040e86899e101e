import WhereFilter.Text.Basic

namespace WhereFilter

namespace Digits

/-- Decimal digits, without leading zeros except for zero itself. -/
def ofNat (n : Nat) : Text :=
  if n < 10 then [Char.ofNat (48 + n)] else ofNat (n / 10) ++ [Char.ofNat (48 + n % 10)]

def value (t : Text) : Nat :=
  t.foldl (fun v c => 10 * v + (c.toNat - 48)) 0

theorem toNat_digit {d : Nat} (h : d < 10) : (Char.ofNat (48 + d)).toNat = 48 + d := by
  revert d
  decide

theorem isDigit_digit {d : Nat} (h : d < 10) : (Char.ofNat (48 + d)).isDigit = true := by
  revert d
  decide

theorem value_append (s : Text) (c : Char) : value (s ++ [c]) = 10 * value s + (c.toNat - 48) := by
  simp [value]

@[simp] theorem value_ofNat (n : Nat) : value (ofNat n) = n := by
  fun_induction ofNat n with
  | case1 n h => simp [value, toNat_digit h]
  | case2 n h ih =>
    rw [value_append, ih, toNat_digit (Nat.mod_lt _ (by decide))]
    omega

theorem isDigit_ofNat (n : Nat) : ∀ c ∈ ofNat n, c.isDigit = true := by
  fun_induction ofNat n with
  | case1 n h => simpa using isDigit_digit h
  | case2 n h ih =>
    intro c hc
    rcases List.mem_append.mp hc with hc | hc
    · exact ih c hc
    · rw [List.mem_singleton.mp hc]
      exact isDigit_digit (Nat.mod_lt _ (by decide))

theorem ofNat_ne_nil (n : Nat) : ofNat n ≠ [] := by
  unfold ofNat
  split <;> simp

end Digits

namespace Integer

def text (n : Int) : Text :=
  if n < 0 then '-' :: Digits.ofNat n.natAbs else Digits.ofNat n.natAbs

/-- The value of an optional minus and one digit or more. -/
def read? (t : Text) : Option Int :=
  match t with
  | [] => none
  | '-' :: ds => if !ds.isEmpty && ds.all Char.isDigit then some (-Digits.value ds) else none
  | ds => if ds.all Char.isDigit then some (Digits.value ds) else none

/-- Integers are kept only as far as 64 bits hold them. -/
def fits (n : Int) : Bool :=
  -9223372036854775808 ≤ n && n ≤ 9223372036854775807

theorem read?_text (n : Int) : read? (text n) = some n := by
  have hall := List.all_eq_true.mpr (Digits.isDigit_ofNat n.natAbs)
  have hne := Digits.ofNat_ne_nil n.natAbs
  unfold text
  split
  · simp only [read?, hall, Bool.and_true, Bool.not_eq_eq_eq_not, Bool.not_true,
      List.isEmpty_eq_false_iff, hne, ne_eq, not_false_eq_true, ↓reduceIte, Digits.value_ofNat,
      Option.some.injEq]
    omega
  · unfold read?
    split
    · next h => exact absurd h hne
    · next ds h =>
      have := Digits.isDigit_ofNat n.natAbs '-' (by simp [h])
      simp at this
    · simp only [hall, ↓reduceIte, Digits.value_ofNat, Option.some.injEq]
      omega

end Integer

end WhereFilter
