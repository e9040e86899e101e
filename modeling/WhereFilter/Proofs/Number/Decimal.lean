import WhereFilter.Proofs.Number.Nearest
import WhereFilter.Proofs.Number.Numeral

namespace WhereFilter

namespace Digits

/-- A number is at least the power of ten its first digit stands for. -/
theorem pow_le_of_length_ofNat {n : Nat} (hn : n ≠ 0) {k : Nat} (hk : k < (ofNat n).length) :
    10 ^ k ≤ n := by
  fun_induction ofNat n generalizing k with
  | case1 n h =>
    obtain rfl : k = 0 := by simpa using hk
    exact Nat.pos_of_ne_zero hn
  | case2 n h ih =>
    cases k with
    | zero => exact Nat.pos_of_ne_zero hn
    | succ k =>
      have hk : k < (ofNat (n / 10)).length := by simpa using hk
      have hle : 10 ^ k ≤ n / 10 := ih (by omega) hk
      rw [pow_succ]
      omega

theorem lt_pow_length_ofNat (n : Nat) : n < 10 ^ (ofNat n).length := by
  fun_induction ofNat n with
  | case1 n h => exact h
  | case2 n h ih =>
    rw [List.length_append, List.length_singleton, pow_succ]
    omega

end Digits

namespace Decimal

/-- The decimal as a quotient. -/
def numerator (d : Decimal) : Nat :=
  d.digits * 10 ^ d.exponent.toNat

def denominator (d : Decimal) : Nat :=
  10 ^ (-d.exponent).toNat

theorem denominator_pos (d : Decimal) : 0 < d.denominator :=
  Nat.pow_pos (by decide)

/-- The decimal itself, without its sign. -/
def ratio (d : Decimal) : ℚ :=
  d.numerator / d.denominator

/-! A text of digits with a sign before it -/

variable {t : Text}

theorem sign_of_digit {c : Char} (hc : c.isDigit = true) (r : Text) :
    sign (c :: r) = (false, c :: r) := by
  unfold sign
  split
  · next h =>
    cases h
    cases hc
  · next h =>
    cases h
    cases hc
  · rfl

theorem sign_signed {c : Char} (hc : c.isDigit = true) (negative : Bool) (r : Text) :
    sign (if negative then '-' :: c :: r else c :: r) = (negative, c :: r) := by
  cases negative with
  | true => rfl
  | false => exact sign_of_digit hc r

theorem read?_digits (negative : Bool) (hne : t ≠ []) (ht : ∀ c ∈ t, c.isDigit = true) :
    read? (if negative then '-' :: t else t) = some ⟨negative, Digits.value t, 0⟩ := by
  obtain ⟨c, r, rfl⟩ := List.exists_cons_of_ne_nil hne
  have hwhole : (c :: r).takeWhile Char.isDigit = c :: r := List.takeWhile_eq_self_iff.mpr ht
  have hrest : (c :: r).dropWhile Char.isDigit = [] := List.dropWhile_eq_nil_iff.mpr ht
  rw [read?, sign_signed (ht c List.mem_cons_self)]
  simp [hwhole, hrest, exponent?]

theorem read?_fraction (negative : Bool) {u : Text} (hne : t ≠ [])
    (ht : ∀ c ∈ t, c.isDigit = true) (hu : ∀ c ∈ u, c.isDigit = true) :
    read? (if negative then '-' :: (t ++ '.' :: u) else t ++ '.' :: u) =
      some ⟨negative, Digits.value (t ++ u), -u.length⟩ := by
  obtain ⟨c, r, rfl⟩ := List.exists_cons_of_ne_nil hne
  have hwhole : ((c :: r) ++ '.' :: u).takeWhile Char.isDigit = c :: r := by
    rw [List.takeWhile_append_of_pos ht, List.takeWhile_cons_of_neg (by decide), List.append_nil]
  have hpoint : ((c :: r) ++ '.' :: u).dropWhile Char.isDigit = '.' :: u := by
    rw [List.dropWhile_append_of_pos ht, List.dropWhile_cons_of_neg (by decide)]
  have hfraction : u.takeWhile Char.isDigit = u := List.takeWhile_eq_self_iff.mpr hu
  have hrest : u.dropWhile Char.isDigit = [] := List.dropWhile_eq_nil_iff.mpr hu
  rw [read?, List.cons_append, sign_signed (ht c List.mem_cons_self), ← List.cons_append]
  simp only [hwhole, hpoint, hfraction, hrest]
  simp [exponent?]

/-- A decimal is read as it was written, with its zeros among the digits. -/
theorem read?_text (d : Decimal) :
    read? d.text = some ⟨d.negative, d.numerator, min d.exponent 0⟩ := by
  obtain ⟨negative, digits, exponent⟩ := d
  have hdigits := Digits.isDigit_ofNat digits
  have hne := Digits.ofNat_ne_nil digits
  cases exponent with
  | ofNat zeros =>
    have hread := read?_digits negative (by simp [hne]) (all_digits_zeros hdigits zeros).1
    rw [Digits.value_append_zeros, Digits.value_ofNat] at hread
    have hexponent : min (Int.ofNat zeros) 0 = 0 := min_eq_right (Int.natCast_nonneg zeros)
    dsimp only
    rw [hexponent]
    exact hread
  | negSucc n =>
    obtain ⟨whole, fraction, htext, hwhole, hlen, hdigits, hdigits', hvalue⟩ :=
      text_negSucc negative digits n
    have hread := read?_fraction negative hwhole hdigits hdigits'
    have hnumerator : (⟨negative, digits, Int.negSucc n⟩ : Decimal).numerator = digits :=
      Nat.mul_one digits
    rw [hvalue, hlen] at hread
    rw [htext, hread, hnumerator]
    rfl

end Decimal

namespace Binary64

/-- The definition as one equation of functions: at arguments of its own, unfolding it would
set out to compute the magnitude. -/
theorem ofRatio_eq : ofRatio = fun negative n d =>
    match Magnitude.nearest? n d with
    | some m => .finite negative m
    | none => .infinite negative := by
  delta ofRatio
  rfl

theorem ofRatio_of_some {negative : Bool} {n d : Nat} {m : Magnitude}
    (h : Magnitude.nearest? n d = some m) : ofRatio negative n d = .finite negative m := by
  rw [ofRatio_eq]
  beta_reduce
  rw [h]

theorem ofRatio_of_none {negative : Bool} {n d : Nat} (h : Magnitude.nearest? n d = none) :
    ofRatio negative n d = .infinite negative := by
  rw [ofRatio_eq]
  beta_reduce
  rw [h]

/-- Too small for any magnitude but zero, as the first digit shows. -/
theorem ofRatio_of_small {d : Decimal} (h : (Digits.ofNat d.digits).length + d.exponent < -330) :
    ofRatio d.negative d.numerator d.denominator = .finite d.negative .zero := by
  have hunit : 2 * Magnitude.unitsOfOne ≤ 10 ^ 330 := by decide +kernel
  refine ofRatio_of_some (Magnitude.nearest?_eq_zero d.denominator_pos ?_)
  calc 2 * (d.numerator * Magnitude.unitsOfOne)
      = 2 * Magnitude.unitsOfOne * (d.digits * 10 ^ d.exponent.toNat) := by
        rw [Decimal.numerator]
        ring
    _ ≤ 10 ^ 330 * (10 ^ (Digits.ofNat d.digits).length * 10 ^ d.exponent.toNat) :=
        Nat.mul_le_mul hunit (Nat.mul_le_mul_right _ (Digits.lt_pow_length_ofNat _).le)
    _ = 10 ^ (330 + ((Digits.ofNat d.digits).length + d.exponent.toNat)) := by
        rw [← pow_add, ← pow_add]
    _ ≤ d.denominator := Nat.pow_le_pow_right (by decide) (by omega)

/-- Too large for any magnitude, as the first digit shows. -/
theorem ofRatio_of_large {d : Decimal} (hd : d.digits ≠ 0)
    (h : 310 < (Digits.ofNat d.digits).length + d.exponent) :
    ofRatio d.negative d.numerator d.denominator = .infinite d.negative := by
  have hlimit : Magnitude.limit ≤ 10 ^ 310 := by decide +kernel
  have hlength := List.length_pos_iff.mpr (Digits.ofNat_ne_nil d.digits)
  refine ofRatio_of_none (Magnitude.nearest?_eq_none d.denominator_pos ?_)
  calc Magnitude.limit * d.denominator
      ≤ 10 ^ 310 * 10 ^ (-d.exponent).toNat := Nat.mul_le_mul_right _ hlimit
    _ = 10 ^ (310 + (-d.exponent).toNat) := (pow_add _ _ _).symm
    _ ≤ 10 ^ ((Digits.ofNat d.digits).length - 1 + d.exponent.toNat) :=
        Nat.pow_le_pow_right (by decide) (by omega)
    _ = 10 ^ ((Digits.ofNat d.digits).length - 1) * 10 ^ d.exponent.toNat := pow_add _ _ _
    _ ≤ d.numerator :=
        Nat.mul_le_mul_right _ (Digits.pow_le_of_length_ofNat hd (by omega))

theorem ofRatio_of_zero {d : Decimal} (hd : d.digits = 0) :
    ofRatio d.negative d.numerator d.denominator = .finite d.negative .zero := by
  have hnumerator : d.numerator = 0 := by rw [Decimal.numerator, hd, Nat.zero_mul]
  rw [hnumerator]
  refine ofRatio_of_some (Magnitude.nearest?_eq_zero d.denominator_pos ?_)
  rw [Nat.zero_mul]
  exact Nat.zero_le _

/-- The short cuts for decimals far out of range agree with rounding them. -/
theorem ofDecimal_eq (d : Decimal) :
    ofDecimal d = ofRatio d.negative d.numerator d.denominator := by
  unfold ofDecimal
  dsimp only
  split_ifs with hsmall hlarge
  · exact (hsmall.elim ofRatio_of_zero ofRatio_of_small).symm
  · exact (ofRatio_of_large (fun hzero => hsmall (.inl hzero)) hlarge).symm
  · obtain ⟨negative, digits, exponent⟩ := d
    cases exponent with
    | ofNat e =>
      have hdenominator : 1 = 10 ^ (-(e : Int)).toNat := by
        rw [Int.toNat_of_nonpos (by omega), Nat.pow_zero]
      exact congrArg (ofRatio negative (digits * Nat.pow 10 e)) hdenominator
    | negSucc e => exact congrArg (ofRatio negative · (10 ^ (e + 1))) (Nat.mul_one digits).symm

/-- A decimal is as near to the number it is taken for as to any other. -/
theorem ofDecimal_closest {d : Decimal} {negative : Bool} {m : Magnitude}
    (h : ofDecimal d = .finite negative m) : d.negative = negative ∧
      ∀ k : Magnitude, |d.ratio - m.value| ≤ |d.ratio - k.value| ∧
        (k ≠ m → |d.ratio - m.value| = |d.ratio - k.value| → m.mantissa % 2 = 0) := by
  rw [ofDecimal_eq] at h
  cases hnearest : Magnitude.nearest? d.numerator d.denominator with
  | none =>
    rw [ofRatio_of_none hnearest] at h
    cases h
  | some m' =>
    rw [ofRatio_of_some hnearest] at h
    cases h
    exact ⟨rfl, Magnitude.nearest?_closest d.denominator_pos hnearest⟩

end Binary64

end WhereFilter
