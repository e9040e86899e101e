import WhereFilter.Number.Binary64
import WhereFilter.Proofs.Token.Munch

namespace WhereFilter

open Token

theorem all_digits_zeros {t : Text} (h : ∀ c ∈ t, c.isDigit = true) (n : Nat) :
    (∀ c ∈ t ++ List.replicate n '0', c.isDigit = true) ∧
      ∀ c ∈ List.replicate n '0' ++ t, c.isDigit = true := by
  have hzero : ∀ c ∈ List.replicate n '0', c.isDigit = true := by
    intro c hc
    rw [List.eq_of_mem_replicate hc]
    rfl
  constructor
  · intro c hc
    rcases List.mem_append.mp hc with hc | hc
    · exact h c hc
    · exact hzero c hc
  · intro c hc
    rcases List.mem_append.mp hc with hc | hc
    · exact hzero c hc
    · exact h c hc

namespace Digits

theorem value_append_zeros (t : Text) (k : Nat) :
    value (t ++ List.replicate k '0') = value t * 10 ^ k := by
  induction k with
  | zero => simp
  | succ k ih =>
    have hzero : '0'.toNat - 48 = 0 := rfl
    rw [List.replicate_succ', ← List.append_assoc, value_append, ih, hzero, Nat.pow_succ,
      Nat.add_zero, Nat.mul_comm 10, Nat.mul_assoc]

theorem value_zeros_append (k : Nat) (t : Text) : value (List.replicate k '0' ++ t) = value t := by
  induction t using List.reverseRecOn with
  | nil =>
    have hzeros := value_append_zeros [] k
    rw [List.nil_append] at hzeros
    rw [List.append_nil, hzeros]
    exact Nat.zero_mul _
  | append_singleton t c ih => rw [← List.append_assoc, value_append, value_append, ih]

end Digits

namespace Decimal

/-- With an exponent below zero a decimal is written with as many digits behind a point. -/
theorem text_negSucc (negative : Bool) (digits n : Nat) : ∃ whole fraction : Text,
    text ⟨negative, digits, .negSucc n⟩ = (if negative then '-' :: (whole ++ '.' :: fraction)
      else whole ++ '.' :: fraction) ∧
    whole ≠ [] ∧ fraction.length = n + 1 ∧ (∀ c ∈ whole, c.isDigit = true) ∧
    (∀ c ∈ fraction, c.isDigit = true) ∧ Digits.value (whole ++ fraction) = digits := by
  let padded := List.replicate (n + 2 - (Digits.ofNat digits).length) '0' ++ Digits.ofNat digits
  let whole := padded.length - (n + 1)
  have hall : ∀ c ∈ padded, c.isDigit = true :=
    (all_digits_zeros (Digits.isDigit_ofNat digits) _).2
  have hlen : n + 2 ≤ padded.length := by
    simp only [padded, List.length_append, List.length_replicate]
    omega
  refine ⟨padded.take whole, padded.drop whole, rfl, ?_, ?_,
    fun c hc => hall c (List.mem_of_mem_take hc), fun c hc => hall c (List.mem_of_mem_drop hc), ?_⟩
  · apply List.ne_nil_of_length_pos
    rw [List.length_take]
    omega
  · rw [List.length_drop]
    omega
  · rw [List.take_append_drop, Digits.value_zeros_append, Digits.value_ofNat]

/-- A decimal is written as a number with a minus before it or not. -/
theorem text_numeral (d : Decimal) :
    ∃ n, Numeral n ∧ d.text = if d.negative then '-' :: n else n := by
  obtain ⟨negative, digits, exponent⟩ := d
  cases exponent with
  | ofNat zeros =>
    have hall := (all_digits_zeros (Digits.isDigit_ofNat digits) zeros).1
    exact ⟨_, .whole (by simp [Digits.ofNat_ne_nil]) hall, rfl⟩
  | negSucc n =>
    obtain ⟨whole, fraction, htext, hwhole, hlen, hdigits, hdigits', -⟩ :=
      text_negSucc negative digits n
    have hfraction : fraction ≠ [] := List.ne_nil_of_length_pos (by omega)
    exact ⟨_, .fraction hwhole hdigits hfraction hdigits', htext⟩

end Decimal

/-- A finite number is written as a decimal. -/
theorem Binary64.text_decimal (negative : Bool) (m : Magnitude) :
    ∃ digits exponent, (Binary64.finite negative m).text = Decimal.text ⟨negative, digits, exponent⟩ := by
  rw [Binary64.text]
  -- the digits themselves are far too long to work out
  generalize m.shortest = s
  obtain ⟨digits, exponent⟩ := s
  by_cases hm : m.mantissa = 0
  · rw [if_pos hm]
    exact ⟨0, 0, rfl⟩
  · rw [if_neg hm]
    exact ⟨digits, exponent, rfl⟩

/-- A finite number is written as a number with a minus before it or not. -/
theorem Binary64.text_numeral (negative : Bool) (m : Magnitude) :
    ∃ n, Numeral n ∧ (Binary64.finite negative m).text = if negative then '-' :: n else n := by
  obtain ⟨digits, exponent, h⟩ := Binary64.text_decimal negative m
  rw [h]
  exact Decimal.text_numeral ⟨negative, digits, exponent⟩

end WhereFilter
