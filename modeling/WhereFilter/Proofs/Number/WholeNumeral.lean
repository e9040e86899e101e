import WhereFilter.Proofs.Number.Decimal

namespace WhereFilter

namespace Digits

/-- Digits are read as the number they stand for in base ten. -/
theorem value_eq_ofDigits (t : Text) :
    value t = Nat.ofDigits 10 (t.reverse.map fun c => c.toNat - '0'.toNat) := by
  induction t using List.reverseRecOn with
  | nil => rfl
  | append_singleton t c ih =>
    rw [value_append, ih, List.reverse_append, List.reverse_singleton, List.singleton_append,
      List.map_cons, Nat.ofDigits_cons]
    exact Nat.add_comm _ _

end Digits

namespace Binary64

theorem ofDecimal_whole (negative : Bool) (n : Nat) :
    ofDecimal ⟨negative, n, 0⟩ = ofRatio negative n 1 := by
  have hnumerator : (⟨negative, n, 0⟩ : Decimal).numerator = n := Nat.mul_one n
  have hdenominator : (⟨negative, n, 0⟩ : Decimal).denominator = 1 := rfl
  rw [ofDecimal_eq, hnumerator, hdenominator]

end Binary64

/-- An optional minus and one ASCII digit or more, leading zeros among them. -/
structure WholeNumeral where
  negative : Bool
  digits : Text
  ne_nil : digits ≠ []
  ascii : ∀ c ∈ digits, c.isDigit = true

namespace WholeNumeral

def text (w : WholeNumeral) : Text :=
  if w.negative then '-' :: w.digits else w.digits

/-- The number the digits stand for. -/
def magnitude (w : WholeNumeral) : Nat :=
  Nat.ofDigits 10 (w.digits.reverse.map fun c => c.toNat - '0'.toNat)

def value (w : WholeNumeral) : Int :=
  if w.negative then -w.magnitude else w.magnitude

variable (w : WholeNumeral)

theorem integer_read?_text : Integer.read? w.text = some w.value := by
  obtain ⟨negative, digits, hne, hascii⟩ := w
  have hall : digits.all Char.isDigit = true := List.all_eq_true.mpr hascii
  cases negative with
  | true => simp [text, value, magnitude, Integer.read?, hne, hall, Digits.value_eq_ofDigits]
  | false =>
    simp only [text, value, magnitude, Bool.false_eq_true, if_false, Integer.read?]
    split
    · exact absurd rfl hne
    · cases hascii '-' (by simp)
    · simp [hall, Digits.value_eq_ofDigits]

theorem decimal_read?_text : Decimal.read? w.text = some ⟨w.negative, w.magnitude, 0⟩ := by
  rw [magnitude, ← Digits.value_eq_ofDigits]
  exact Decimal.read?_digits w.negative w.ne_nil w.ascii

theorem binary64_read?_text :
    Binary64.read? w.text = some (.ofRatio w.negative w.magnitude 1) := by
  rw [Binary64.read?, w.decimal_read?_text]
  exact congrArg some (Binary64.ofDecimal_whole w.negative w.magnitude)

/-- The numeral that an integer is written as. -/
def ofInt (n : Int) : WholeNumeral :=
  ⟨n < 0, Digits.ofNat n.natAbs, Digits.ofNat_ne_nil _, Digits.isDigit_ofNat _⟩

theorem text_ofInt (n : Int) : (ofInt n).text = Integer.text n := by
  simp [text, ofInt, Integer.text]

theorem value_ofInt (n : Int) : (ofInt n).value = n := by
  have hread := (ofInt n).integer_read?_text
  rw [text_ofInt, Integer.read?_text] at hread
  exact (Option.some.inj hread).symm

end WholeNumeral

end WhereFilter
