import WhereFilter.Proofs.Number.Decimal

namespace WhereFilter

namespace Magnitude

/-! What is rounded to a magnitude -/

section

variable {M S x a b d : Nat}

/-- Between two numbers that are rounded to a magnitude lie no others. -/
theorem Between.convex (ha : Between M S a d) (hb : Between M S b d) (hax : a ≤ x) (hxb : x ≤ b) :
    Between M S x d := by
  have hlow := ha.low
  have hhigh := hb.high
  refine ⟨by omega, by omega, fun he => ?_⟩
  rcases he with he | he
  · exact ha.even (.inl (by omega))
  · exact hb.even (.inr (by omega))

/-- A magnitude is rounded to itself. -/
theorem between_self (hd : 0 < d) (M S : Nat) : Between M S (M * 2 ^ S * d) d := by
  have hpos : 0 < d * 2 ^ S := Nat.mul_pos hd (Nat.two_pow_pos S)
  have hx : M * 2 ^ S * d = M * (d * 2 ^ S) := by ring
  rw [hx]
  constructor
  · rw [lowest_mul]
    exact Nat.sub_le _ _
  · rw [highest_mul]
    omega
  · rw [lowest_mul, highest_mul]
    intro he
    rcases Nat.eq_zero_or_pos M with rfl | hM
    · rfl
    · have hle : 1 * (d * 2 ^ S) ≤ M * (d * 2 ^ S) := Nat.mul_le_mul_right _ hM
      split_ifs at he <;> omega

end

/-- One, in units of the least power of ten that divides every magnitude. -/
@[irreducible]
def tens : Nat :=
  Nat.pow 10 1074

theorem tens_eq : Nat.pow 10 1074 = tens := by
  unfold tens
  rfl

theorem tens_pos : 0 < tens :=
  pos_of_pow_eq (by decide) tens_eq

theorem unitsOfOne_dvd_tens : unitsOfOne ∣ tens := by
  decide +kernel

theorem four_mul_unitsOfOne : Nat.pow 2 1076 = 4 * unitsOfOne := by
  decide +kernel

theorem pow_add_of_eq {e t : Nat} (h : Nat.pow 10 e = t) (k : Nat) : 10 ^ (k + e) = 10 ^ k * t := by
  rw [pow_add, ← h, Nat.pow_eq]

variable {m : Magnitude} {n c : Nat}

/-- Both ends belong to a magnitude with an even mantissa, and none to one with an odd one. -/
theorem covers_iff : m.covers n c = true ↔ c ≠ 0 ∧ m.Nearest (c * 10 ^ n) tens := by
  have hnearest : m.Nearest (c * 10 ^ n) tens ↔
      m.least * tens ≤ 4 * (c * 10 ^ n * unitsOfOne) ∧
      4 * (c * 10 ^ n * unitsOfOne) ≤ m.greatest * tens ∧
      (4 * (c * 10 ^ n * unitsOfOne) = m.least * tens ∨
        4 * (c * 10 ^ n * unitsOfOne) = m.greatest * tens → m.mantissa % 2 = 0) :=
    ⟨fun h => ⟨h.low, h.high, h.even⟩, fun h => ⟨h.1, h.2.1, h.2.2⟩⟩
  have hx : c * 10 ^ n * (4 * unitsOfOne) = 4 * (c * 10 ^ n * unitsOfOne) := by ring
  rw [hnearest, covers, four_mul_unitsOfOne, tens_eq, Nat.pow_eq, hx]
  split_ifs with heven
  · simp [heven]
  · simp only [heven, imp_false, not_or, Bool.and_eq_true, bne_iff_ne, decide_eq_true_eq]
    omega

theorem quadruple_eq (m : Magnitude) : m.quadruple = 4 * m.units := by
  rw [quadruple, units, Nat.pow_eq, Nat.mul_assoc]

theorem nearest_self (m : Magnitude) : m.Nearest m.units unitsOfOne :=
  between_self unitsOfOne_pos m.mantissa m.scale

/-- The numerator of the multiple of `10 ^ n / 10 ^ 1074` right below the magnitude. -/
def floorAt (m : Magnitude) (n : Nat) : Nat :=
  m.units * tens / (10 ^ n * unitsOfOne)

theorem floorAt_bounds (m : Magnitude) (n : Nat) :
    m.floorAt n * 10 ^ n * unitsOfOne ≤ m.units * tens ∧
      m.units * tens < (m.floorAt n + 1) * 10 ^ n * unitsOfOne := by
  have hpos : 0 < 10 ^ n * unitsOfOne := Nat.mul_pos (Nat.pow_pos (by decide)) unitsOfOne_pos
  rw [Nat.mul_assoc, Nat.mul_assoc]
  exact ⟨Nat.div_mul_le_self _ _, Nat.lt_mul_of_div_lt (Nat.lt_succ_self _) hpos⟩

/-- The definition as one equation of functions: at arguments of its own, unfolding it would set
out to compute the products. -/
theorem multiple?_def : multiple? = fun m n =>
    let x := m.quadruple * Nat.pow 10 1074
    let unit := Nat.pow 10 n * Nat.pow 2 1076
    let c := x / unit
    match m.covers n c, m.covers n (c + 1) with
    | true, true => if 2 * (x % unit) < unit then some c else some (c + 1)
    | true, false => some c
    | false, true => some (c + 1)
    | false, false => none := by
  delta multiple?
  rfl

/-- One of the two multiples around the magnitude is taken, if one reads back. -/
theorem multiple?_eq (m : Magnitude) (n : Nat) : ∃ lower : Bool, m.multiple? n =
    match m.covers n (m.floorAt n), m.covers n (m.floorAt n + 1) with
    | true, true => if lower then some (m.floorAt n) else some (m.floorAt n + 1)
    | true, false => some (m.floorAt n)
    | false, true => some (m.floorAt n + 1)
    | false, false => none := by
  rw [multiple?_def]
  beta_reduce
  generalize m.covers n = f
  generalize hx : m.quadruple * Nat.pow 10 1074 = x
  generalize hu : Nat.pow 10 n * Nat.pow 2 1076 = unit
  have hfloor : x / unit = m.floorAt n := by
    rw [← hx, ← hu, tens_eq, four_mul_unitsOfOne, Nat.pow_eq, quadruple_eq, floorAt, Nat.mul_assoc,
      Nat.mul_left_comm (10 ^ n), Nat.mul_div_mul_left _ _ (by decide)]
  dsimp only
  rw [hfloor]
  exact ⟨decide (2 * (x % unit) < unit), by simp only [decide_eq_true_eq]⟩

theorem covers_of_multiple? (h : m.multiple? n = some c) : m.covers n c = true := by
  obtain ⟨lower, heq⟩ := multiple?_eq m n
  rw [heq] at h
  cases lower <;> split at h <;> cases h <;> assumption

theorem multiple?_eq_none : m.multiple? n = none ↔
    m.covers n (m.floorAt n) = false ∧ m.covers n (m.floorAt n + 1) = false := by
  obtain ⟨lower, heq⟩ := multiple?_eq m n
  rw [heq]
  cases m.covers n (m.floorAt n) <;> cases m.covers n (m.floorAt n + 1) <;> cases lower <;> simp

/-- No multiple is taken only if none reads back. -/
theorem not_nearest_of_multiple? (h : m.multiple? n = none) (hc : c ≠ 0) :
    ¬ m.Nearest (c * 10 ^ n) tens := by
  intro hnearest
  obtain ⟨hfloor, hceil⟩ := floorAt_bounds m n
  obtain ⟨hlower, hupper⟩ := multiple?_eq_none.mp h
  have hself : Between m.mantissa m.scale (m.units * tens) tens :=
    between_self tens_pos m.mantissa m.scale
  have hscale (j k : Nat) (hjk : j ≤ k) : j * 10 ^ n * unitsOfOne ≤ k * 10 ^ n * unitsOfOne :=
    Nat.mul_le_mul_right _ (Nat.mul_le_mul_right _ hjk)
  rcases Nat.lt_or_ge (m.floorAt n) c with hc' | hc'
  · have hcover : m.Nearest ((m.floorAt n + 1) * 10 ^ n) tens :=
      hself.convex hnearest hceil.le (hscale _ _ hc')
    rw [covers_iff.mpr ⟨Nat.succ_ne_zero _, hcover⟩] at hupper
    cases hupper
  · have hcover : m.Nearest (m.floorAt n * 10 ^ n) tens :=
      hnearest.convex hself (hscale _ _ hc') hfloor
    rw [covers_iff.mpr ⟨by omega, hcover⟩] at hlower
    cases hlower

/-- A search down finds the first value, or ends at zero. -/
theorem descend_spec {value? : Nat → Option Nat} {last : Nat} (k : Nat) :
    let (c, n) := descend value? last k
    (value? n = some c ∨ n = 0 ∧ c = last) ∧ ∀ j, n < j → j ≤ k → value? j = none := by
  induction k with
  | zero => exact ⟨.inr ⟨rfl, rfl⟩, by omega⟩
  | succ k ih =>
    rw [descend]
    cases hk : value? (k + 1) with
    | some c => exact ⟨.inl hk, by omega⟩
    | none =>
      dsimp only
      generalize descend value? last k = found at ih ⊢
      refine ⟨ih.1, fun j hj hjk => ?_⟩
      rcases Nat.lt_or_ge j (k + 1) with hlt | hge
      · exact ih.2 j hj (Nat.le_of_lt_succ hlt)
      · obtain rfl : j = k + 1 := by omega
        exact hk

/-- The least power of ten divides every magnitude. -/
theorem exact_mul (m : Magnitude) :
    m.quadruple * Nat.pow 10 1074 / Nat.pow 2 1076 * unitsOfOne = m.units * tens := by
  obtain ⟨five, hfive⟩ := unitsOfOne_dvd_tens
  have hx : 4 * m.units * (unitsOfOne * five) = m.units * five * (4 * unitsOfOne) := by ring
  rw [four_mul_unitsOfOne, tens_eq, hfive, quadruple_eq, hx,
    Nat.mul_div_cancel _ (Nat.mul_pos (by decide) unitsOfOne_pos), Nat.mul_assoc,
    Nat.mul_comm five]

theorem shortestFrom_spec (m : Magnitude) (k : Nat) :
    let (c, n) := m.shortestFrom k
    m.Nearest (c * 10 ^ n) tens ∧
      ∀ j, n < j → j ≤ k → ∀ c', c' ≠ 0 → ¬ m.Nearest (c' * 10 ^ j) tens := by
  have hexact := exact_mul m
  unfold shortestFrom
  generalize m.quadruple * Nat.pow 10 1074 / Nat.pow 2 1076 = last at hexact ⊢
  have hspec := @descend_spec m.multiple? last k
  generalize descend m.multiple? last k = found at hspec ⊢
  obtain ⟨c, n⟩ := found
  obtain ⟨hfound, hnone⟩ := hspec
  refine ⟨?_, fun j hj hjk c' hc => not_nearest_of_multiple? (hnone j hj hjk) hc⟩
  rcases hfound with hfound | ⟨rfl, rfl⟩
  · exact (covers_iff.mp (covers_of_multiple? hfound)).2
  · refine (Nearest.congr tens_pos unitsOfOne_pos ?_).mpr m.nearest_self
    rw [Nat.pow_zero, Nat.mul_one, hexact]

theorem numerator_mul {d : Decimal} {j k t : Nat} (ht : Nat.pow 10 k = t) (h : d.exponent + k = j) :
    d.numerator * t = d.digits * 10 ^ j * d.denominator := by
  rw [Decimal.numerator, Decimal.denominator, Nat.mul_assoc, Nat.mul_assoc, ← pow_add_of_eq ht,
    ← pow_add]
  congr 2
  omega

/-- A decimal is rounded as the multiple of the least power of ten that it is. -/
theorem nearest_decimal {d : Decimal} {j : Nat} (h : d.exponent + 1074 = j) :
    m.Nearest d.numerator d.denominator ↔ m.Nearest (d.digits * 10 ^ j) tens :=
  Nearest.congr d.denominator_pos tens_pos (numerator_mul tens_eq h)

/-- The definition as one equation of functions, again. -/
theorem shortest_def : shortest = fun m =>
    let whole := m.quadruple / Nat.pow 2 1076
    let (c, n) := m.shortestFrom ((Digits.ofNat whole).length + 1074)
    (c, (n : Int) - 1074) := by
  delta shortest
  rfl

/-- The parts of what a search finds, where `f` stands for the search: the proof would compute a
search of its own. -/
theorem parts_eq (f : Nat → Nat × Nat) (whole : Nat) :
    (let whole := whole
    let (c, n) := f ((Digits.ofNat whole).length + 1074)
    (c, (n : Int) - 1074)) =
    ((f ((Digits.ofNat whole).length + 1074)).1,
      ((f ((Digits.ofNat whole).length + 1074)).2 : Int) - 1074) :=
  rfl

theorem shortest_eq (m : Magnitude) : ∃ whole, whole = m.quadruple / Nat.pow 2 1076 ∧
    m.shortest = ((m.shortestFrom ((Digits.ofNat whole).length + 1074)).1,
      ((m.shortestFrom ((Digits.ofNat whole).length + 1074)).2 : Int) - 1074) := by
  rw [shortest_def]
  exact ⟨_, rfl, parts_eq m.shortestFrom _⟩

/-- The search for the fewest digits begins above the last power of ten in the magnitude. -/
theorem exists_shortestFrom (m : Magnitude) : ∃ k found,
    m.units * tens < 10 ^ k * unitsOfOne ∧ m.shortestFrom k = found ∧
      m.shortest = (found.1, (found.2 : Int) - 1074) := by
  obtain ⟨whole, hwhole, hshortest⟩ := m.shortest_eq
  rw [four_mul_unitsOfOne, quadruple_eq, Nat.mul_div_mul_left _ _ (by decide)] at hwhole
  have hdigits : m.units < 10 ^ (Digits.ofNat whole).length * unitsOfOne := by
    rw [← Nat.div_lt_iff_lt_mul unitsOfOne_pos, ← hwhole]
    exact Digits.lt_pow_length_ofNat whole
  have hk : m.units * tens < 10 ^ ((Digits.ofNat whole).length + 1074) * unitsOfOne := by
    rw [pow_add_of_eq tens_eq, Nat.mul_right_comm]
    exact Nat.mul_lt_mul_of_pos_right hdigits tens_pos
  generalize (Digits.ofNat whole).length + 1074 = k at hk hshortest
  generalize hfound : m.shortestFrom k = found at hshortest
  exact ⟨k, found, hk, hfound, hshortest⟩

/-- A number of ten times the magnitude or more is not rounded to it. -/
theorem not_nearest_of_large {j k : Nat} (hm : m.mantissa ≠ 0) (hc : c ≠ 0)
    (hk : m.units * tens < 10 ^ k * unitsOfOne) (hj : k < j) : ¬ m.Nearest (c * 10 ^ j) tens := by
  intro h
  have hhighest : highest m.mantissa m.scale ≤ 6 * m.units := by
    have hle : 1 * 2 ^ m.scale ≤ m.mantissa * 2 ^ m.scale :=
      Nat.mul_le_mul_right _ (Nat.pos_of_ne_zero hm)
    rw [highest_eq, units]
    omega
  have hpow : 10 ^ (k + 1) ≤ c * 10 ^ j :=
    (Nat.pow_le_pow_right (by decide) hj).trans (Nat.le_mul_of_pos_left _ (Nat.pos_of_ne_zero hc))
  have hlarge : 10 * (10 ^ k * unitsOfOne) ≤ c * 10 ^ j * unitsOfOne := by
    rw [← Nat.mul_assoc, ← pow_succ']
    exact Nat.mul_le_mul_right _ hpow
  have hhigh : 4 * (c * 10 ^ j * unitsOfOne) ≤ 6 * (m.units * tens) := by
    rw [← Nat.mul_assoc 6]
    exact h.high.trans (Nat.mul_le_mul_right _ hhighest)
  omega

/-- The digits of a magnitude are rounded to it, and no decimal with a greater power of ten is. -/
theorem shortest_spec (hm : m.mantissa ≠ 0) (negative : Bool) :
    let shortest : Decimal := ⟨negative, m.shortest.1, m.shortest.2⟩
    m.Nearest shortest.numerator shortest.denominator ∧
      ∀ d : Decimal, d.digits ≠ 0 → m.Nearest d.numerator d.denominator →
        d.exponent ≤ shortest.exponent := by
  obtain ⟨k, ⟨c, n⟩, hk, hfrom, hshortest⟩ := m.exists_shortestFrom
  have hspec := m.shortestFrom_spec k
  rw [hfrom] at hspec
  obtain ⟨hnearest, hgreatest⟩ := hspec
  rw [hshortest]
  dsimp only
  refine ⟨(nearest_decimal (Int.sub_add_cancel _ _)).mpr hnearest, fun d hd h => ?_⟩
  by_contra hlt
  obtain ⟨j, hj⟩ : ∃ j : Nat, d.exponent + 1074 = j := ⟨_, (Int.toNat_of_nonneg (by omega)).symm⟩
  rw [nearest_decimal hj] at h
  rcases Nat.lt_or_ge k j with hlarge | hle
  · exact not_nearest_of_large hm hd hk hlarge h
  · exact hgreatest j (by omega) hle _ hd h

end Magnitude

namespace Decimal

/-- The zeros among the digits do not change the number. -/
theorem ratio_written (d : Decimal) (negative : Bool) :
    numerator ⟨negative, d.numerator, min d.exponent 0⟩ = d.numerator ∧
      denominator ⟨negative, d.numerator, min d.exponent 0⟩ = d.denominator := by
  have hzeros : (min d.exponent 0).toNat = 0 := Int.toNat_of_nonpos (min_le_right _ _)
  have hplaces : (-min d.exponent 0).toNat = (-d.exponent).toNat := by omega
  constructor
  · rw [numerator, hzeros, Nat.pow_zero, Nat.mul_one]
  · rw [denominator, denominator, hplaces]

end Decimal

namespace Binary64

/-- A decimal is rounded as it was written. -/
theorem read?_decimal (d : Decimal) :
    read? d.text = some (ofRatio d.negative d.numerator d.denominator) := by
  obtain ⟨hnumerator, hdenominator⟩ := d.ratio_written d.negative
  rw [read?, d.read?_text]
  dsimp only
  rw [ofDecimal_eq, hnumerator, hdenominator]

/-- The digits of a finite number are a decimal that is rounded to it. -/
theorem text_nearest (negative : Bool) (m : Magnitude) : ∃ d : Decimal,
    (finite negative m).text = d.text ∧ d.negative = negative ∧
      m.Nearest d.numerator d.denominator := by
  have hspec := @Magnitude.shortest_spec m
  rw [text]
  generalize m.shortest = found at hspec ⊢
  obtain ⟨digits, exponent⟩ := found
  by_cases hm : m.mantissa = 0
  · refine ⟨⟨negative, 0, 0⟩, if_pos hm, rfl, ?_⟩
    refine (Magnitude.Nearest.congr Magnitude.unitsOfOne_pos (Decimal.denominator_pos _) ?_).mp
      m.nearest_self
    rw [Magnitude.units, hm, Decimal.numerator]
    simp only [Nat.zero_mul]
  · exact ⟨⟨negative, digits, exponent⟩, if_neg hm, rfl, (hspec hm negative).1⟩

/-- Every number is read from its text, whichever number it is. -/
theorem read?_text (x : Binary64) : read? x.text = some x := by
  cases x with
  | nan => rfl
  | infinite negative => cases negative <;> rfl
  | finite negative m =>
    obtain ⟨d, htext, hnegative, hnearest⟩ := text_nearest negative m
    have hround := (Magnitude.nearest?_eq_some_iff d.denominator_pos).mpr hnearest
    rw [htext, read?_decimal, ofRatio_of_some hround, hnegative]

/-- The digits of a finite number are nearest to the number itself. -/
theorem text_closest (negative : Bool) (m : Magnitude) : ∃ d : Decimal,
    Decimal.read? (finite negative m).text = some d ∧
      ∀ k : Magnitude, |d.ratio - m.value| ≤ |d.ratio - k.value| := by
  have hread := read?_text (finite negative m)
  obtain ⟨digits, exponent, htext⟩ := text_decimal negative m
  have hdecimal := Decimal.read?_text ⟨negative, digits, exponent⟩
  rw [htext] at hread ⊢
  rw [read?, hdecimal] at hread
  exact ⟨_, hdecimal, fun k => ((ofDecimal_closest (Option.some.inj hread)).2 k).1⟩

end Binary64

end WhereFilter
