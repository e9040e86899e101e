import Mathlib
import WhereFilter.Number.Binary64

namespace WhereFilter

/-- `k` is no farther than one half from `n / d`, and even if it is as far as that. -/
structure RoundsTo (n d k : Nat) : Prop where
  below : 2 * n ≤ (2 * k + 1) * d
  above : 2 * k * d ≤ 2 * n + d
  even : 2 * n = (2 * k + 1) * d ∨ 2 * k * d = 2 * n + d → k % 2 = 0

theorem roundsTo_roundDiv (n : Nat) {d : Nat} (hd : 0 < d) : RoundsTo n d (roundDiv n d) := by
  have hn : d * (n / d) + n % d = n := Nat.div_add_mod n d
  have hr : n % d < d := Nat.mod_lt n hd
  have hexpand (k : Nat) : (2 * k + 1) * d = 2 * (d * k) + d ∧ 2 * k * d = 2 * (d * k) := by
    constructor <;> ring
  have hsucc : d * (n / d + 1) = d * (n / d) + d := by ring
  unfold roundDiv
  dsimp only
  split_ifs with hlow hhigh
  · obtain ⟨hodd, heven⟩ := hexpand (n / d)
    exact ⟨by omega, by omega, by omega⟩
  · obtain ⟨hodd, heven⟩ := hexpand (n / d + 1)
    exact ⟨by omega, by omega, by omega⟩
  · -- halfway: the quotient is kept if it is even
    rcases Nat.mod_two_eq_zero_or_one (n / d) with hq | hq
    · rw [hq, Nat.add_zero]
      obtain ⟨hodd, heven⟩ := hexpand (n / d)
      exact ⟨by omega, by omega, fun _ => hq⟩
    · rw [hq]
      obtain ⟨hodd, heven⟩ := hexpand (n / d + 1)
      exact ⟨by omega, by omega, by omega⟩

namespace Magnitude

/-! Mantissas and scales, where the scale has no limit -/

/-- How `mantissa · 2 ^ scale` is written with 53 bits. -/
structure Grid (mantissa scale : Nat) : Prop where
  short : mantissa < 2 ^ 53
  full : 2 ^ 52 ≤ mantissa ∨ scale = 0

/-- Four times the point halfway to what is next below. -/
def lowest (mantissa scale : Nat) : Nat :=
  if mantissa = 2 ^ 52 ∧ scale ≠ 0 then (4 * mantissa - 1) * 2 ^ scale
  else (4 * mantissa - 2) * 2 ^ scale

/-- Four times the point halfway to what is next above. -/
def highest (mantissa scale : Nat) : Nat :=
  (4 * mantissa + 2) * 2 ^ scale

/-- `x / d` lies between the two points, on one of them only if the mantissa is even. -/
structure Between (mantissa scale x d : Nat) : Prop where
  low : lowest mantissa scale * d ≤ 4 * x
  high : 4 * x ≤ highest mantissa scale * d
  even : 4 * x = lowest mantissa scale * d ∨ 4 * x = highest mantissa scale * d →
    mantissa % 2 = 0

def Before (mantissa scale mantissa' scale' : Nat) : Prop :=
  scale < scale' ∨ scale = scale' ∧ mantissa < mantissa'

section

variable {M S M' S' x d : Nat}

theorem highest_eq (M S : Nat) : highest M S = 4 * (M * 2 ^ S) + 2 * 2 ^ S := by
  rw [highest]
  ring

theorem lowest_eq (M S : Nat) : lowest M S =
    4 * (M * 2 ^ S) - if M = 2 ^ 52 ∧ S ≠ 0 then 2 ^ S else 2 * 2 ^ S := by
  unfold lowest
  split_ifs
  · rw [Nat.sub_mul, Nat.mul_assoc, Nat.one_mul]
  · rw [Nat.sub_mul, Nat.mul_assoc]

theorem lowest_le_highest (M S : Nat) : lowest M S ≤ highest M S := by
  rw [lowest_eq, highest_eq]
  omega

/-- A greater scale is at least twice the other one. -/
theorem two_mul_pow_le (h : S < S') : 2 * 2 ^ S ≤ 2 ^ S' := by
  rw [← pow_succ']
  exact Nat.pow_le_pow_right (by decide) h

/-- Neither reaches beyond the point halfway to the other. -/
theorem Before.halfway (h : Before M S M' S') (g : Grid M S) (g' : Grid M' S') :
    highest M S ≤ 2 * (M * 2 ^ S) + 2 * (M' * 2 ^ S') ∧
      2 * (M * 2 ^ S) + 2 * (M' * 2 ^ S') ≤ lowest M' S' := by
  rw [highest_eq, lowest_eq]
  rcases h with hS | ⟨rfl, hM⟩
  · have hfull : 2 ^ 52 ≤ M' := g'.full.resolve_right (by omega)
    have hpow : 2 * 2 ^ S ≤ 2 ^ S' := two_mul_pow_le hS
    have hu : (M + 1) * 2 ^ S ≤ 2 ^ 53 * 2 ^ S := Nat.mul_le_mul_right _ g.short
    have hv : 2 ^ 52 * 2 ^ S' ≤ M' * 2 ^ S' := Nat.mul_le_mul_right _ hfull
    rw [Nat.add_mul, Nat.one_mul] at hu
    refine ⟨by omega, ?_⟩
    split_ifs with hM
    · omega
    · have hv' : (2 ^ 52 + 1) * 2 ^ S' ≤ M' * 2 ^ S' := Nat.mul_le_mul_right _ (by omega)
      omega
  · have hu : (M + 1) * 2 ^ S ≤ M' * 2 ^ S := Nat.mul_le_mul_right _ hM
    rw [Nat.add_mul, Nat.one_mul] at hu
    refine ⟨by omega, ?_⟩
    rw [if_neg]
    · omega
    · rintro ⟨rfl, hS⟩
      exact absurd (g.full.resolve_right hS) (by omega)

/-- Where one reaches as far as the other, one of both is odd. -/
theorem Before.odd (h : Before M S M' S') (g : Grid M S) (g' : Grid M' S')
    (he : highest M S = lowest M' S') : ¬(M % 2 = 0 ∧ M' % 2 = 0) := by
  have hpos : 0 < 2 ^ S := Nat.two_pow_pos S
  rw [highest_eq, lowest_eq] at he
  rcases h with hS | ⟨rfl, hM⟩
  · have hfull : 2 ^ 52 ≤ M' := g'.full.resolve_right (by omega)
    have hpow : 2 * 2 ^ S ≤ 2 ^ S' := two_mul_pow_le hS
    have hv : 2 ^ 52 * 2 ^ S' ≤ M' * 2 ^ S' := Nat.mul_le_mul_right _ hfull
    have hlast : 2 ^ 53 ≤ M + 1 := by
      by_contra hM
      have hu : (M + 2) * 2 ^ S ≤ 2 ^ 53 * 2 ^ S := Nat.mul_le_mul_right _ (by omega)
      rw [Nat.add_mul] at hu
      split_ifs at he with hM'
      · omega
      · have hv' : (2 ^ 52 + 1) * 2 ^ S' ≤ M' * 2 ^ S' := Nat.mul_le_mul_right _ (by omega)
        omega
    have hshort := g.short
    omega
  · have hnext : M' ≤ M + 1 := by
      by_contra hM'
      have hu : (M + 2) * 2 ^ S ≤ M' * 2 ^ S := Nat.mul_le_mul_right _ (by omega)
      rw [Nat.add_mul] at hu
      split_ifs at he with hspecial
      · obtain ⟨rfl, hS⟩ := hspecial
        exact absurd (g.full.resolve_right hS) (by omega)
      · omega
    omega

/-- What is nearest to one is short of halfway to what comes later, or is on an even end there. -/
theorem Between.not_beyond (h : Between M S x d) (hd : 0 < d) (g : Grid M S) (g' : Grid M' S')
    (hb : Before M S M' S') (hlow : lowest M' S' * d ≤ 4 * x)
    (heven : 4 * x = lowest M' S' * d → M' % 2 = 0) : False := by
  obtain ⟨hhalf, hhalf'⟩ := hb.halfway g g'
  have hends : highest M S * d ≤ lowest M' S' * d := Nat.mul_le_mul_right d (hhalf.trans hhalf')
  have hx : 4 * x = highest M S * d := le_antisymm h.high (hends.trans hlow)
  have hx' : 4 * x = lowest M' S' * d := le_antisymm (h.high.trans hends) hlow
  have he : highest M S = lowest M' S' := Nat.eq_of_mul_eq_mul_right hd (hx.symm.trans hx')
  exact hb.odd g g' he ⟨h.even (.inr hx), heven hx'⟩

/-- At most one is nearest. -/
theorem Between.not_before (h : Between M S x d) (h' : Between M' S' x d) (hd : 0 < d)
    (g : Grid M S) (g' : Grid M' S') : ¬ Before M S M' S' :=
  fun hb => h.not_beyond hd g g' hb h'.low fun hx => h'.even (.inl hx)

theorem Between.unique (h : Between M S x d) (h' : Between M' S' x d) (hd : 0 < d)
    (g : Grid M S) (g' : Grid M' S') : M = M' ∧ S = S' := by
  have hne := h.not_before h' hd g g'
  have hne' := h'.not_before h hd g' g
  simp only [Before] at hne hne'
  omega

end

/-! Rounding -/

/-- One, in units of the least magnitude. It is never computed, like all numbers of its size. -/
@[irreducible]
def unitsOfOne : Nat :=
  Nat.pow 2 1074

theorem unitsOfOne_eq : Nat.pow 2 1074 = unitsOfOne := by
  unfold unitsOfOne
  rfl

/-! Laws of powers that are not written as such. -/

theorem pos_of_pow_eq {b e t : Nat} (hb : 0 < b) (h : Nat.pow b e = t) : 0 < t :=
  h ▸ Nat.pow_pos hb

theorem unitsOfOne_pos : 0 < unitsOfOne :=
  pos_of_pow_eq (by decide) unitsOfOne_eq

section

variable {n d x : Nat}

/-- The bits of a quotient give the scale at which it has a mantissa. -/
theorem scale_bounds (hd : 0 < d) (x : Nat) :
    x < 2 ^ 53 * (d * 2 ^ ((x / d).log2 - 52)) ∧
      ((x / d).log2 - 52 ≠ 0 → 2 ^ 52 * (d * 2 ^ ((x / d).log2 - 52)) ≤ x) := by
  generalize hS : (x / d).log2 - 52 = S
  constructor
  · have hq : x / d < 2 ^ (53 + S) :=
      Nat.lt_log2_self.trans_le (Nat.pow_le_pow_right (by decide) (by omega))
    have hx : x < 2 ^ (53 + S) * d := (Nat.div_lt_iff_lt_mul hd).mp hq
    rwa [pow_add, Nat.mul_assoc, Nat.mul_comm _ d] at hx
  · intro hne
    have hlog : (x / d).log2 = 52 + S := by omega
    have hq0 : x / d ≠ 0 := by
      intro h0
      rw [h0, Nat.log2_zero] at hlog
      omega
    have hq : 2 ^ (52 + S) ≤ x / d := hlog ▸ Nat.log2_self_le hq0
    have hx : 2 ^ (52 + S) * d ≤ x := (Nat.le_div_iff_mul_le hd).mp hq
    rwa [pow_add, Nat.mul_assoc, Nat.mul_comm _ d] at hx

theorem lowest_mul (M S d : Nat) : lowest M S * d = 4 * (M * (d * 2 ^ S)) -
    if M = 2 ^ 52 ∧ S ≠ 0 then d * 2 ^ S else 2 * (d * 2 ^ S) := by
  rw [lowest_eq]
  split_ifs
  · rw [Nat.sub_mul]
    congr 1 <;> ring
  · rw [Nat.sub_mul]
    congr 1 <;> ring

theorem highest_mul (M S d : Nat) :
    highest M S * d = 4 * (M * (d * 2 ^ S)) + 2 * (d * 2 ^ S) := by
  rw [highest_eq]
  ring

/-- What is rounded to a mantissa at its scale is nearest to that. -/
theorem between_of_roundsTo {M S : Nat} (hd : 0 < d) (hr : RoundsTo x (d * 2 ^ S) M)
    (hlow : S ≠ 0 → 2 ^ 52 * (d * 2 ^ S) ≤ x) : Between M S x d := by
  have hunit : 0 < d * 2 ^ S := Nat.mul_pos hd (Nat.two_pow_pos S)
  obtain ⟨hbelow, habove, heven⟩ := hr
  have hodd : (2 * M + 1) * (d * 2 ^ S) = 2 * (M * (d * 2 ^ S)) + d * 2 ^ S := by ring
  rw [hodd] at hbelow heven
  rw [Nat.mul_assoc] at habove heven
  have hhigh : 4 * x ≤ highest M S * d := by
    rw [highest_mul]
    omega
  by_cases hM : M = 2 ^ 52 ∧ S ≠ 0
  · have hle : M * (d * 2 ^ S) ≤ x := hM.1 ▸ hlow hM.2
    refine ⟨?_, hhigh, fun _ => by rw [hM.1]; decide⟩
    rw [lowest_mul, if_pos hM]
    omega
  · constructor
    · rw [lowest_mul, if_neg hM]
      omega
    · exact hhigh
    · rw [lowest_mul, if_neg hM, highest_mul]
      rcases Nat.eq_zero_or_pos M with rfl | hpos
      · exact fun _ => rfl
      · have hle : 1 * (d * 2 ^ S) ≤ M * (d * 2 ^ S) := Nat.mul_le_mul_right _ hpos
        intro he
        exact heven (by omega)

/-- What is rounded up to one bit more is nearest to the first mantissa of the next scale. -/
theorem between_of_carry {S : Nat} (hr : RoundsTo x (d * 2 ^ S) (2 ^ 53))
    (hhigh : x < 2 ^ 53 * (d * 2 ^ S)) : Between (2 ^ 52) (S + 1) x d := by
  have habove := hr.above
  have hscale : d * 2 ^ (S + 1) = 2 * (d * 2 ^ S) := by ring
  refine ⟨?_, ?_, fun _ => by decide⟩
  · rw [lowest_mul, if_pos ⟨rfl, by omega⟩, hscale]
    omega
  · rw [highest_mul, hscale]
    omega

/-- Some mantissa and scale are nearest, and they are taken if the scale is in range. -/
theorem exists_between (hd : 0 < d) (n : Nat) : ∃ M S, Grid M S ∧
    Between M S (n * unitsOfOne) d ∧ nearest? n d = ofParts? M S := by
  unfold nearest? unitsOfOne
  generalize n * Nat.pow 2 1074 = x
  simp only [Nat.pow_eq]
  obtain ⟨hhigh, hlow⟩ := scale_bounds hd x
  generalize (x / d).log2 - 52 = S at hhigh hlow ⊢
  have hunit : 0 < d * 2 ^ S := Nat.mul_pos hd (Nat.two_pow_pos S)
  have hr := roundsTo_roundDiv x hunit
  generalize roundDiv x (d * 2 ^ S) = M at hr ⊢
  have hle : M ≤ 2 ^ 53 := by
    by_contra hM
    have hmul : (2 ^ 53 + 1) * (d * 2 ^ S) ≤ M * (d * 2 ^ S) := Nat.mul_le_mul_right _ (by omega)
    have habove := hr.above
    rw [Nat.mul_assoc] at habove
    omega
  split_ifs with hM
  · refine ⟨M, S, ⟨hM, ?_⟩, between_of_roundsTo hd hr hlow, rfl⟩
    rw [or_iff_not_imp_right]
    intro hS
    by_contra hfull
    have hmul : (M + 1) * (d * 2 ^ S) ≤ 2 ^ 52 * (d * 2 ^ S) := Nat.mul_le_mul_right _ (by omega)
    have hbelow := hr.below
    have hlow := hlow hS
    rw [Nat.add_mul, Nat.one_mul] at hmul
    rw [Nat.add_mul, Nat.one_mul, Nat.mul_assoc] at hbelow
    omega
  · obtain rfl : M = 2 ^ 53 := by omega
    exact ⟨2 ^ 52, S + 1, ⟨by decide, .inl le_rfl⟩, between_of_carry hr hhigh, rfl⟩

/-- `m` is the magnitude that `n / d` is rounded to. -/
def Nearest (m : Magnitude) (n d : Nat) : Prop :=
  Between m.mantissa m.scale (n * unitsOfOne) d

theorem grid (m : Magnitude) : Grid m.mantissa m.scale :=
  ⟨m.normal.1, m.normal.2.2⟩

theorem ofParts?_eq_some_iff {M S : Nat} {m : Magnitude} :
    ofParts? M S = some m ↔ m.mantissa = M ∧ m.scale = S := by
  constructor
  · intro h
    unfold ofParts? at h
    split at h
    · cases h
      exact ⟨rfl, rfl⟩
    · cases h
  · rintro ⟨rfl, rfl⟩
    exact dif_pos m.normal

theorem nearest?_eq_some_iff {m : Magnitude} (hd : 0 < d) :
    nearest? n d = some m ↔ m.Nearest n d := by
  obtain ⟨M, S, hgrid, hbetween, heq⟩ := exists_between hd n
  rw [heq, ofParts?_eq_some_iff]
  constructor
  · rintro ⟨rfl, rfl⟩
    exact hbetween
  · intro h
    exact h.unique hbetween hd m.grid hgrid

/-- What is rounded is the ratio, however it is written. -/
theorem Between.mul {M S : Nat} {k : Nat} (hk : 0 < k) :
    Between M S (x * k) (d * k) ↔ Between M S x d := by
  have hlow : lowest M S * (d * k) = lowest M S * d * k := (Nat.mul_assoc _ _ _).symm
  have hhigh : highest M S * (d * k) = highest M S * d * k := (Nat.mul_assoc _ _ _).symm
  have hx : 4 * (x * k) = 4 * x * k := (Nat.mul_assoc _ _ _).symm
  constructor
  · rintro ⟨h, h', he⟩
    rw [hlow, hx, Nat.mul_le_mul_right_iff hk] at h
    rw [hhigh, hx, Nat.mul_le_mul_right_iff hk] at h'
    refine ⟨h, h', fun htie => he ?_⟩
    rw [hlow, hhigh, hx]
    exact htie.imp (congrArg (· * k)) (congrArg (· * k))
  · rintro ⟨h, h', he⟩
    refine ⟨?_, ?_, fun htie => he ?_⟩
    · rw [hlow, hx]
      exact Nat.mul_le_mul_right k h
    · rw [hhigh, hx]
      exact Nat.mul_le_mul_right k h'
    · rw [hlow, hhigh, hx] at htie
      exact htie.imp (Nat.eq_of_mul_eq_mul_right hk) (Nat.eq_of_mul_eq_mul_right hk)

theorem Nearest.congr {m : Magnitude} {n' d' : Nat} (hd : 0 < d) (hd' : 0 < d')
    (h : n * d' = n' * d) : m.Nearest n d ↔ m.Nearest n' d' := by
  have hx : n * unitsOfOne * d' = n' * unitsOfOne * d := by
    rw [Nat.mul_right_comm, h, Nat.mul_right_comm]
  rw [Nearest, Nearest, ← Between.mul hd', hx, Nat.mul_comm d, Between.mul hd]

/-- What is no more than half the least magnitude is rounded to zero. -/
theorem nearest?_eq_zero (hd : 0 < d) (h : 2 * (n * unitsOfOne) ≤ d) :
    nearest? n d = some zero := by
  refine (nearest?_eq_some_iff hd).mpr ⟨?_, ?_, fun _ => rfl⟩
  · exact (Nat.zero_mul d).trans_le (Nat.zero_le _)
  · have hhigh : highest zero.mantissa zero.scale = 2 := rfl
    rw [hhigh]
    omega

theorem ofParts?_eq_none {M S : Nat} (hgrid : Grid M S) (h : ofParts? M S = none) : 2046 ≤ S := by
  by_contra hS
  have hnormal : M < Nat.pow 2 53 ∧ S ≤ 2045 ∧ (Nat.pow 2 52 ≤ M ∨ S = 0) :=
    ⟨hgrid.short, by omega, hgrid.full⟩
  rw [ofParts?, dif_pos hnormal] at h
  cases h

/-- The first that is beyond every magnitude. -/
theorem Grid.beyond : Grid (2 ^ 52) 2046 :=
  ⟨by decide, .inl le_rfl⟩

theorem lowest_le_of_beyond {M S : Nat} (hgrid : Grid M S) (hS : 2046 ≤ S) :
    lowest (2 ^ 52) 2046 ≤ lowest M S := by
  have hM : 2 ^ 52 ≤ M := hgrid.full.resolve_right (by omega)
  by_cases hfirst : M = 2 ^ 52 ∧ S = 2046
  · rw [hfirst.1, hfirst.2]
  · have hb : Before (2 ^ 52) 2046 M S := by
      unfold Before
      omega
    obtain ⟨hhalf, hhalf'⟩ := hb.halfway .beyond hgrid
    exact (lowest_le_highest _ _).trans (hhalf.trans hhalf')

/-- What is at least halfway to the first beyond every magnitude is rounded to none, and all else
to one. -/
theorem nearest?_eq_none_iff (hd : 0 < d) :
    nearest? n d = none ↔ lowest (2 ^ 52) 2046 * d ≤ 4 * (n * unitsOfOne) := by
  constructor
  · intro h
    obtain ⟨M, S, hgrid, hbetween, heq⟩ := exists_between hd n
    have hS : 2046 ≤ S := ofParts?_eq_none hgrid (heq ▸ h)
    exact (Nat.mul_le_mul_right d (lowest_le_of_beyond hgrid hS)).trans hbetween.low
  · intro h
    refine Option.eq_none_iff_forall_ne_some.mpr fun m hm => ?_
    have hb : Before m.mantissa m.scale (2 ^ 52) 2046 := .inl (Nat.lt_succ_of_le m.normal.2.1)
    exact ((nearest?_eq_some_iff hd).mp hm).not_beyond hd m.grid .beyond hb h fun _ => by decide

/-- A power of two beyond every magnitude. -/
@[irreducible]
def limit : Nat :=
  Nat.pow 2 1024

theorem lowest_le_limit : lowest (2 ^ 52) 2046 ≤ 4 * (limit * unitsOfOne) := by
  decide +kernel

/-- What is at least the limit is not rounded to any magnitude. -/
theorem nearest?_eq_none (hd : 0 < d) (h : limit * d ≤ n) : nearest? n d = none := by
  refine (nearest?_eq_none_iff hd).mpr ?_
  calc lowest (2 ^ 52) 2046 * d
      ≤ 4 * (limit * unitsOfOne) * d := Nat.mul_le_mul_right d lowest_le_limit
    _ = 4 * (limit * d * unitsOfOne) := by ring
    _ ≤ 4 * (n * unitsOfOne) := Nat.mul_le_mul_left 4 (Nat.mul_le_mul_right unitsOfOne h)

/-- The magnitude in units of the least one. -/
def units (m : Magnitude) : Nat :=
  m.mantissa * 2 ^ m.scale

theorem before_or_before {m k : Magnitude} (h : k ≠ m) :
    Before m.mantissa m.scale k.mantissa k.scale ∨ Before k.mantissa k.scale m.mantissa m.scale := by
  by_contra hne
  simp only [Before, not_or] at hne
  apply h
  obtain ⟨M, S, hM⟩ := m
  obtain ⟨M', S', hM'⟩ := k
  simp only [mk.injEq]
  dsimp only at hne
  omega

theorem units_lt_of_before {m k : Magnitude}
    (h : Before m.mantissa m.scale k.mantissa k.scale) : m.units < k.units := by
  have hpos : 0 < 2 ^ m.scale := Nat.two_pow_pos _
  obtain ⟨hmid, -⟩ := h.halfway m.grid k.grid
  rw [highest_eq] at hmid
  unfold units
  omega

/-- Seen from the point halfway to any other magnitude, a number lies on the side of the one that
it is rounded to. -/
theorem Nearest.halfway {m k : Magnitude} (h : m.Nearest n d) (hk : k ≠ m) :
    (m.units < k.units ∧ 2 * (n * unitsOfOne) ≤ (m.units + k.units) * d ∨
      k.units < m.units ∧ (m.units + k.units) * d ≤ 2 * (n * unitsOfOne)) ∧
    (2 * (n * unitsOfOne) = (m.units + k.units) * d → m.mantissa % 2 = 0) := by
  unfold Nearest at h
  generalize n * unitsOfOne = x at h ⊢
  have hsum : (2 * m.units + 2 * k.units) * d = 2 * ((m.units + k.units) * d) := by ring
  rcases before_or_before hk with hb | hb
  · have hmid : highest m.mantissa m.scale * d ≤ (2 * m.units + 2 * k.units) * d :=
      Nat.mul_le_mul_right d (hb.halfway m.grid k.grid).1
    have hhigh := h.high
    exact ⟨.inl ⟨units_lt_of_before hb, by omega⟩, fun hx => h.even (.inr (by omega))⟩
  · have hmid : (2 * k.units + 2 * m.units) * d ≤ lowest m.mantissa m.scale * d :=
      Nat.mul_le_mul_right d (hb.halfway k.grid m.grid).2
    rw [Nat.add_comm (2 * k.units)] at hmid
    have hlow := h.low
    exact ⟨.inr ⟨units_lt_of_before hb, by omega⟩, fun hx => h.even (.inl (by omega))⟩

/-- The number itself. -/
def value (m : Magnitude) : ℚ :=
  m.units / unitsOfOne

/-- On its side of the point halfway between `a` and `b`, a number is nearer to `a`. -/
theorem abs_sub_le_of_side {q a b : ℚ} (h : a < b ∧ 2 * q ≤ a + b ∨ b < a ∧ a + b ≤ 2 * q) :
    |q - a| ≤ |q - b| ∧ (|q - a| = |q - b| → 2 * q = a + b) := by
  rcases h with ⟨hab, hq⟩ | ⟨hab, hq⟩
  · have hb : |q - b| = b - q := by rw [abs_of_nonpos (by linarith), neg_sub]
    rw [hb]
    refine ⟨abs_le.mpr ⟨by linarith, by linarith⟩, fun he => ?_⟩
    rcases abs_cases (q - a) with ⟨ha, -⟩ | ⟨ha, -⟩ <;> linarith
  · have hb : |q - b| = q - b := abs_of_nonneg (by linarith)
    rw [hb]
    refine ⟨abs_le.mpr ⟨by linarith, by linarith⟩, fun he => ?_⟩
    rcases abs_cases (q - a) with ⟨ha, -⟩ | ⟨ha, -⟩ <;> linarith

/-- The same for `u / p`, where the products are compared. -/
theorem closest_of_side {p u v : Nat} (hd : 0 < d) (hp : 0 < p)
    (h : u < v ∧ 2 * (n * p) ≤ (u + v) * d ∨ v < u ∧ (u + v) * d ≤ 2 * (n * p)) :
    |(n / d : ℚ) - u / p| ≤ |(n / d : ℚ) - v / p| ∧
      (|(n / d : ℚ) - u / p| = |(n / d : ℚ) - v / p| → 2 * (n * p) = (u + v) * d) := by
  have hd : (0 : ℚ) < d := Nat.cast_pos.mpr hd
  have hp : (0 : ℚ) < p := Nat.cast_pos.mpr hp
  have hle : 2 * (n * p) ≤ (u + v) * d ↔ 2 * (n / d : ℚ) ≤ u / p + v / p := by
    rw [← add_div, ← mul_div_assoc, div_le_div_iff₀ hd hp, mul_assoc]
    exact_mod_cast Iff.rfl
  have hge : (u + v) * d ≤ 2 * (n * p) ↔ u / p + v / p ≤ 2 * (n / d : ℚ) := by
    rw [← add_div, ← mul_div_assoc, div_le_div_iff₀ hp hd, mul_assoc]
    exact_mod_cast Iff.rfl
  have hlt (i j : Nat) : i < j ↔ (i / p : ℚ) < j / p := by
    rw [div_lt_div_iff_of_pos_right hp, Nat.cast_lt]
  rw [hle, hge, hlt, hlt] at h
  obtain ⟨hclose, htie⟩ := abs_sub_le_of_side h
  exact ⟨hclose, fun he => le_antisymm (hle.mpr (htie he).le) (hge.mpr (htie he).ge)⟩

/-- The magnitude taken for `n / d` is as near to it as any, and has an even mantissa if another
one is as near. -/
theorem nearest?_closest {m : Magnitude} (hd : 0 < d) (h : nearest? n d = some m) (k : Magnitude) :
    |(n / d : ℚ) - m.value| ≤ |(n / d : ℚ) - k.value| ∧
      (k ≠ m → |(n / d : ℚ) - m.value| = |(n / d : ℚ) - k.value| → m.mantissa % 2 = 0) := by
  by_cases hk : k = m
  · subst hk
    exact ⟨le_rfl, fun hne => absurd rfl hne⟩
  · obtain ⟨hside, heven⟩ := ((nearest?_eq_some_iff hd).mp h).halfway hk
    obtain ⟨hclose, htie⟩ := closest_of_side hd unitsOfOne_pos hside
    exact ⟨hclose, fun _ he => heven (htie he)⟩

end

end Magnitude

end WhereFilter
