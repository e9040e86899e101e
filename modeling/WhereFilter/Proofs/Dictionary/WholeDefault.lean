import WhereFilter.Proofs.Dictionary.Default
import WhereFilter.Proofs.Number.WholeNumeral

namespace WhereFilter

theorem isDecimalDigit_of_isDigit {c : Char} (h : c.isDigit = true) : isDecimalDigit c = true := by
  have hsmall : c.toNat < 0x80 := by
    simp only [Char.isDigit, Bool.and_eq_true, decide_eq_true_eq, UInt32.le_iff_toNat_le] at h
    exact Nat.lt_of_le_of_lt h.2 (by decide)
  rw [isDecimalDigit, if_pos hsmall, h]

theorem Integer.fits_iff {n : Int} : fits n = true ↔ -2 ^ 63 ≤ n ∧ n ≤ 2 ^ 63 - 1 := by
  simp [fits]

theorem WholeNumeral.digitRun (w : WholeNumeral) : DigitRun w.text w.digits := by
  refine ⟨?_, w.ne_nil, fun c hc => isDecimalDigit_of_isDigit (w.ascii c hc)⟩
  cases hn : w.negative <;> simp [WholeNumeral.text, hn]

namespace Default

/-- A numeral that is no variable and no keyword is left to its type. -/
theorem resolve_of_digits {expr ds : Text} (h : DigitRun expr ds) (table : SlotTable)
    (login : Login) (type : Option FieldType) (now : Instant) :
    resolve table login type now expr =
      if type.any FieldType.isTextual then some (.text expr) else ofNumeral expr := by
  have hfirst : (expr.isEmpty || (Text.after? serverSide expr).isSome) = false := by
    obtain ⟨c, r, rfl, hne⟩ := h.exists_head
    have hat : c ≠ '@' := hne _ (by decide) (by decide)
    simp [serverSide, Text.after?, Ne.symm hat]
  unfold resolve
  rw [hfirst, wholeName?_of_digits h]
  simp only [keyword?_of_digits h, Bool.false_eq_true, if_false]

theorem ofNumeral_text (w : WholeNumeral) :
    ofNumeral w.text =
      some (if -2 ^ 63 ≤ w.value ∧ w.value ≤ 2 ^ 63 - 1 then .integer w.value
        else .decimal (.ofRatio w.negative w.magnitude 1)) := by
  rw [ofNumeral, if_pos (isWhole_iff.mpr ⟨w.digits, w.digitRun⟩), w.integer_read?_text,
    w.binary64_read?_text]
  by_cases hfits : -2 ^ 63 ≤ w.value ∧ w.value ≤ 2 ^ 63 - 1
  · rw [if_pos hfits, Option.filter_some, if_pos (Integer.fits_iff.mpr hfits)]
  · rw [if_neg hfits, Option.filter_some, if_neg (Integer.fits_iff.not.mpr hfits)]
    rfl

theorem resolve_text (table : SlotTable) (login : Login) (type : Option FieldType) (now : Instant)
    (w : WholeNumeral) :
    resolve table login type now w.text =
      some (if type.any FieldType.isTextual then .text w.text
        else if -2 ^ 63 ≤ w.value ∧ w.value ≤ 2 ^ 63 - 1 then .integer w.value
        else .decimal (.ofRatio w.negative w.magnitude 1)) := by
  rw [resolve_of_digits w.digitRun, ofNumeral_text]
  split <;> rfl

/-- An integer of 64 bits is written as a numeral that stands for it. -/
theorem resolve_integer_text (table : SlotTable) (login : Login) (type : Option FieldType)
    (now : Instant) (n : Int64) :
    resolve table login type now (Integer.text n.toInt) =
      some (if type.any FieldType.isTextual then .text (Integer.text n.toInt)
        else .integer n.toInt) := by
  have hfits : -2 ^ 63 ≤ n.toInt ∧ n.toInt ≤ 2 ^ 63 - 1 :=
    ⟨n.le_toInt, Int.le_sub_one_of_lt n.toInt_lt⟩
  have hn := resolve_text table login type now (.ofInt n.toInt)
  rwa [WholeNumeral.text_ofInt, WholeNumeral.value_ofInt, if_pos hfits] at hn

/-- A whole numeral of any length is the very integer it stands for as far as 64 bits hold it, and
beyond that what it reads as with 53 bits; a textual type keeps its text. Every integer of 64 bits
is got back from the text it is shown as. -/
theorem resolve_whole (table : SlotTable) (login : Login) (type : Option FieldType) (now : Instant) :
    (∀ w : WholeNumeral,
      resolve table login type now w.text =
        some (if type.any FieldType.isTextual then .text w.text
          else if -2 ^ 63 ≤ w.value ∧ w.value ≤ 2 ^ 63 - 1 then .integer w.value
          else .decimal (.ofRatio w.negative w.magnitude 1)) ∧
      Binary64.read? w.text = some (.ofRatio w.negative w.magnitude 1)) ∧
    ∀ n : Int64,
      resolve table login type now (Integer.text n.toInt) =
        some (if type.any FieldType.isTextual then .text (Integer.text n.toInt)
          else .integer n.toInt) ∧
      (resolve table login type now (Integer.text n.toInt)).map shown =
        some (Integer.text n.toInt) := by
  constructor
  · intro w
    exact ⟨resolve_text table login type now w, w.binary64_read?_text⟩
  · intro n
    have hn := resolve_integer_text table login type now n
    refine ⟨hn, ?_⟩
    rw [hn, Option.map_some]
    split <;> rfl

example : resolve .builtIn .system none ⟨0, 0⟩ "-0009223372036854775808".toList =
    some (.integer (-2 ^ 63)) := by
  decide +kernel

end Default

end WhereFilter
