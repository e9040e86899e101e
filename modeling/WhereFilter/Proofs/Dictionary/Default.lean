import WhereFilter.Dictionary.Default
import WhereFilter.Proofs.Context.SlotTable
import WhereFilter.Proofs.Token.Munch

namespace WhereFilter

/-! Digits of any script -/

/-- An optional minus and one digit or more, of any script. -/
structure DigitRun (expr ds : Text) : Prop where
  text : expr = ds ∨ expr = '-' :: ds
  ne_nil : ds ≠ []
  digits : ∀ c ∈ ds, isDecimalDigit c = true

/-- No digit is a letter. -/
theorem toLower_of_isDecimalDigit {c : Char} (h : isDecimalDigit c = true) : c.toLower = c := by
  unfold Char.toLower
  refine dif_neg ?_
  rintro ⟨hlow, hhigh⟩
  rw [ge_iff_le, UInt32.le_iff_toNat_le] at hlow
  rw [UInt32.le_iff_toNat_le] at hhigh
  have hsmall : c.toNat < 0x80 := Nat.lt_of_le_of_lt hhigh (by decide)
  rw [isDecimalDigit, if_pos hsmall] at h
  simp only [Char.isDigit, Bool.and_eq_true, decide_eq_true_eq, UInt32.le_iff_toNat_le] at h
  exact absurd (hlow.trans h.2) (by decide)

theorem lower_of_digits {t : Text} (h : ∀ c ∈ t, isDecimalDigit c = true) : Text.lower t = t := by
  rw [Text.lower]
  exact (List.map_congr_left fun c hc => toLower_of_isDecimalDigit (h c hc)).trans (List.map_id t)

theorem ne_of_isDecimalDigit {c a : Char} (h : isDecimalDigit c = true)
    (ha : isDecimalDigit a = false) : c ≠ a := by
  rintro rfl
  rw [h] at ha
  cases ha

namespace DigitRun

variable {expr ds : Text}

/-- The first character is the minus or a digit. -/
theorem exists_head (h : DigitRun expr ds) :
    ∃ c r, expr = c :: r ∧ ∀ a, a ≠ '-' → isDecimalDigit a = false → c ≠ a := by
  rcases h.text with rfl | rfl
  · obtain ⟨c, r, rfl⟩ := List.exists_cons_of_ne_nil h.ne_nil
    exact ⟨c, r, rfl, fun a _ ha => ne_of_isDecimalDigit (h.digits c (by simp)) ha⟩
  · exact ⟨'-', ds, rfl, fun a ha _ => Ne.symm ha⟩

theorem unsigned_eq (h : DigitRun expr ds) : Default.unsigned expr = ds := by
  rcases h.text with rfl | rfl
  · have hnone : Text.after? ['-'] expr = none := by
      apply Text.after?_eq_none
      rintro rest rfl
      cases h.digits '-' (by simp)
    rw [Default.unsigned, hnone]
    rfl
  · rfl

/-- Neither sign is a digit, so what is left of the sign is the digits. -/
theorem sign_eq (h : DigitRun expr ds) : (Decimal.sign expr).2 = ds := by
  rcases h.text with rfl | rfl
  · unfold Decimal.sign
    split
    · cases h.digits '-' (by simp)
    · cases h.digits '+' (by simp)
    · rfl
  · rfl

/-- Only ASCII digits are read. -/
theorem integer_read?_eq_none_iff (h : DigitRun expr ds) :
    Integer.read? expr = none ↔ ∃ c ∈ ds, c.isDigit = false := by
  have hne : ds.isEmpty = false := by simp [h.ne_nil]
  have hread : Integer.read? expr = none ↔ ds.all Char.isDigit = false := by
    rcases h.text with rfl | rfl
    · unfold Integer.read?
      split
      · exact absurd rfl h.ne_nil
      · cases h.digits '-' (by simp)
      · simp
    · simp [Integer.read?, hne]
  rw [hread]
  simp

theorem decimal_read?_eq_none_iff (h : DigitRun expr ds) :
    Decimal.read? expr = none ↔ ∃ c ∈ ds, c.isDigit = false := by
  have hsign := h.sign_eq
  unfold Decimal.read?
  generalize Decimal.sign expr = signed at hsign ⊢
  obtain ⟨negative, s⟩ := signed
  obtain rfl : s = ds := hsign
  cases hrest : s.dropWhile Char.isDigit with
  | nil =>
    have hall : ∀ c ∈ s, c.isDigit = true := List.dropWhile_eq_nil_iff.mp hrest
    have hwhole : s.takeWhile Char.isDigit = s := List.takeWhile_eq_self_iff.mpr hall
    dsimp only
    rw [hrest, hwhole]
    simpa [h.ne_nil, Decimal.exponent?] using hall
  | cons c r =>
    have hmem : c ∈ s := (List.dropWhile_suffix Char.isDigit).subset (by simp [hrest])
    have hc : c.isDigit = false := by
      have hhead := head?_dropWhile Char.isDigit s
      simpa [hrest] using hhead
    have hdot : c ≠ '.' := ne_of_isDecimalDigit (h.digits c hmem) (by decide)
    have hexp : Decimal.exponent? (c :: r) = none := by
      have he : c ≠ 'e' := ne_of_isDecimalDigit (h.digits c hmem) (by decide)
      have hE : c ≠ 'E' := ne_of_isDecimalDigit (h.digits c hmem) (by decide)
      simp [Decimal.exponent?, he, hE]
    dsimp only
    rw [hrest]
    refine ⟨fun _ => ⟨c, hmem, hc⟩, fun _ => ?_⟩
    simp [hdot, hexp]

theorem binary64_read?_eq_none_iff (h : DigitRun expr ds) :
    Binary64.read? expr = none ↔ ∃ c ∈ ds, c.isDigit = false := by
  rw [← h.decimal_read?_eq_none_iff]
  unfold Binary64.read?
  cases hd : Decimal.read? expr with
  | some d => simp
  | none =>
    have hsign := h.sign_eq
    generalize Decimal.sign expr = signed at hsign ⊢
    obtain ⟨negative, s⟩ := signed
    obtain rfl : s = ds := hsign
    have hname {w : Text} (hw : ∃ c ∈ w, isDecimalDigit c = false) : s ≠ w := by
      rintro rfl
      obtain ⟨c, hc, hn⟩ := hw
      rw [h.digits c hc] at hn
      cases hn
    have hnan : s ≠ "nan".toList := hname ⟨'n', by decide, by decide⟩
    have hinf : s ≠ "inf".toList := hname ⟨'n', by decide, by decide⟩
    have hinfinity : s ≠ "infinity".toList := hname ⟨'n', by decide, by decide⟩
    simp only [lower_of_digits h.digits, hnan, hinf, hinfinity, or_self, ↓reduceIte]

end DigitRun

namespace Default

theorem isWhole_iff {expr : Text} : isWhole expr = true ↔ ∃ ds, DigitRun expr ds := by
  constructor
  · intro h
    simp only [isWhole, isDigits, Bool.and_eq_true, Bool.not_eq_eq_eq_not, Bool.not_true,
      List.isEmpty_eq_false_iff, List.all_eq_true] at h
    refine ⟨unsigned expr, ?_, h.1, h.2⟩
    rw [unsigned]
    cases ha : Text.after? ['-'] expr with
    | none => exact .inl rfl
    | some r => exact .inr (Text.after?_eq_some.mp ha)
  · rintro ⟨ds, h⟩
    simp only [isWhole, isDigits, h.unsigned_eq, Bool.and_eq_true, Bool.not_eq_eq_eq_not,
      Bool.not_true, List.isEmpty_eq_false_iff, List.all_eq_true]
    exact ⟨h.ne_nil, h.digits⟩

/-- A digit that is not ASCII is taken for part of a whole number that then cannot be read. -/
theorem ofNumeral_eq_none_iff {expr : Text} :
    ofNumeral expr = none ↔ ∃ ds, DigitRun expr ds ∧ ∃ c ∈ ds, c.isDigit = false := by
  unfold ofNumeral
  by_cases hw : isWhole expr = true
  · obtain ⟨ds, h⟩ := isWhole_iff.mp hw
    have hds : (∃ ds, DigitRun expr ds ∧ ∃ c ∈ ds, c.isDigit = false) ↔
        ∃ c ∈ ds, c.isDigit = false := by
      constructor
      · rintro ⟨ds', h', hc⟩
        rwa [← h'.unsigned_eq, h.unsigned_eq] at hc
      · intro hc
        exact ⟨ds, h, hc⟩
    rw [if_pos hw, hds]
    by_cases hc : ∃ c ∈ ds, c.isDigit = false
    · have hinteger : Integer.read? expr = none := h.integer_read?_eq_none_iff.mpr hc
      have hread : Binary64.read? expr = none := h.binary64_read?_eq_none_iff.mpr hc
      simp [hinteger, hread, hc]
    · have hread : Binary64.read? expr ≠ none := h.binary64_read?_eq_none_iff.not.mpr hc
      split <;> simp [hread, hc]
  · have hnone : ¬ ∃ ds, DigitRun expr ds ∧ ∃ c ∈ ds, c.isDigit = false := by
      rintro ⟨ds, h, -⟩
      exact hw (isWhole_iff.mpr ⟨ds, h⟩)
    rw [if_neg hw]
    split
    · split <;> simp [hnone]
    · simp [hnone]

theorem text_of_ofNumeral {expr t : Text} (h : ofNumeral expr = some (.text t)) : t = expr := by
  unfold ofNumeral at h
  split at h
  · split at h
    · cases h
    · simp at h
  · split at h
    · split at h
      · cases h
      · exact (Default.text.inj (Option.some.inj h)).symm
    · exact (Default.text.inj (Option.some.inj h)).symm

theorem ofNumeral_ne_timestamp (expr : Text) (i : Instant) :
    ofNumeral expr ≠ some (.timestamp i) := by
  unfold ofNumeral
  split
  · split
    · simp
    · cases Binary64.read? expr <;> simp
  · split
    · split <;> simp
    · simp

/-- An expression that is a variable from end to end, with a `#` before its name or not. -/
def IsVariable (expr name : Text) : Prop :=
  (∃ c r, name = c :: r ∧ Token.isNameStart c = true ∧ ∀ a ∈ r, Token.isNameChar a = true) ∧
    (expr = '@' :: name ++ ['@'] ∨ expr = '@' :: '#' :: name ++ ['@'])

theorem wholeName?_eq_some {expr n : Text} :
    wholeName? expr = some n ↔ expr = '@' :: n ++ ['@'] ∧
      ∃ c r, bareName n = c :: r ∧ Token.isNameStart c = true ∧
        ∀ a ∈ r, Token.isNameChar a = true := by
  simp only [wholeName?, Option.bind_eq_bind, Option.bind_eq_some_iff, Text.after?_eq_some,
    Text.before?_eq_some]
  constructor
  · rintro ⟨t, rfl, name, rfl, h⟩
    split at h
    · next c r hname =>
      split at h
      · next hok =>
        obtain rfl := Option.some.inj h
        rw [Bool.and_eq_true, List.all_eq_true] at hok
        exact ⟨rfl, c, r, hname, hok⟩
      · cases h
    · cases h
  · rintro ⟨rfl, c, r, hname, hc, hr⟩
    refine ⟨n ++ ['@'], rfl, n, rfl, ?_⟩
    rw [hname]
    simp [hc, List.all_eq_true.mpr hr]

/-- The name of a variable is found, with its `#` if it has one. -/
theorem exists_wholeName_iff {expr : Text} (P : Text → Prop) :
    (∃ n, wholeName? expr = some n ∧ P (bareName n)) ↔ ∃ name, IsVariable expr name ∧ P name := by
  constructor
  · rintro ⟨n, hn, hp⟩
    obtain ⟨rfl, hname⟩ := wholeName?_eq_some.mp hn
    refine ⟨bareName n, ⟨hname, ?_⟩, hp⟩
    rw [bareName]
    cases ha : Text.after? ['#'] n with
    | none => exact .inl rfl
    | some r => exact .inr (by simp [Text.after?_eq_some.mp ha])
  · rintro ⟨name, ⟨⟨c, r, rfl, hc, hr⟩, hexpr⟩, hp⟩
    have hbare : bareName (c :: r) = c :: r := by
      apply bareName_of_ne
      rintro hhash
      obtain rfl : c = '#' := by simpa using hhash
      cases hc
    rcases hexpr with rfl | rfl
    · exact ⟨c :: r, wholeName?_eq_some.mpr ⟨rfl, c, r, hbare, hc, hr⟩, by rwa [hbare]⟩
    · refine ⟨'#' :: c :: r, wholeName?_eq_some.mpr ⟨rfl, c, r, bareName_hash _, hc, hr⟩, ?_⟩
      rwa [bareName_hash]

theorem keyword?_ne_text {now : Instant} {expr : Text} {d : Default}
    (h : keyword? now expr = some d) (t : Text) : d ≠ .text t := by
  unfold keyword? at h
  split_ifs at h <;> cases h <;> simp

theorem isWhole_of_keyword? {now : Instant} {expr : Text} {i : Instant}
    (h : keyword? now expr = some (.timestamp i)) : i.IsWhole := by
  unfold keyword? at h
  split_ifs at h <;> cases h
  exact now.isWhole_wholeSecond

theorem keyword?_of_digits {now : Instant} {expr ds : Text} (h : DigitRun expr ds) :
    keyword? now expr = none := by
  obtain ⟨c, r, rfl, hne⟩ := h.exists_head
  have hY : c ≠ 'Y' := hne _ (by decide) (by decide)
  have hN : c ≠ 'N' := hne _ (by decide) (by decide)
  have hS : c ≠ 'S' := hne _ (by decide) (by decide)
  have hC : c ≠ 'C' := hne _ (by decide) (by decide)
  simp [keyword?, hY, hN, hS, hC]

theorem wholeName?_of_digits {expr ds : Text} (h : DigitRun expr ds) : wholeName? expr = none := by
  obtain ⟨c, r, rfl, hne⟩ := h.exists_head
  have hat : c ≠ '@' := hne _ (by decide) (by decide)
  simp [wholeName?, Text.after?, Ne.symm hat]

/-- No time enters into whether there is a value. -/
theorem resolve_eq_none_iff {table : SlotTable} {login : Login} {type : Option FieldType}
    {now : Instant} {expr : Text} :
    resolve table login type now expr = none ↔
      expr = [] ∨ serverSide <+: expr ∨
      (∃ n, wholeName? expr = some n ∧ bareName n ∉ table.names) ∨
      type.any FieldType.isTextual = false ∧ ofNumeral expr = none := by
  unfold resolve
  by_cases hserver : expr = [] ∨ serverSide <+: expr
  · have hfirst : (expr.isEmpty || (Text.after? serverSide expr).isSome) = true := by
      rwa [Bool.or_eq_true, List.isEmpty_iff, Text.isSome_after?]
    rw [if_pos hfirst, ← or_assoc]
    exact iff_of_true rfl (.inl hserver)
  have hfirst : ¬ (expr.isEmpty || (Text.after? serverSide expr).isSome) = true := by
    rwa [Bool.or_eq_true, List.isEmpty_iff, Text.isSome_after?]
  rw [if_neg hfirst, ← or_assoc, or_iff_right hserver]
  -- a numeral is neither a variable nor a keyword, so the cases shut each other out
  have hnumeral (h : ofNumeral expr = none) :
      wholeName? expr = none ∧ keyword? now expr = none := by
    obtain ⟨ds, hds, -⟩ := ofNumeral_eq_none_iff.mp h
    exact ⟨wholeName?_of_digits hds, keyword?_of_digits hds⟩
  cases hname : wholeName? expr with
  | some n =>
    have hno : ofNumeral expr ≠ none := by
      intro h
      rw [(hnumeral h).1] at hname
      cases hname
    simp [hno, SlotTable.lookup?_eq_none_iff]
  | none =>
    cases hkey : keyword? now expr with
    | some d =>
      have hno : ofNumeral expr ≠ none := by
        intro h
        rw [(hnumeral h).2] at hkey
        cases hkey
      simp [hno]
    | none => cases type.any FieldType.isTextual <;> simp

theorem isSome_resolve_at (table : SlotTable) (login : Login) (type : Option FieldType)
    (now other : Instant) (expr : Text) :
    (resolve table login type now expr).isSome = (resolve table login type other expr).isSome := by
  rw [Bool.eq_iff_iff, ← Option.ne_none_iff_isSome, ← Option.ne_none_iff_isSome, ne_eq, ne_eq,
    resolve_eq_none_iff, resolve_eq_none_iff]

theorem text_of_resolve {table : SlotTable} {login : Login} {type : Option FieldType}
    {now : Instant} {expr t : Text} (h : resolve table login type now expr = some (.text t)) :
    t = expr := by
  unfold resolve at h
  split at h
  · cases h
  · split at h
    · obtain ⟨s, -, hs⟩ := Option.map_eq_some_iff.mp h
      cases s <;> cases hs
    · split at h
      · next d hkey => exact absurd (Option.some.inj h) (keyword?_ne_text hkey t)
      · split at h
        · exact (Default.text.inj (Option.some.inj h)).symm
        · exact text_of_ofNumeral h

/-- A time that a default stands for is a whole second. -/
theorem isWhole_of_resolve {table : SlotTable} {login : Login} {type : Option FieldType}
    {now : Instant} {expr : Text} {i : Instant}
    (h : resolve table login type now expr = some (.timestamp i)) : i.IsWhole := by
  unfold resolve at h
  split at h
  · cases h
  · split at h
    · obtain ⟨s, -, hs⟩ := Option.map_eq_some_iff.mp h
      cases s <;> cases hs
    · split at h
      · next d hkey =>
        cases h
        exact isWhole_of_keyword? hkey
      · split at h
        · cases h
        · exact absurd h (ofNumeral_ne_timestamp expr i)

/-- A default has no value just where it is empty, left to the server, a variable of no known
name or, where its type is not textual, a whole number with a digit that is not ASCII. Text is
always the expression itself. -/
theorem resolve_refused_iff (table : SlotTable) (login : Login) (type : Option FieldType)
    (now : Instant) (expr : Text) :
    (resolve table login type now expr = none ↔
      expr = [] ∨ "@SQL=".toList <+: expr ∨
      (∃ name, IsVariable expr name ∧ name ∉ table.names) ∨
      (∀ t, type = some t → t.isTextual = false) ∧
        ∃ ds, DigitRun expr ds ∧ ∃ c ∈ ds, c.isDigit = false) ∧
    ∀ t, resolve table login type now expr = some (.text t) → t = expr := by
  refine ⟨?_, fun t ht => text_of_resolve ht⟩
  have htype : type.any FieldType.isTextual = false ↔ ∀ t, type = some t → t.isTextual = false := by
    cases type <;> simp
  have hvariable : (∃ n, wholeName? expr = some n ∧ bareName n ∉ table.names) ↔
      ∃ name, IsVariable expr name ∧ name ∉ table.names :=
    exists_wholeName_iff (· ∉ table.names)
  rw [resolve_eq_none_iff, hvariable, ofNumeral_eq_none_iff, htype, serverSide]

/-- Minus three with an Arabic digit is refused as an amount. -/
theorem resolve_refused_iff_arabic :
    resolve .builtIn .system (some .amount) ⟨0, 0⟩ "-\u0663".toList = none := by
  have hrun : DigitRun "-\u0663".toList ['\u0663'] :=
    ⟨.inr rfl, by decide, List.forall_mem_singleton.mpr rfl⟩
  refine (resolve_refused_iff .builtIn .system (some .amount) ⟨0, 0⟩ "-\u0663".toList).1.mpr ?_
  refine .inr (.inr (.inr ⟨?_, ['\u0663'], hrun, '\u0663', by decide, by decide⟩))
  rintro t ht
  cases ht
  rfl

end Default

end WhereFilter
