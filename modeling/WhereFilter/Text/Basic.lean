namespace WhereFilter

abbrev Text := List Char

namespace Text

/-- Offsets count the bytes of the UTF-8 form. -/
def size : Text → Nat
  | [] => 0
  | c :: t => c.utf8Size + size t

@[simp] theorem size_nil : size [] = 0 := rfl

@[simp] theorem size_cons (c : Char) (t : Text) : size (c :: t) = c.utf8Size + size t := rfl

@[simp] theorem size_append (s t : Text) : size (s ++ t) = size s + size t := by
  induction s with
  | nil => simp
  | cons c s ih => simp [ih, Nat.add_assoc]

theorem size_eq_zero {t : Text} : size t = 0 ↔ t = [] := by
  cases t with
  | nil => simp
  | cons c t =>
    have := c.utf8Size_pos
    simp
    omega

/-- The first byte of a character tells the width of the whole, so a reader
that looks one byte ahead sees this one. -/
def leadByte (c : Char) : Nat :=
  match c.utf8Size with
  | 1 => c.toNat
  | 2 => 0xc0 + c.toNat / 0x40
  | 3 => 0xe0 + c.toNat / 0x1000
  | _ => 0xf0 + c.toNat / 0x40000

/-- Only the ASCII letters have a lower case here. -/
def lower (t : Text) : Text :=
  t.map Char.toLower

/-- What stands behind `lead` in `t`, if `t` starts with it. -/
def after? (lead t : Text) : Option Text :=
  match lead, t with
  | [], t => some t
  | _ :: _, [] => none
  | a :: lead, c :: t => if a = c then after? lead t else none

theorem after?_eq_some {lead t rest : Text} : after? lead t = some rest ↔ t = lead ++ rest := by
  induction lead generalizing t with
  | nil => simp [after?]
  | cons a lead ih =>
    cases t with
    | nil => simp [after?]
    | cons c t =>
      by_cases h : a = c
      · simp [after?, h, ih]
      · simp [after?, h, Ne.symm h]

theorem isSome_after? {lead t : Text} : (after? lead t).isSome = true ↔ lead <+: t := by
  rw [Option.isSome_iff_exists]
  exact exists_congr fun rest => after?_eq_some.trans eq_comm

/-- What stands before `ending` in `t`, if `t` ends with it. -/
def before? (ending t : Text) : Option Text :=
  (after? ending.reverse t.reverse).map List.reverse

theorem before?_eq_some {ending t front : Text} :
    before? ending t = some front ↔ t = front ++ ending := by
  simp only [before?, Option.map_eq_some_iff, after?_eq_some]
  constructor
  · rintro ⟨r, hr, rfl⟩
    have := congrArg List.reverse hr
    simpa using this
  · rintro rfl
    exact ⟨front.reverse, by simp, by simp⟩

end Text

/-- Puts `a` in front of the first of some pieces. -/
def consFirst (a : α) : List (List α) → List (List α)
  | [] => [[a]]
  | p :: ps => (a :: p) :: ps

/-- The pieces between the items that `p` selects; one more piece than such items. -/
def cut (p : α → Bool) : List α → List (List α)
  | [] => [[]]
  | a :: r => if p a then [] :: cut p r else consFirst a (cut p r)

theorem consFirst_ne_nil (a : α) (ps : List (List α)) : consFirst a ps ≠ [] := by
  cases ps <;> simp [consFirst]

theorem cut_ne_nil (p : α → Bool) (l : List α) : cut p l ≠ [] := by
  cases l with
  | nil => simp [cut]
  | cons a r =>
    unfold cut
    split
    · simp
    · exact consFirst_ne_nil a _

theorem cut_of_none {p : α → Bool} {l : List α} (h : ∀ a ∈ l, p a = false) : cut p l = [l] := by
  induction l with
  | nil => rfl
  | cons a r ih =>
    simp only [List.mem_cons, forall_eq_or_imp] at h
    simp [cut, consFirst, h.1, ih h.2]

theorem cut_append {p : α → Bool} {l : List α} (h : ∀ a ∈ l, p a = false) (ha : p a = true)
    (r : List α) : cut p (l ++ a :: r) = l :: cut p r := by
  induction l with
  | nil => simp [cut, ha]
  | cons b l ih =>
    simp only [List.mem_cons, forall_eq_or_imp] at h
    simp [cut, consFirst, h.1, ih h.2]

/-- What stands before and after the first `a`. -/
def cutFirst? [DecidableEq α] (a : α) : List α → Option (List α × List α)
  | [] => none
  | b :: r => if b = a then some ([], r) else (cutFirst? a r).map fun (l, r) => (b :: l, r)

theorem cutFirst?_eq_some [DecidableEq α] {a : α} {l front rest : List α} :
    cutFirst? a l = some (front, rest) ↔ l = front ++ a :: rest ∧ a ∉ front := by
  induction l generalizing front with
  | nil => simp [cutFirst?]
  | cons b l ih =>
    rw [cutFirst?]
    by_cases hb : b = a
    · subst hb
      cases front with
      | nil => simp [eq_comm]
      | cons c front =>
        simp only [↓reduceIte, Option.some.injEq, Prod.mk.injEq, List.cons_append, List.cons.injEq,
          List.mem_cons, not_or]
        constructor
        · rintro ⟨hn, -⟩
          cases hn
        · rintro ⟨⟨rfl, -⟩, hc, -⟩
          exact absurd rfl hc
    · rw [if_neg hb, Option.map_eq_some_iff]
      cases front with
      | nil => simp [hb]
      | cons c front =>
        simp only [Prod.exists, Prod.mk.injEq, List.cons.injEq, List.cons_append, List.mem_cons,
          not_or]
        constructor
        · rintro ⟨f, r, hf, ⟨rfl, rfl⟩, rfl⟩
          obtain ⟨hl, hm⟩ := ih.mp hf
          exact ⟨⟨rfl, hl⟩, Ne.symm hb, hm⟩
        · rintro ⟨⟨rfl, hl⟩, -, hm⟩
          exact ⟨front, rest, ih.mpr ⟨hl, hm⟩, ⟨rfl, rfl⟩, rfl⟩

theorem cutFirst?_eq_none [DecidableEq α] {a : α} {l : List α} : cutFirst? a l = none ↔ a ∉ l := by
  constructor
  · intro h hm
    obtain ⟨front, rest, hl, hf⟩ := List.eq_append_cons_of_mem hm
    rw [cutFirst?_eq_some.mpr ⟨hl, hf⟩] at h
    cases h
  · intro h
    cases hc : cutFirst? a l with
    | none => rfl
    | some found =>
      obtain ⟨hl, -⟩ := cutFirst?_eq_some.mp hc
      rw [hl] at h
      exact absurd (by simp) h

/-- A line ends at `feed`, and one `ret` right before it belongs to the end. What
follows the last `feed` is a line only if there is something. -/
def lines [DecidableEq α] (feed ret : α) : List α → List (List α)
  | [] => []
  | [c] => if c = feed then [[]] else [[c]]
  | c :: d :: r =>
    if c = feed then [] :: lines feed ret (d :: r)
    else if c = ret ∧ d = feed then [] :: lines feed ret r
    else consFirst c (lines feed ret (d :: r))

end WhereFilter
