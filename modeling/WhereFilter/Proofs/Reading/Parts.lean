import Mathlib
import WhereFilter.Rule.Reading

namespace WhereFilter

/-- How many parentheses are open behind `ls`, where one that closes nothing is passed over. -/
def depthAfter : Nat → List Lexeme → Nat
  | depth, [] => depth
  | depth, l :: ls =>
    if l.is .parenLeft then depthAfter (depth + 1) ls
    else if l.is .parenRight then depthAfter (depth - 1) ls
    else depthAfter depth ls

/-- How many parentheses are open behind `ls`, if each that closes has one to close. -/
def heightAfter? : Nat → List Lexeme → Option Nat
  | height, [] => some height
  | height, l :: ls =>
    if l.is .parenLeft then heightAfter? (height + 1) ls
    else if l.is .parenRight then
      match height with
      | 0 => none
      | height + 1 => heightAfter? height ls
    else heightAfter? height ls

theorem Lexeme.paren_cases (l : Lexeme) :
    l.is .parenLeft = true ∨ (l.is .parenLeft = false ∧ l.is .parenRight = true) ∨
      (l.is .parenLeft = false ∧ l.is .parenRight = false) := by
  cases hl : l.is .parenLeft <;> cases hr : l.is .parenRight <;> simp

theorem depthAfter_append (d : Nat) (xs ys : List Lexeme) :
    depthAfter d (xs ++ ys) = depthAfter (depthAfter d xs) ys := by
  induction xs generalizing d with
  | nil => rfl
  | cons x xs ih =>
    rcases x.paren_cases with hl | ⟨hl, hr⟩ | ⟨hl, hr⟩ <;> simp [depthAfter, *]

theorem heightAfter?_append (h : Nat) (xs ys : List Lexeme) :
    heightAfter? h (xs ++ ys) = (heightAfter? h xs).bind (heightAfter? · ys) := by
  induction xs generalizing h with
  | nil => rfl
  | cons x xs ih =>
    rcases x.paren_cases with hl | ⟨hl, hr⟩ | ⟨hl, hr⟩
    · simp [heightAfter?, *]
    · cases h <;> simp [heightAfter?, *]
    · simp [heightAfter?, *]

theorem depthAfter_of_height {h k : Nat} {xs : List Lexeme} (hh : heightAfter? h xs = some k) :
    depthAfter h xs = k := by
  induction xs generalizing h with
  | nil => simpa [heightAfter?, depthAfter] using hh
  | cons x xs ih =>
    rcases x.paren_cases with hl | ⟨hl, hr⟩ | ⟨hl, hr⟩
    · simp only [heightAfter?, hl, if_true] at hh
      simp [depthAfter, hl, ih hh]
    · cases h with
      | zero => simp [heightAfter?, hl, hr] at hh
      | succ h =>
        simp only [heightAfter?, hl, hr, Bool.false_eq_true, if_false, if_true] at hh
        simp [depthAfter, hl, hr, ih hh]
    · simp only [heightAfter?, hl, hr, Bool.false_eq_true, if_false] at hh
      simp [depthAfter, hl, hr, ih hh]

/-- What closes its own parentheses leaves those around it open. -/
theorem heightAfter?_add {h k : Nat} {xs : List Lexeme} (hh : heightAfter? h xs = some k)
    (n : Nat) : heightAfter? (h + n) xs = some (k + n) := by
  induction xs generalizing h with
  | nil => simp_all [heightAfter?]
  | cons x xs ih =>
    rcases x.paren_cases with hl | ⟨hl, hr⟩ | ⟨hl, hr⟩
    · simp only [heightAfter?, hl, if_true] at hh ⊢
      rw [Nat.add_right_comm]
      exact ih hh
    · cases h with
      | zero => simp [heightAfter?, hl, hr] at hh
      | succ h =>
        simp only [heightAfter?, hl, hr, Bool.false_eq_true, if_false, if_true] at hh
        rw [Nat.add_right_comm]
        simpa [heightAfter?, hl, hr] using ih hh
    · simp only [heightAfter?, hl, hr, Bool.false_eq_true, if_false] at hh
      simpa [heightAfter?, hl, hr] using ih hh

theorem foldr_consFirst (xs p : List α) (ps : List (List α)) :
    xs.foldr consFirst (p :: ps) = (xs ++ p) :: ps := by
  induction xs with
  | nil => rfl
  | cons x xs ih => simp [ih, consFirst]

theorem consFirst_eq_singleton {a : α} {l : List α} {ps : List (List α)} (hn : ps ≠ [])
    (h : consFirst a ps = [a :: l]) : ps = [l] := by
  cases ps with
  | nil => exact absurd rfl hn
  | cons p ps => simpa [consFirst] using h

theorem parts_ne_nil (w : Text) (d : Nat) (ls : List Lexeme) : parts w d ls ≠ [] := by
  cases ls with
  | nil => simp [parts]
  | cons l ls =>
    unfold parts
    split
    · exact consFirst_ne_nil _ _
    · split
      · exact consFirst_ne_nil _ _
      · split
        · simp
        · exact consFirst_ne_nil _ _

theorem parts_append {w : Text} {d : Nat} {xs : List Lexeme} (h : parts w d xs = [xs])
    (ys : List Lexeme) :
    parts w d (xs ++ ys) = xs.foldr consFirst (parts w (depthAfter d xs) ys) := by
  induction xs generalizing d with
  | nil => rfl
  | cons x xs ih =>
    have rest {e : Nat} (hc : consFirst x (parts w e xs) = [x :: xs]) : parts w e xs = [xs] :=
      consFirst_eq_singleton (parts_ne_nil w e xs) hc
    rcases x.paren_cases with hl | ⟨hl, hr⟩ | ⟨hl, hr⟩
    · simp only [parts, hl, if_true] at h
      simp [parts, depthAfter, hl, ih (rest h)]
    · simp only [parts, hl, hr, Bool.false_eq_true, if_false, if_true] at h
      simp [parts, depthAfter, hl, hr, ih (rest h)]
    · simp only [parts, hl, hr, Bool.false_eq_true, if_false] at h
      split at h
      · cases h
      · next hw =>
        simp only [List.cons_append, parts, depthAfter, hl, hr, hw, Bool.false_eq_true, if_false,
          List.foldr_cons, ih (rest h)]

theorem parts_of_append {w : Text} {d : Nat} {xs ys : List Lexeme}
    (h : parts w d (xs ++ ys) = [xs ++ ys]) :
    parts w d xs = [xs] ∧ parts w (depthAfter d xs) ys = [ys] := by
  induction xs generalizing d with
  | nil => exact ⟨rfl, h⟩
  | cons x xs ih =>
    have rest {e : Nat} (hc : consFirst x (parts w e (xs ++ ys)) = [x :: (xs ++ ys)]) :
        consFirst x (parts w e xs) = [x :: xs] ∧ parts w (depthAfter e xs) ys = [ys] := by
      obtain ⟨hx, hy⟩ := ih (consFirst_eq_singleton (parts_ne_nil w e _) hc)
      exact ⟨by rw [hx]; rfl, hy⟩
    rcases x.paren_cases with hl | ⟨hl, hr⟩ | ⟨hl, hr⟩
    · simp only [List.cons_append, parts, hl, if_true] at h
      simpa [parts, depthAfter, hl] using rest h
    · simp only [List.cons_append, parts, hl, hr, Bool.false_eq_true, if_false, if_true] at h
      simpa [parts, depthAfter, hl, hr] using rest h
    · simp only [List.cons_append, parts, hl, hr, Bool.false_eq_true, if_false] at h
      split at h
      · cases h
      · next hw =>
        simp only [parts, depthAfter, hl, hr, hw, Bool.false_eq_true, if_false]
        exact rest h

/-- Inside parentheses nothing is cut. -/
theorem parts_append_of_height {w : Text} {h k : Nat} {xs : List Lexeme}
    (hh : heightAfter? h xs = some k) (ys : List Lexeme) :
    parts w (h + 1) (xs ++ ys) = xs.foldr consFirst (parts w (k + 1) ys) := by
  induction xs generalizing h with
  | nil =>
    simp only [heightAfter?, Option.some.injEq] at hh
    rw [hh]
    rfl
  | cons x xs ih =>
    rcases x.paren_cases with hl | ⟨hl, hr⟩ | ⟨hl, hr⟩
    · simp only [heightAfter?, hl, if_true] at hh
      simp [parts, hl, ih hh]
    · cases h with
      | zero => simp [heightAfter?, hl, hr] at hh
      | succ h =>
        simp only [heightAfter?, hl, hr, Bool.false_eq_true, if_false, if_true] at hh
        simp [parts, hl, hr, ih hh]
    · simp only [heightAfter?, hl, hr, Bool.false_eq_true, if_false] at hh
      simp [parts, hl, hr, ih hh]

/-- A list is one part, or its first part ends before a word `w` outside parentheses. -/
theorem parts_cases (w : Text) (d : Nat) (ls : List Lexeme) :
    parts w d ls = [ls] ∨
      ∃ p c rest, ls = p ++ c :: rest ∧ c.is .parenLeft = false ∧ c.is .parenRight = false ∧
        c.isWord w = true ∧ parts w d p = [p] ∧ depthAfter d p = 0 ∧
        parts w d ls = p :: parts w 0 rest := by
  induction ls generalizing d with
  | nil => exact .inl rfl
  | cons l ls ih =>
    -- `l` joins the first part of what follows, unless it is itself a word to cut at
    have join (e : Nat) (hp : ∀ xs, parts w d (l :: xs) = consFirst l (parts w e xs))
        (hd : ∀ xs, depthAfter d (l :: xs) = depthAfter e xs) :
        parts w d (l :: ls) = [l :: ls] ∨
          ∃ p c rest, l :: ls = p ++ c :: rest ∧ c.is .parenLeft = false ∧
            c.is .parenRight = false ∧ c.isWord w = true ∧ parts w d p = [p] ∧
            depthAfter d p = 0 ∧ parts w d (l :: ls) = p :: parts w 0 rest := by
      rcases ih e with h | ⟨p, c, rest, rfl, hcl, hcr, hcw, hpp, hpd, hps⟩
      · left
        rw [hp, h]
        rfl
      · refine .inr ⟨l :: p, c, rest, rfl, hcl, hcr, hcw, ?_, ?_, ?_⟩
        · rw [hp, hpp]
          rfl
        · rw [hd, hpd]
        · rw [hp, hps]
          rfl
    rcases l.paren_cases with hl | ⟨hl, hr⟩ | ⟨hl, hr⟩
    · exact join (d + 1) (by simp [parts, hl]) (by simp [depthAfter, hl])
    · exact join (d - 1) (by simp [parts, hl, hr]) (by simp [depthAfter, hl, hr])
    · cases hw : d == 0 && l.isWord w with
      | false =>
        exact join d (fun xs => by simp only [parts, hl, hr, hw, Bool.false_eq_true, if_false])
          (by simp [depthAfter, hl, hr])
      | true =>
        have hd : d = 0 := by simp_all
        have hlw : l.isWord w = true := by simp_all
        subst hd
        exact .inr ⟨[], l, ls, rfl, hl, hr, hlw, rfl, rfl, by simp [parts, hl, hr, hlw]⟩

/-- What holds of a list that is one part, and of a list with one part more if it holds behind
the first cut, holds of every list and its parts. -/
theorem parts_induction {w : Text} {motive : List Lexeme → List (List Lexeme) → Prop}
    (whole : ∀ ls, parts w 0 ls = [ls] → motive ls [ls])
    (cut : ∀ p c rest, c.isWord w = true → parts w 0 p = [p] → depthAfter 0 p = 0 →
      motive rest (parts w 0 rest) → motive (p ++ c :: rest) (p :: parts w 0 rest))
    (ls : List Lexeme) : motive ls (parts w 0 ls) := by
  induction hn : ls.length using Nat.strongRecOn generalizing ls with
  | ind n ih =>
    subst hn
    rcases parts_cases w 0 ls with hps | ⟨p, c, rest, rfl, -, -, hw, hp, hd, hps⟩
    · exact hps ▸ whole ls hps
    · rw [hps]
      exact cut p c rest hw hp hd (ih _ (by simp; omega) rest rfl)

theorem untilClose?_append {h k : Nat} {xs : List Lexeme} (hh : heightAfter? h xs = some k)
    (ys : List Lexeme) : untilClose? h (xs ++ ys) = (untilClose? k ys).map (xs ++ ·) := by
  induction xs generalizing h with
  | nil =>
    simp only [heightAfter?, Option.some.injEq] at hh
    simp [hh]
  | cons x xs ih =>
    rcases x.paren_cases with hl | ⟨hl, hr⟩ | ⟨hl, hr⟩
    · simp only [heightAfter?, hl, if_true] at hh
      simp [untilClose?, hl, ih hh, Function.comp_def]
    · cases h with
      | zero => simp [heightAfter?, hl, hr] at hh
      | succ h =>
        simp only [heightAfter?, hl, hr, Bool.false_eq_true, if_false, if_true] at hh
        simp [untilClose?, hl, hr, ih hh, Function.comp_def]
    · simp only [heightAfter?, hl, hr, Bool.false_eq_true, if_false] at hh
      simp [untilClose?, hl, hr, ih hh, Function.comp_def]

theorem of_untilClose? {h : Nat} {ls inner : List Lexeme} (hu : untilClose? h ls = some inner) :
    ∃ close, ls = inner ++ [close] ∧ close.is .parenLeft = false ∧ close.is .parenRight = true ∧
      heightAfter? h inner = some 0 := by
  induction ls generalizing h inner with
  | nil => cases hu
  | cons l ls ih =>
    have join {e : Nat} (hm : (untilClose? e ls).map (l :: ·) = some inner)
        (hd : ∀ xs, heightAfter? h (l :: xs) = heightAfter? e xs) :
        ∃ close, l :: ls = inner ++ [close] ∧ close.is .parenLeft = false ∧
          close.is .parenRight = true ∧ heightAfter? h inner = some 0 := by
      obtain ⟨i, hi, rfl⟩ := Option.map_eq_some_iff.mp hm
      obtain ⟨close, rfl, hcl, hcr, hh⟩ := ih hi
      exact ⟨close, rfl, hcl, hcr, by rw [hd, hh]⟩
    rcases l.paren_cases with hl | ⟨hl, hr⟩ | ⟨hl, hr⟩
    · simp only [untilClose?, hl, if_true] at hu
      exact join hu (by simp [heightAfter?, hl])
    · simp only [untilClose?, hl, hr, Bool.false_eq_true, if_false, if_true] at hu
      cases h with
      | zero =>
        simp only at hu
        split at hu
        · next he =>
          simp only [Option.some.injEq] at hu
          subst hu
          rw [List.isEmpty_iff.mp he]
          exact ⟨l, rfl, hl, hr, rfl⟩
        · cases hu
      | succ h => exact join hu (by simp [heightAfter?, hl, hr])
    · simp only [untilClose?, hl, hr, Bool.false_eq_true, if_false] at hu
      exact join hu (by simp [heightAfter?, hl, hr])

/-- A group is one pair of parentheses around lexemes that close all they open. -/
theorem inside?_eq_some_iff {ls inner : List Lexeme} :
    inside? ls = some inner ↔
      ∃ o c, ls = o :: inner ++ [c] ∧ o.is .parenLeft = true ∧ c.is .parenLeft = false ∧
        c.is .parenRight = true ∧ heightAfter? 0 inner = some 0 := by
  constructor
  · intro h
    cases ls with
    | nil => cases h
    | cons o ls =>
      simp only [inside?] at h
      split at h
      · next ho =>
        obtain ⟨c, rfl, hcl, hcr, hh⟩ := of_untilClose? h
        exact ⟨o, c, rfl, ho, hcl, hcr, hh⟩
      · cases h
  · rintro ⟨o, c, rfl, ho, hcl, hcr, hh⟩
    simp [inside?, ho, untilClose?_append hh, untilClose?, hcl, hcr]

end WhereFilter
