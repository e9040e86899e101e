import WhereFilter.Proofs.Token.Munch
import WhereFilter.Text.Blank
import WhereFilter.Text.Word

namespace WhereFilter

/-- A run that ends in `t` or before `s` is the run of `t`. -/
theorem run_of_append (p : α → Bool) (t : List α) {s : List α} (h : s.head?.any p = false) :
    (t ++ s).takeWhile p = t.takeWhile p ∧ (t ++ s).dropWhile p = t.dropWhile p ++ s := by
  induction t with
  | nil => exact run_append (l := []) (by simp) h
  | cons a t ih =>
    obtain ⟨htake, hdrop⟩ := ih
    cases ha : p a with
    | true => simp [ha, htake, hdrop]
    | false => simp [ha]

namespace Text

theorem after?_append {c : Char} {s : Text} (t : Text) (h : s.head? ≠ some c) :
    after? [c] (t ++ s) = (after? [c] t).map (· ++ s) := by
  cases t with
  | nil =>
    cases s with
    | nil => rfl
    | cons a s =>
      have ha : c ≠ a := by
        rintro rfl
        exact h rfl
      simp [after?, ha]
  | cons a t => by_cases ha : c = a <;> simp [after?, ha]

theorem word?_append {s : Text} (t : Text) (h : s.head?.any isWordChar = false) :
    word? (t ++ s) = (word? t).map fun found => (found.1, found.2 ++ s) := by
  obtain ⟨htake, hdrop⟩ := run_of_append isWordChar t h
  simp only [word?, htake, hdrop]
  cases t.takeWhile isWordChar <;> rfl

/-- A word is read up to where nothing joins it. -/
theorem word?_eq_some {t w rest : Text} :
    word? t = some (w, rest) ↔
      t = w ++ rest ∧ w ≠ [] ∧ (∀ c ∈ w, isWordChar c = true) ∧
        rest.head?.any isWordChar = false := by
  constructor
  · intro h
    have ht := word?_text h
    unfold word? at h
    split at h
    · cases h
    · next hw =>
      simp only [Option.some.injEq, Prod.mk.injEq] at h
      obtain ⟨rfl, rfl⟩ := h
      exact ⟨ht, hw, holds_of_mem_takeWhile, head?_dropWhile _ _⟩
  · rintro ⟨rfl, hn, hw, hr⟩
    obtain ⟨htake, hdrop⟩ := run_append hw hr
    unfold word?
    rw [htake, hdrop]
    split
    · exact absurd rfl hn
    · rfl

end Text

end WhereFilter
