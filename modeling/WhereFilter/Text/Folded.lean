import WhereFilter.Text.Basic

namespace WhereFilter

/-- The lower case of a letter, where two letters beyond ASCII count as ASCII ones: the long
s and the Kelvin sign. -/
def foldCase (c : Char) : Char :=
  if c = '\u017f' then 's' else if c = '\u212a' then 'k' else c.toLower

namespace Text

/-- The front of `t` that spells `word` in any case, and what follows it. -/
def folded? (word t : Text) : Option (Text × Text) :=
  match word, t with
  | [], t => some ([], t)
  | _ :: _, [] => none
  | a :: word, c :: t =>
    if foldCase a = foldCase c then (folded? word t).map fun (s, rest) => (c :: s, rest) else none

theorem folded?_text {word t s rest : Text} (h : folded? word t = some (s, rest)) :
    t = s ++ rest := by
  induction word generalizing t s with
  | nil =>
    simp only [folded?, Option.some.injEq, Prod.mk.injEq] at h
    simp [← h.1, ← h.2]
  | cons a word ih =>
    cases t with
    | nil => simp [folded?] at h
    | cons c t =>
      unfold folded? at h
      split at h
      · simp only [Option.map_eq_some_iff, Prod.exists, Prod.mk.injEq] at h
        obtain ⟨s', _, hs, rfl, rfl⟩ := h
        simp [ih hs]
      · cases h

end Text

end WhereFilter
