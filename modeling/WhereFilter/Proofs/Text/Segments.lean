import Mathlib
import WhereFilter.Text.Pattern

namespace WhereFilter

namespace Pattern

variable {p : Pattern α β} {text : β → List α}

/-- A hit takes at least one item from the front. -/
def Advances (p : Pattern α β) : Prop :=
  ∀ back l b rest, p back l = some (b, rest) → ∃ front, front ≠ [] ∧ l = front ++ rest

/-- What stands before a list does not decide whether it starts a hit. -/
def Forward (p : Pattern α β) : Prop :=
  ∀ back l, p back l = p none l

/-- No hit that starts in `u` depends on what `s` adds behind it. -/
def Apart (p : Pattern α β) (u s : List α) : Prop :=
  ∀ back v, v ≠ [] → v <:+ u → p back (v ++ s) = (p back v).map fun hit => (hit.1, hit.2 ++ s)

theorem Covers.advances (hc : p.Covers text) (hn : ∀ b, text b ≠ []) : p.Advances := by
  intro back l b rest h
  exact ⟨text b, hn b, hc back l b rest h⟩

theorem segmentsFrom_of_none {back : Option α} {a : α} {r : List α} (h : p back (a :: r) = none) :
    segmentsFrom p back 0 (a :: r) = .item a :: segmentsFrom p (some a) 0 r := by
  rw [segmentsFrom, h]

theorem segmentsFrom_of_hit {back : Option α} {front rest : List α} {b : β} (hn : front ≠ [])
    (h : p back (front ++ rest) = some (b, rest)) :
    segmentsFrom p back 0 (front ++ rest) = .hit b :: segmentsFrom p front.getLast? 0 rest := by
  obtain ⟨a, front, rfl⟩ := List.exists_cons_of_ne_nil hn
  rw [List.cons_append] at h ⊢
  rw [segmentsFrom, h]
  have hlen : (front ++ rest).length - rest.length = front.length := by simp
  simp only [hlen, segmentsFrom_covered, List.getLast?_cons]
  cases front.getLast? <;> rfl

theorem segmentsFrom_append (ha : p.Advances) {u s : List α} (h : p.Apart u s)
    (back : Option α) :
    segmentsFrom p back 0 (u ++ s) =
      segmentsFrom p back 0 u ++ segmentsFrom p (u.getLast?.or back) 0 s := by
  -- a hit moves on by more than one item
  suffices hall : ∀ n u back, u.length ≤ n → p.Apart u s →
      segmentsFrom p back 0 (u ++ s) =
        segmentsFrom p back 0 u ++ segmentsFrom p (u.getLast?.or back) 0 s by
    exact hall u.length u back (Nat.le_refl _) h
  intro n
  induction n with
  | zero =>
    intro u back hl _
    have hu : u = [] := List.length_eq_zero_iff.mp (by omega)
    simp [hu, segmentsFrom]
  | succ n ih =>
    intro u back hl h
    cases u with
    | nil => simp [segmentsFrom]
    | cons a r =>
      have hp := h back (a :: r) (by simp) (List.suffix_refl _)
      cases hr : p back (a :: r) with
      | none =>
        rw [hr, Option.map_none] at hp
        have happ : p.Apart r s := fun back v hv hs => h back v hv (hs.trans (List.suffix_cons a r))
        rw [List.cons_append] at hp ⊢
        rw [segmentsFrom_of_none hp, segmentsFrom_of_none hr,
          ih r (some a) (by simp at hl; omega) happ, List.cons_append, List.getLast?_cons]
        cases r.getLast? <;> rfl
      | some hit =>
        obtain ⟨b, rest⟩ := hit
        obtain ⟨front, hn, hf⟩ := ha _ _ _ _ hr
        have hpos := List.length_pos_iff.mpr hn
        rw [hr, Option.map_some, hf, List.append_assoc] at hp
        rw [hf] at hr hl ⊢
        have happ : p.Apart rest s := fun back v hv hs =>
          h back v hv (hs.trans (hf ▸ List.suffix_append front rest))
        rw [List.append_assoc, segmentsFrom_of_hit hn hp, segmentsFrom_of_hit hn hr,
          ih rest _ (by simp at hl; omega) happ, List.cons_append, List.getLast?_append]
        have hlast : (front.getLast?).isSome = true := by simpa using hn
        obtain ⟨c, hc⟩ := Option.isSome_iff_exists.mp hlast
        cases rest.getLast? <;> simp [hc]

theorem segmentsFrom_forward (hf : p.Forward) (back : Option α) (n : Nat) (l : List α) :
    segmentsFrom p back n l = segmentsFrom p none n l := by
  cases l with
  | nil => simp [segmentsFrom]
  | cons a r =>
    cases n with
    | zero => rw [segmentsFrom, segmentsFrom, hf back]
    | succ n => rw [segmentsFrom, segmentsFrom]

@[simp] theorem segments_nil : segments p [] = [] := rfl

theorem segments_of_none (hf : p.Forward) {a : α} {r : List α} (h : p none (a :: r) = none) :
    segments p (a :: r) = .item a :: segments p r := by
  rw [segments, segmentsFrom_of_none h, segmentsFrom_forward hf]
  rfl

theorem segments_of_hit (hf : p.Forward) {front rest : List α} {b : β} (hn : front ≠ [])
    (h : p none (front ++ rest) = some (b, rest)) :
    segments p (front ++ rest) = .hit b :: segments p rest := by
  rw [segments, segmentsFrom_of_hit hn h, segmentsFrom_forward hf]
  rfl

theorem segments_append (hf : p.Forward) (ha : p.Advances) {u s : List α} (h : p.Apart u s) :
    segments p (u ++ s) = segments p u ++ segments p s := by
  rw [segments, segmentsFrom_append ha h, segmentsFrom_forward hf (u.getLast?.or none)]
  rfl

/-- A list is empty, or starts with an item or a hit. -/
theorem segments_cases (hf : p.Forward) (ha : p.Advances) (l : List α) :
    l = [] ∨
    (∃ a r, l = a :: r ∧ p none l = none ∧ segments p l = .item a :: segments p r) ∨
    ∃ b front rest, front ≠ [] ∧ l = front ++ rest ∧ p none l = some (b, rest) ∧
      segments p l = .hit b :: segments p rest := by
  cases l with
  | nil => exact .inl rfl
  | cons a r =>
    cases h : p none (a :: r) with
    | none => exact .inr (.inl ⟨a, r, rfl, rfl, segments_of_none hf h⟩)
    | some hit =>
      obtain ⟨b, rest⟩ := hit
      obtain ⟨front, hn, he⟩ := ha _ _ _ _ h
      rw [he] at h ⊢
      exact .inr (.inr ⟨b, front, rest, hn, rfl, rfl, segments_of_hit hf hn h⟩)

theorem replace_of_item {hit : β → List α} {a : α} {l r : List α}
    (h : segments p l = .item a :: segments p r) :
    replace p hit l = a :: replace p hit r := by
  simp [replace, render, h]

theorem replace_of_hit {hit : β → List α} {b : β} {l r : List α}
    (h : segments p l = .hit b :: segments p r) :
    replace p hit l = hit b ++ replace p hit r := by
  simp [replace, render, h]

end Pattern

end WhereFilter
