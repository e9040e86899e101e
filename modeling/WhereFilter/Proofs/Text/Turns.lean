import WhereFilter.Proofs.Text.Segments

namespace WhereFilter

namespace Pattern

variable {p : Pattern α β} {item : α → List γ} {hit : β → List γ}

/-- What `render` writes for a list that has `back` before it. -/
def renderFrom (p : Pattern α β) (item : α → List γ) (hit : β → List γ) (back : Option α)
    (l : List α) : List γ :=
  (segmentsFrom p back 0 l).flatMap fun
    | .item a => item a
    | .hit b => hit b

theorem renderFrom_of_none {back : Option α} {a : α} {r : List α} (h : p back (a :: r) = none) :
    renderFrom p item hit back (a :: r) = item a ++ renderFrom p item hit (some a) r := by
  rw [renderFrom, segmentsFrom_of_none h]
  rfl

theorem renderFrom_of_hit {back : Option α} {u rest : List α} {a : α} {b : β}
    (h : p back (u ++ a :: rest) = some (b, rest)) :
    renderFrom p item hit back (u ++ a :: rest) = hit b ++ renderFrom p item hit (some a) rest := by
  have hsplit : u ++ a :: rest = (u ++ [a]) ++ rest := by simp
  rw [hsplit] at h ⊢
  rw [renderFrom, segmentsFrom_of_hit (by simp) h, List.getLast?_concat]
  rfl

/-- No hit starts in `u` where `s` follows. -/
def Still (p : Pattern α β) (u s : List α) : Prop :=
  ∀ back v, v ≠ [] → v <:+ u → p back (v ++ s) = none

theorem still_nil {s : List α} : p.Still [] s := by
  intro back v hv hs
  exact absurd (List.suffix_nil.mp hs) hv

theorem still_cons {a : α} {u s : List α} :
    p.Still (a :: u) s ↔ (∀ back, p back (a :: (u ++ s)) = none) ∧ p.Still u s := by
  constructor
  · intro h
    refine ⟨fun back => h back (a :: u) (by simp) List.suffix_rfl, ?_⟩
    intro back v hv hs
    exact h back v hv (hs.trans (List.suffix_cons a u))
  · intro ⟨ha, hu⟩ back v hv hs
    rcases List.suffix_cons_iff.mp hs with rfl | hs
    · exact ha back
    · exact hu back v hv hs

theorem Still.append {u v s : List α} (hu : p.Still u (v ++ s)) (hv : p.Still v s) :
    p.Still (u ++ v) s := by
  induction u with
  | nil => exact hv
  | cons a u ih =>
    obtain ⟨ha, hu⟩ := still_cons.mp hu
    refine still_cons.mpr ⟨fun back => ?_, ih hu⟩
    have hb := ha back
    rwa [← List.append_assoc] at hb

/-- Items that no hit starts with. -/
theorem still_of_heads {u s : List α} (h : ∀ a ∈ u, ∀ back r, p back (a :: r) = none) :
    p.Still u s := by
  induction u with
  | nil => exact still_nil
  | cons a u ih =>
    simp only [List.mem_cons, forall_eq_or_imp] at h
    exact still_cons.mpr ⟨fun back => h.1 back _, ih h.2⟩

theorem segments_of_still (hf : p.Forward) {u s : List α} (h : p.Still u s) :
    p.segments (u ++ s) = u.map .item ++ p.segments s := by
  induction u with
  | nil => rfl
  | cons a u ih =>
    obtain ⟨ha, hu⟩ := still_cons.mp h
    rw [List.cons_append, segments_of_none hf (ha none), ih hu]
    rfl

/-- In front of `s`, `u` is written as `u'`, whatever stands before it. -/
def Turns (p : Pattern α β) (item : α → List γ) (hit : β → List γ) (u s : List α)
    (u' : List γ) : Prop :=
  ∀ back, ∃ back', renderFrom p item hit back (u ++ s) = u' ++ renderFrom p item hit back' s

theorem Turns.append {u v s : List α} {u' v' : List γ} (hu : p.Turns item hit u (v ++ s) u')
    (hv : p.Turns item hit v s v') : p.Turns item hit (u ++ v) s (u' ++ v') := by
  intro back
  obtain ⟨back', hu⟩ := hu back
  obtain ⟨back'', hv⟩ := hv back'
  exact ⟨back'', by rw [List.append_assoc, hu, hv, List.append_assoc]⟩

theorem renderFrom_of_still {u s : List α} (h : p.Still u s) (back : Option α) :
    renderFrom p item hit back (u ++ s) =
      u.flatMap item ++ renderFrom p item hit (u.getLast?.or back) s := by
  induction u generalizing back with
  | nil => rfl
  | cons a u ih =>
    obtain ⟨ha, hu⟩ := still_cons.mp h
    have hlast : ((a :: u).getLast?).or back = u.getLast?.or (some a) := by
      rw [List.getLast?_cons]
      cases u.getLast? <;> rfl
    have hrest := ih hu (some a)
    rw [renderFrom] at hrest
    rw [renderFrom, List.cons_append, segmentsFrom_of_none (ha back), List.flatMap_cons, hrest,
      hlast, List.flatMap_cons, List.append_assoc]

theorem Turns.of_still {u s : List α} (h : p.Still u s) : p.Turns item hit u s (u.flatMap item) :=
  fun back => ⟨_, renderFrom_of_still h back⟩

/-- Behind `g`, where no hit starts, `u` is a hit. -/
theorem Turns.of_hit_behind {g u s : List α} {b : β} (hg : p.Still g (u ++ s)) (hu : u ≠ [])
    (h : ∀ back, p (g.getLast?.or back) (u ++ s) = some (b, s)) :
    p.Turns item hit (g ++ u) s (g.flatMap item ++ hit b) := by
  intro back
  refine ⟨u.getLast?, ?_⟩
  rw [List.append_assoc, renderFrom_of_still hg, renderFrom, segmentsFrom_of_hit hu (h back),
    List.flatMap_cons, List.append_assoc]
  rfl

theorem Turns.of_hit {u s : List α} {b : β} (hu : u ≠ [])
    (h : ∀ back, p back (u ++ s) = some (b, s)) : p.Turns item hit u s (hit b) :=
  Turns.of_hit_behind (g := []) still_nil hu h

theorem Turns.render {u : List α} {u' : List γ} (h : p.Turns item hit u [] u') :
    p.render item hit u = u' := by
  obtain ⟨back', h⟩ := h none
  have hnil : renderFrom p item hit back' [] = [] := by simp [renderFrom, segmentsFrom]
  rw [hnil, List.append_nil, List.append_nil] at h
  exact h

end Pattern

end WhereFilter
