import WhereFilter.Proofs.Language.Phrases
import WhereFilter.Proofs.Layout.Squash

namespace WhereFilter

namespace Pattern

variable {p : Pattern α β} {item : α → List γ} {hit : β → List γ}

theorem hits_eq_render (p : Pattern α β) (l : List α) :
    p.hits l = p.render (fun _ => []) (fun b => [b]) l := by
  rw [hits, render]
  induction segments p l with
  | nil => rfl
  | cons x xs ih => cases x <;> simp [ih]

/-- A pattern over text that takes white space for what it is: no hit starts or ends with a gap,
what stands before a hit counts only as part of a word or not, and neither the length of a gap nor
a gap at the end of the text makes a difference. -/
structure Steady (p : Pattern Char β) (f : β → β) : Prop where
  gap {back : Option Char} {c : Char} {s : Text} : Token.isGapChar c = true → p back (c :: s) = none
  back {back back' : Option Char} {s : Text} :
    back.any isWordChar = back'.any isWordChar → p back s = p back' s
  solid {back : Option Char} {s rest : Text} {b : β} : p back s = some (b, rest) →
    ∃ u c, s = u ++ c :: rest ∧ Token.isGapChar c = false
  squash (back : Option Char) (s : Text) :
    p back (Text.squash s) = (p back s).map (Prod.map f Text.squash)
  pad (back : Option Char) (s : Text) :
    p back (Text.pad s) = (p back s).map (Prod.map id Text.pad)

namespace Steady

variable {p : Pattern Char β} {f : β → β} {item : Char → List γ} {hit : β → List γ}

theorem advances (h : p.Steady f) : p.Advances := by
  intro back l b rest hp
  obtain ⟨u, c, rfl, -⟩ := h.solid hp
  exact ⟨u ++ [c], by simp, by simp⟩

theorem still (h : p.Steady f) {g : Text} (hg : IsGap g) (s : Text) : p.Still g s :=
  still_of_heads fun c hc _ _ => h.gap (hg c hc)

theorem renderFrom_back (h : p.Steady f) {back back' : Option Char}
    (hb : back.any isWordChar = back'.any isWordChar) (s : Text) :
    renderFrom p item hit back s = renderFrom p item hit back' s := by
  cases s with
  | nil => rfl
  | cons c s =>
    cases hp : p back (c :: s) with
    | none =>
      have hp' : p back' (c :: s) = none := by rw [← h.back hb, hp]
      rw [renderFrom_of_none hp, renderFrom_of_none hp']
    | some found =>
      obtain ⟨b, rest⟩ := found
      obtain ⟨u, d, hu, -⟩ := h.solid hp
      rw [hu] at hp ⊢
      have hp' : p back' (u ++ d :: rest) = some (b, rest) := by rw [← h.back hb, hp]
      rw [renderFrom_of_hit hp, renderFrom_of_hit hp']

theorem renderFrom_pad (h : p.Steady f) (back : Option Char) (s : Text) :
    renderFrom p item hit back (Text.pad s) = renderFrom p item hit back s ++ item ' ' := by
  induction hn : s.length using Nat.strongRecOn generalizing s back with
  | ind n ih =>
    subst hn
    have hpad := h.pad back s
    cases s with
    | nil =>
      have hgap : p back (Text.pad []) = none := h.gap rfl
      rw [Text.pad, List.nil_append, renderFrom_of_none hgap]
      simp [renderFrom, segmentsFrom]
    | cons c s =>
      cases hp : p back (c :: s) with
      | none =>
        have hnone : p back (c :: Text.pad s) = none := by
          rw [← Text.pad_cons, hpad, hp]
          rfl
        rw [Text.pad_cons, renderFrom_of_none hnone, renderFrom_of_none hp,
          ih s.length (by simp) (some c) s rfl, List.append_assoc]
      | some found =>
        obtain ⟨b, rest⟩ := found
        obtain ⟨u, d, hu, -⟩ := h.solid hp
        rw [hp, hu, Text.pad_append, Text.pad_cons] at hpad
        rw [hu] at hp ⊢
        rw [Text.pad_append, Text.pad_cons, renderFrom_of_hit hpad, renderFrom_of_hit hp,
          ih rest.length (by rw [hu]; simp; omega) (some d) rest rfl, List.append_assoc]
        rfl

theorem render_pad (h : p.Steady f) (s : Text) :
    render p item hit (Text.pad s) = render p item hit s ++ item ' ' :=
  h.renderFrom_pad none s

theorem render_indent (h : p.Steady f) (s : Text) :
    render p item hit (' ' :: s) = item ' ' ++ render p item hit s := by
  have hfront : renderFrom p item hit none (' ' :: s) =
      item ' ' ++ renderFrom p item hit (some ' ') s :=
    renderFrom_of_none (h.gap rfl)
  have hspace : (some ' ').any isWordChar = (none : Option Char).any isWordChar := rfl
  rw [h.renderFrom_back hspace] at hfront
  exact hfront

/-- What is written for a squashed text is what is written for the text, as far as `E` tells. -/
theorem renderFrom_squash {E : List γ → List γ → Prop} (h : p.Steady f) (hnil : E [] [])
    (happend : ∀ {u u' v v'}, E u u' → E v v' → E (u ++ v) (u' ++ v'))
    (hitem : ∀ c, E (item c) (item c))
    (hgap : ∀ g, IsGap g → g ≠ [] → E (item ' ') (g.flatMap item))
    (hhit : ∀ b, E (hit (f b)) (hit b)) {back back' : Option Char}
    (hb : back.any isWordChar = back'.any isWordChar) (s : Text) :
    E (renderFrom p item hit back' (Text.squash s)) (renderFrom p item hit back s) := by
  induction hn : s.length using Nat.strongRecOn generalizing s back back' with
  | ind n ih =>
    subst hn
    have hsquash (s : Text) : p back' (Text.squash s) = (p back s).map (Prod.map f Text.squash) :=
      (h.back hb.symm).trans (h.squash back s)
    cases s with
    | nil => exact hnil
    | cons c s =>
      cases hc : Token.isGapChar c with
      | true =>
        have hg : IsGap (c :: s.takeWhile Token.isGapChar) := by
          intro a ha
          rcases List.mem_cons.mp ha with rfl | ha
          · exact hc
          · exact List.mem_takeWhile_imp ha
        have hsplit : c :: s = (c :: s.takeWhile Token.isGapChar) ++ s.dropWhile Token.isGapChar := by
          rw [List.cons_append, List.takeWhile_append_dropWhile]
        have hlen := (List.dropWhile_suffix (l := s) Token.isGapChar).length_le
        have hleft : renderFrom p item hit back' (Text.squash (c :: s)) = item ' ' ++
            renderFrom p item hit (some ' ') (Text.squash (s.dropWhile Token.isGapChar)) := by
          rw [Text.squash_gap hc, renderFrom_of_none (h.gap rfl)]
        rw [hleft, hsplit, renderFrom_of_still (h.still hg _)]
        have hword := Language.not_wordChar_of_gap hg (by simp) back
        exact happend (hgap _ hg (by simp)) (ih _ (by simp; omega) hword _ rfl)
      | false =>
        cases hp : p back (c :: s) with
        | none =>
          have hnone := hsquash (c :: s)
          rw [hp, Text.squash_solid hc] at hnone
          rw [Text.squash_solid hc, renderFrom_of_none hnone, renderFrom_of_none hp]
          exact happend (hitem c) (ih s.length (by simp) rfl s rfl)
        | some found =>
          obtain ⟨b, rest⟩ := found
          obtain ⟨u, d, hu, hd⟩ := h.solid hp
          have hhit' := hsquash (c :: s)
          rw [hp, hu, Text.squash_append_solid hd] at hhit'
          rw [hu] at hp ⊢
          rw [Text.squash_append_solid hd, renderFrom_of_hit hhit', renderFrom_of_hit hp]
          exact happend (hhit b) (ih rest.length (by rw [hu]; simp; omega) rfl rest rfl)

theorem replace_squash {hit : β → Text} (h : p.Steady f)
    (hhit : ∀ b, Text.Spaced (hit (f b)) (hit b)) (s : Text) :
    Text.Spaced (p.replace hit (Text.squash s)) (p.replace hit s) := by
  refine h.renderFrom_squash (E := Text.Spaced) rfl Text.Spaced.append (fun c => rfl) ?_ hhit rfl s
  intro g hg hn
  have hrun := Text.squash_run (s := []) hg hn rfl
  rw [List.append_nil] at hrun
  rw [List.flatMap_singleton', Text.Spaced, hrun]
  rfl

theorem replace_pad {hit : β → Text} (h : p.Steady f) (s : Text) :
    p.replace hit (Text.pad s) = Text.pad (p.replace hit s) :=
  h.render_pad s

theorem replace_indent {hit : β → Text} (h : p.Steady f) (s : Text) :
    p.replace hit (' ' :: s) = ' ' :: p.replace hit s :=
  h.render_indent s

theorem hits_squash (h : p.Steady f) (s : Text) : p.hits (Text.squash s) = (p.hits s).map f := by
  rw [hits_eq_render, hits_eq_render]
  refine h.renderFrom_squash (E := fun u v => u = v.map f) rfl ?_ (fun _ => rfl) ?_ (fun _ => rfl)
    rfl s
  · rintro u u' v v' rfl rfl
    simp
  · intro g _ _
    induction g <;> simp_all

theorem hits_pad (h : p.Steady f) (s : Text) : p.hits (Text.pad s) = p.hits s := by
  rw [hits_eq_render, h.render_pad, hits_eq_render, List.append_nil]

theorem hits_indent (h : p.Steady f) (s : Text) : p.hits (' ' :: s) = p.hits s := by
  rw [hits_eq_render, h.render_indent, hits_eq_render, List.nil_append]

end Steady

end Pattern

end WhereFilter
