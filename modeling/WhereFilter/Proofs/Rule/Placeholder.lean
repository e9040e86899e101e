import WhereFilter.Proofs.Text.Runs
import WhereFilter.Proofs.Text.Segments
import WhereFilter.Rule.Placeholder

namespace WhereFilter

namespace Placeholder

/-- A character that no placeholder has in it. -/
def isBarrier (c : Char) : Bool :=
  c != '@' && c != '#' && !isWordChar c

theorem text_ne_nil (p : Placeholder) : p.text ≠ [] := by
  simp [text]

theorem forward_pattern : pattern.Forward := fun _ _ => rfl

theorem advances_pattern : pattern.Advances :=
  covers_pattern.advances text_ne_nil

theorem not_isWordChar_of_barrier {s : Text} (h : s.head?.all isBarrier = true) :
    s.head?.any isWordChar = false := by
  cases s with
  | nil => rfl
  | cons c s =>
    simp only [isBarrier, List.head?_cons, Option.all_some, Bool.and_eq_true] at h
    simpa using h.2

theorem head?_ne_of_barrier {c : Char} {s : Text} (hc : isBarrier c = false)
    (h : s.head?.all isBarrier = true) : s.head? ≠ some c := by
  intro hs
  rw [hs] at h
  simp [hc] at h

/-- A barrier behind a text adds nothing to the placeholders in it. -/
theorem pattern_append (back : Option Char) (v : Text) {s : Text}
    (h : s.head?.all isBarrier = true) :
    pattern back (v ++ s) = (pattern back v).map fun hit => (hit.1, hit.2 ++ s) := by
  have hat : s.head? ≠ some '@' := head?_ne_of_barrier rfl h
  have hhash : s.head? ≠ some '#' := head?_ne_of_barrier rfl h
  have hword := not_isWordChar_of_barrier h
  simp only [pattern, Option.bind_eq_bind, Text.after?_append _ hat]
  cases Text.after? ['@'] v with
  | none => rfl
  | some t =>
    simp only [Option.map_some, Option.bind_some, Text.after?_append t hhash]
    cases Text.after? ['#'] t with
    | none =>
      simp only [Option.map_none, Text.word?_append t hword]
      cases Text.word? t with
      | none => rfl
      | some found =>
        simp only [Option.map_some, Option.bind_some, Text.after?_append _ hat]
        cases Text.after? ['@'] found.2 <;> rfl
    | some t =>
      simp only [Option.map_some, Text.word?_append t hword]
      cases Text.word? t with
      | none => rfl
      | some found =>
        simp only [Option.map_some, Option.bind_some, Text.after?_append _ hat]
        cases Text.after? ['@'] found.2 <;> rfl

theorem pattern_of_ne {back : Option Char} {c : Char} {s : Text} (h : c ≠ '@') :
    pattern back (c :: s) = none := by
  simp [pattern, Text.after?, h.symm]

theorem segments_cons {c : Char} {s : Text} (h : c ≠ '@') :
    pattern.segments (c :: s) = .item c :: pattern.segments s :=
  Pattern.segments_of_none forward_pattern (pattern_of_ne h)

/-- No placeholder reaches across a barrier. -/
theorem segments_barrier (u : Text) {c : Char} (s : Text) (hc : isBarrier c = true) :
    pattern.segments (u ++ c :: s) = pattern.segments u ++ .item c :: pattern.segments s := by
  have hne : c ≠ '@' := by
    rintro rfl
    cases hc
  have happ : pattern.Apart u (c :: s) := fun back v _ _ =>
    pattern_append back v (by simpa using hc)
  rw [Pattern.segments_append forward_pattern advances_pattern happ, segments_cons hne]

theorem text_of_pattern {back : Option Char} {s rest : Text} {p : Placeholder}
    (h : pattern back s = some (p, rest)) : s = p.text ++ rest :=
  covers_pattern back s p rest h

/-- The placeholders of a text in order, and the characters between them. -/
theorem segments_cases (s : Text) :
    s = [] ∨
    (∃ c r, s = c :: r ∧ pattern none s = none ∧
      pattern.segments s = .item c :: pattern.segments r) ∨
    ∃ p r, s = p.text ++ r ∧ pattern none s = some (p, r) ∧
      pattern.segments s = .hit p :: pattern.segments r := by
  rcases Pattern.segments_cases forward_pattern advances_pattern s with hs | hs | ⟨p, _, r, hs⟩
  · exact .inl hs
  · exact .inr (.inl hs)
  · obtain ⟨-, -, hp, hg⟩ := hs
    exact .inr (.inr ⟨p, r, text_of_pattern hp, hp, hg⟩)

/-- A name that a placeholder can have. -/
def IsName (n : Text) : Prop :=
  n ≠ [] ∧ ∀ c ∈ n, isWordChar c = true

theorem isName_of_pattern {back : Option Char} {s rest : Text} {p : Placeholder}
    (h : pattern back s = some (p, rest)) : IsName p.name := by
  simp only [pattern, Option.bind_eq_bind, Option.bind_eq_some_iff, Prod.exists,
    Option.some.injEq, Prod.mk.injEq] at h
  obtain ⟨_, _, name, _, hw, _, _, rfl, _⟩ := h
  have hword := Text.word?_eq_some.mp hw
  exact ⟨hword.2.1, hword.2.2.1⟩

theorem barrier_not_mem_text {c : Char} {p : Placeholder} (hc : isBarrier c = true)
    (hp : IsName p.name) : c ∉ p.text := by
  simp only [isBarrier, Bool.and_eq_true, bne_iff_ne, Bool.not_eq_true'] at hc
  obtain ⟨⟨hat, hhash⟩, hword⟩ := hc
  have hname : c ∉ p.name := by
    intro hm
    rw [hp.2 c hm] at hword
    cases hword
  cases hh : p.hashed <;> simp [text, hh, hat, hhash, hname]

theorem pattern_text (back : Option Char) {p : Placeholder} (hn : IsName p.name) (s : Text) :
    pattern back (p.text ++ s) = some (p, s) := by
  obtain ⟨hashed, name⟩ := p
  have hword : Text.word? (name ++ '@' :: s) = some (name, '@' :: s) :=
    Text.word?_eq_some.mpr ⟨rfl, hn.1, hn.2, rfl⟩
  have hat (r : Text) : Text.after? ['@'] ('@' :: r) = some r := Text.after?_eq_some.mpr rfl
  cases hashed with
  | true =>
    have hhash (r : Text) : Text.after? ['#'] ('#' :: r) = some r := Text.after?_eq_some.mpr rfl
    simp [pattern, text, hat, hhash, hword]
  | false =>
    have hhash : Text.after? ['#'] (name ++ '@' :: s) = none := by
      apply Text.after?_eq_none
      intro rest he
      obtain ⟨c, r, rfl⟩ := List.exists_cons_of_ne_nil hn.1
      have hw := hn.2 c (by simp)
      rw [(List.cons.inj he).1] at hw
      cases hw
    simp [pattern, text, hat, hhash, hword]

theorem segments_text {p : Placeholder} (hn : IsName p.name) (s : Text) :
    pattern.segments (p.text ++ s) = .hit p :: pattern.segments s :=
  Pattern.segments_of_hit forward_pattern (text_ne_nil p) (pattern_text none hn s)

end Placeholder

end WhereFilter
