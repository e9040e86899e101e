import WhereFilter.Proofs.Rule.Placeholder

namespace WhereFilter

open Placeholder

/-- The placeholders of a text by name, where no at sign stands outside of them. -/
inductive Tidy : List Text → Text → Prop
  | nil : Tidy [] []
  | plain {ns : List Text} {c : Char} {s : Text} (hc : c ≠ '@') (h : Tidy ns s) : Tidy ns (c :: s)
  | placeholder {ns : List Text} {p : Placeholder} {s : Text} (hp : IsName p.name)
      (h : Tidy ns s) : Tidy (p.name :: ns) (p.text ++ s)

namespace Tidy

variable {ms ns : List Text} {s t u v w : Text}

theorem names_eq (h : Tidy ns s) : names s = ns := by
  induction h with
  | nil => rfl
  | plain hc _ ih => simpa [names, Pattern.hits, segments_cons hc] using ih
  | placeholder hp _ ih => simpa [names, Pattern.hits, segments_text hp] using ih

theorem of_segments (h : .item '@' ∉ pattern.segments s) : Tidy (names s) s := by
  induction hl : s.length using Nat.strongRecOn generalizing s with
  | _ n ih =>
    subst hl
    rcases segments_cases s with rfl | ⟨c, r, rfl, -, hg⟩ | ⟨p, r, rfl, hp, hg⟩
    · exact .nil
    · rw [hg, List.mem_cons, not_or] at h
      have hc : c ≠ '@' := by
        rintro rfl
        exact h.1 rfl
      have hrest := Tidy.plain hc (ih _ (by simp) h.2 rfl)
      rwa [names, Pattern.hits, hg]
    · rw [hg, List.mem_cons, not_or] at h
      have hlen := List.length_pos_iff.mpr (text_ne_nil p)
      have hrest := Tidy.placeholder (isName_of_pattern hp) (ih _ (by simp; omega) h.2 rfl)
      rwa [names, Pattern.hits, hg]

theorem append (hs : Tidy ms s) (ht : Tidy ns t) : Tidy (ms ++ ns) (s ++ t) := by
  induction hs with
  | nil => exact ht
  | plain hc _ ih => exact .plain hc ih
  | placeholder hp _ ih =>
    have h := Tidy.placeholder hp ih
    rwa [← List.append_assoc] at h

theorem drop_front (hv : '@' ∉ v) (h : Tidy ns (v ++ w)) : Tidy ns w := by
  induction v with
  | nil => exact h
  | cons c v ih =>
    simp only [List.mem_cons, not_or] at hv
    generalize he : c :: v ++ w = s at h
    cases h with
    | nil => cases he
    | plain _ h =>
      cases he
      exact ih hv.2 h
    | placeholder _ _ =>
      have hc := (List.cons.inj he).1
      exact absurd hc.symm hv.1

theorem drop_back (hv : '@' ∉ v) (h : Tidy ns (u ++ v)) : Tidy ns u := by
  generalize he : u ++ v = s at h
  induction h generalizing u with
  | nil =>
    rw [(List.append_eq_nil_iff.mp he).1]
    exact .nil
  | @plain ns a s ha h ih =>
    cases u with
    | nil =>
      rw [List.nil_append] at he
      subst he
      have hs := Tidy.plain ha h
      rw [← List.append_nil (a :: s)] at hs
      exact drop_front hv hs
    | cons b u =>
      cases he
      exact .plain ha (ih rfl)
  | @placeholder ns p s hp h ih =>
    rcases List.append_eq_append_iff.mp he with ⟨a, ht, rfl⟩ | ⟨a, rfl, hs⟩
    · -- the last character of a placeholder is an at sign, and `v` has none
      have ha : a = [] := by
        rcases List.eq_nil_or_concat a with ha | ⟨b, c, rfl⟩
        · exact ha
        · have hat : p.text.getLast? = some '@' := List.getLast?_concat
          have hlast : '@' = c := by simpa [ht] using hat.symm
          subst hlast
          exact absurd (by simp) hv
      subst ha
      have htext := Tidy.placeholder hp (ih (u := []) rfl)
      rwa [List.append_nil, ht, List.append_nil] at htext
    · exact .placeholder hp (ih hs.symm)

/-- No placeholder reaches across a barrier. -/
theorem cut {c : Char} (hc : isBarrier c = true) (h : Tidy ns (u ++ c :: w)) :
    ∃ ms ks, ns = ms ++ ks ∧ Tidy ms u ∧ Tidy ks w := by
  generalize he : u ++ c :: w = s at h
  induction h generalizing u with
  | nil => simp at he
  | @plain ns a s ha h ih =>
    cases u with
    | nil =>
      cases he
      exact ⟨[], ns, rfl, .nil, h⟩
    | cons b u =>
      cases he
      obtain ⟨ms, ks, rfl, hms, hks⟩ := ih rfl
      exact ⟨ms, ks, rfl, .plain ha hms, hks⟩
  | @placeholder ns p s hp h ih =>
    have hnot := barrier_not_mem_text hc hp
    rcases List.append_eq_append_iff.mp he with ⟨a, ht, hs⟩ | ⟨a, rfl, hs⟩
    · cases a with
      | nil =>
        rw [List.append_nil] at ht
        cases hs
        have hne : '@' ∉ [c] := by
          intro hm
          rw [← List.mem_singleton.mp hm] at hc
          cases hc
        refine ⟨[p.name], ns, rfl, ?_, drop_front hne h⟩
        have htext := Tidy.placeholder hp .nil
        rwa [List.append_nil, ht] at htext
      | cons b a =>
        cases hs
        exact absurd (by simp [ht]) hnot
    · obtain ⟨ms, ks, rfl, hms, hks⟩ := ih hs.symm
      exact ⟨p.name :: ms, ks, rfl, .placeholder hp hms, hks⟩

/-- A piece between barriers can go: the placeholders on both sides of it stay as they are. -/
theorem remove {x m : Text} {c d : Char} (hv : '@' ∉ v) (hc : isBarrier c = true)
    (hd : isBarrier d = true) (hx : '@' ∉ x)
    (h : Tidy ns (u ++ (v ++ c :: (m ++ d :: (x ++ w))))) : ∃ ms, ms ⊆ ns ∧ Tidy ms (u ++ w) := by
  rw [← List.append_assoc] at h
  obtain ⟨fs, rs, rfl, hfs, hrs⟩ := cut hc h
  obtain ⟨_, ks, rfl, _, hks⟩ := cut hd hrs
  refine ⟨fs ++ ks, ?_, (drop_back hv hfs).append (drop_front hx hks)⟩
  intro n hn
  rcases List.mem_append.mp hn with hn | hn
  · exact List.mem_append_left _ hn
  · exact List.mem_append_right _ (List.mem_append_right _ hn)

/-- A piece with one barrier and no at sign can go. -/
theorem remove_plain {x : Text} {c : Char} (hv : '@' ∉ v) (hc : isBarrier c = true)
    (hx : '@' ∉ x) (h : Tidy ns (u ++ (v ++ c :: (x ++ w)))) : Tidy ns (u ++ w) := by
  rw [← List.append_assoc] at h
  obtain ⟨fs, rs, rfl, hfs, hrs⟩ := cut hc h
  exact (drop_back hv hfs).append (drop_front hx hrs)

end Tidy

end WhereFilter
