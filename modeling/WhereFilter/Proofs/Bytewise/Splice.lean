import WhereFilter.Bytewise.Rewrite
import WhereFilter.Proofs.Bytewise.Slice
import WhereFilter.Proofs.Text.Turns

namespace WhereFilter

namespace Bytewise

open Text (size)

variable {β : Type} {p : Pattern Char β}

theorem placesFrom_covered (back : Option Char) (offset : Nat) (front rest : Text) :
    placesFrom p back offset front.length (front ++ rest) =
      placesFrom p (front.getLast?.or back) (offset + size front) 0 rest := by
  induction front generalizing back offset with
  | nil => simp
  | cons c front ih =>
    rw [List.length_cons, List.cons_append, placesFrom, ih, List.getLast?_cons, Text.size_cons,
      Nat.add_assoc]
    cases front.getLast? <;> rfl

theorem placesFrom_of_hit {back : Option Char} {offset : Nat} {front rest : Text} {b : β}
    (hn : front ≠ []) (h : p back (front ++ rest) = some (b, rest)) :
    placesFrom p back offset 0 (front ++ rest) = (b, offset, offset + size front) ::
      placesFrom p front.getLast? (offset + size front) 0 rest := by
  obtain ⟨c, front, rfl⟩ := List.exists_cons_of_ne_nil hn
  rw [List.cons_append] at h ⊢
  have hlen : (front ++ rest).length - rest.length = front.length := by simp
  have hsize : size (c :: (front ++ rest)) - size rest = size (c :: front) := by
    simp
    omega
  rw [placesFrom]
  simp only [h, hlen, hsize, placesFrom_covered, List.getLast?_cons]
  rw [Text.size_cons, Nat.add_assoc]
  cases front.getLast? <;> rfl

/-- Copying from the end of each hit to the start of the next puts all together again. -/
theorem spliceFrom_places (ha : p.Advances) (hit : β → Text) {s t : Text} (u pending : Text)
    (hs : s = u ++ (pending ++ t)) (back : Option Char) (out : Text) :
    spliceFrom hit s (placesFrom p back (size u + size pending) 0 t) (size u) out =
      some (out ++ (pending ++ p.renderFrom (fun c => [c]) hit back t)) := by
  induction hn : t.length using Nat.strongRecOn generalizing u pending t back out with
  | ind n ih =>
  subst hn
  cases t with
  | nil =>
    have hslice : s.slice? (size u) (size s) = some pending :=
      Text.slice?_eq (w := []) hs rfl (by simp [hs])
    rw [placesFrom, spliceFrom, hslice]
    simp [Pattern.renderFrom, Pattern.segmentsFrom]
  | cons c t =>
    cases hp : p back (c :: t) with
    | none =>
      have hrest := ih t.length (by simp) u (pending ++ [c]) (t := t) (by simp [hs]) (some c) out rfl
      rw [placesFrom]
      simp only [hp]
      rw [Pattern.renderFrom_of_none hp]
      simpa [Nat.add_assoc] using hrest
    | some found =>
      obtain ⟨b, rest⟩ := found
      obtain ⟨front, hfront, he⟩ := ha back (c :: t) b rest hp
      rw [he] at hp hs ⊢
      have hslice : s.slice? (size u) (size u + size pending) = some pending :=
        Text.slice?_eq hs rfl rfl
      have hlen : rest.length < (c :: t).length := by
        have := List.length_pos_iff.mpr hfront
        simp [he]
        omega
      have hrest := ih rest.length hlen (u ++ (pending ++ front)) [] (t := rest)
        (by simp [hs]) front.getLast? (out ++ pending ++ hit b) rfl
      rw [placesFrom_of_hit hfront hp, spliceFrom, hslice, Pattern.renderFrom,
        Pattern.segmentsFrom_of_hit hfront hp]
      simpa [Nat.add_assoc, Pattern.renderFrom] using hrest

/-- What is spliced by offsets is what is replaced. -/
theorem splice_eq (ha : p.Advances) (hit : β → Text) (s : Text) :
    splice p hit s = some (p.replace hit s) :=
  spliceFrom_places ha hit [] [] rfl none []

end Bytewise

end WhereFilter
