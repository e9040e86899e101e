import WhereFilter.Bytewise.Slice
import WhereFilter.Proofs.Token.Munch

namespace WhereFilter

theorem part?_eq {l u v w : List α} {i j : Nat} (h : l = u ++ (v ++ w)) (hi : i = u.length)
    (hj : j = u.length + v.length) : part? l i j = some v := by
  subst h hi hj
  have hle : u.length ≤ u.length + v.length ∧
      u.length + v.length ≤ (u ++ (v ++ w)).length := by simp
  rw [part?, if_pos hle]
  simp

namespace Text

theorem dropBytes?_size (u t : Text) : dropBytes? (size u) (u ++ t) = some t := by
  induction u with
  | nil => cases t <;> rfl
  | cons c u ih =>
    have hc := c.utf8Size_pos
    obtain ⟨n, hn⟩ : ∃ n, size (c :: u) = n + 1 := ⟨size (c :: u) - 1, by simp; omega⟩
    have hrest : n + 1 - c.utf8Size = size u := by simp at hn; omega
    rw [hn, List.cons_append, dropBytes?, if_pos (by simp at hn; omega), hrest, ih]

theorem takeBytes?_size (u t : Text) : takeBytes? (size u) (u ++ t) = some u := by
  induction u with
  | nil => cases t <;> rfl
  | cons c u ih =>
    have hc := c.utf8Size_pos
    obtain ⟨n, hn⟩ : ∃ n, size (c :: u) = n + 1 := ⟨size (c :: u) - 1, by simp; omega⟩
    have hrest : n + 1 - c.utf8Size = size u := by simp at hn; omega
    rw [hn, List.cons_append, takeBytes?, if_pos (by simp at hn; omega), hrest, ih]
    rfl

theorem slice?_eq {t u v w : Text} {i j : Nat} (h : t = u ++ (v ++ w)) (hi : i = size u)
    (hj : j = size u + size v) : t.slice? i j = some v := by
  subst h hi hj
  have hlen : size u + size v - size u = size v := by omega
  rw [slice?, if_pos (by omega), dropBytes?_size, Option.bind_some, hlen, takeBytes?_size]

end Text

end WhereFilter
