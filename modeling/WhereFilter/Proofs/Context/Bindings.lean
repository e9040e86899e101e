import WhereFilter.Context.Bindings
import WhereFilter.Proofs.Token.Munch

namespace WhereFilter

open Token

namespace Bindings

def AllText (b : Bindings) : Prop :=
  ∀ n v, b.get? n = some v → ∃ t, v = .text t

def SameNames (b c : Bindings) : Prop :=
  ∀ n, (b.get? n).isSome = (c.get? n).isSome

/-- Every name of `b` with the value `v`. -/
def withValue (b : Bindings) (v : Value) : Bindings :=
  ⟨b.entries.map fun e => (e.1, v), by simpa [Function.comp_def] using b.distinct⟩

theorem AllText.lookup {b : Bindings} (h : b.AllText) {n : Text} {v : Value}
    (hv : b.lookup? n = some v) : ∃ t, v = .text t := by
  unfold lookup? at hv
  rcases Option.or_eq_some_iff.mp hv with hv | ⟨_, hv⟩
  · exact h _ _ hv
  · exact h _ _ hv

theorem SameNames.binds {b c : Bindings} (h : b.SameNames c) (n : Text) : b.binds n = c.binds n := by
  simp only [Bindings.binds, lookup?, Option.isSome_or]
  rw [h (bareName n), h ('#' :: bareName n)]

theorem get?_withValue (b : Bindings) (v : Value) (n : Text) :
    (b.withValue v).get? n = (b.get? n).map fun _ => v := by
  suffices h : ∀ es : List (Text × Value),
      find? n (es.map fun e => (e.1, v)) = (find? n es).map fun _ => v by exact h b.entries
  intro es
  induction es with
  | nil => rfl
  | cons e es ih => by_cases hk : e.1 = n <;> simp [find?, hk, ih]

theorem sameNames_withValue (b : Bindings) (v : Value) : (b.withValue v).SameNames b := by
  intro n
  simp [get?_withValue]

theorem lookup?_withValue (b : Bindings) (v : Value) (n : Text) :
    (b.withValue v).lookup? n = (b.lookup? n).map fun _ => v := by
  simp only [lookup?, get?_withValue]
  cases b.get? (bareName n) <;> rfl

theorem allText_withValue (b : Bindings) (t : Text) : (b.withValue (.text t)).AllText := by
  intro n v h
  rw [get?_withValue, Option.map_eq_some_iff] at h
  obtain ⟨_, _, rfl⟩ := h
  exact ⟨t, rfl⟩

/-- The value beside the last `k`. -/
def latest (k : Text) (es : List (Text × Value)) : Option Value :=
  find? k es.reverse

theorem latest_concat (k : Text) (es : List (Text × Value)) (n : Text) (v : Value) :
    latest k (es ++ [(n, v)]) = if n = k then some v else latest k es := by
  rw [latest, List.reverse_append]
  rfl

theorem latest_eq_none {k : Text} {es : List (Text × Value)} :
    latest k es = none ↔ k ∉ es.map Prod.fst := by
  rw [latest, find?_eq_none, List.map_reverse, List.mem_reverse]

theorem get?_ofList (es : List (Text × Value)) (k : Text) :
    (Keyed.ofList es).get? k = latest k es := by
  induction es using List.reverseRecOn with
  | nil => rfl
  | append_singleton es e ih =>
    rw [Keyed.ofList, List.foldl_append, latest_concat, ← ih]
    exact Keyed.get?_insert _ k e.1 e.2

theorem isSome_get?_ofList (es : List (Text × Value)) (n : Text) :
    ((Keyed.ofList es).get? n).isSome = true ↔ n ∈ es.map Prod.fst := by
  rw [get?_ofList, Option.isSome_iff_ne_none, Ne, latest_eq_none, not_not]

end Bindings

namespace Value

theorem paired_doubleQuotes (t : Text) : Paired '\'' (doubleQuotes t) := by
  induction t with
  | nil => exact .nil
  | cons c t ih =>
    simp only [doubleQuotes, List.flatMap_cons] at ih ⊢
    split
    · exact .pair ih
    · next hc => exact .plain hc ih

/-- Only single quotes are doubled. -/
theorem paired_doubleQuotes_of_paired {t : Text} (h : Paired '"' t) :
    Paired '"' (doubleQuotes t) := by
  induction h with
  | nil => exact .nil
  | pair _ ih => exact .pair ih
  | @plain c t hc _ ih =>
    simp only [doubleQuotes, List.flatMap_cons] at ih ⊢
    refine Paired.append ?_ ih
    split
    · exact .of_not_mem (by decide)
    · exact .of_not_mem (by simpa using Ne.symm hc)

end Value

end WhereFilter
