namespace WhereFilter

/-- The value beside the first `k`. -/
def find? [DecidableEq κ] (k : κ) : List (κ × ν) → Option ν
  | [] => none
  | (j, v) :: es => if j = k then some v else find? k es

/-- Writes `v` beside the first `k`, or at the end if there is no `k`. -/
def put [DecidableEq κ] (k : κ) (v : ν) : List (κ × ν) → List (κ × ν)
  | [] => [(k, v)]
  | (j, w) :: es => if j = k then (j, v) :: es else (j, w) :: put k v es

theorem find?_put [DecidableEq κ] (j k : κ) (v : ν) (es : List (κ × ν)) :
    find? j (put k v es) = if k = j then some v else find? j es := by
  induction es with
  | nil => simp [put, find?]
  | cons e es ih =>
    obtain ⟨i, w⟩ := e
    by_cases hk : i = k
    · subst hk
      by_cases hj : i = j <;> simp [put, find?, hj]
    · by_cases hj : i = j
      · subst hj
        simp [put, find?, hk, Ne.symm hk]
      · simp [put, find?, hk, hj, ih]

theorem find?_eq_none [DecidableEq κ] {k : κ} {es : List (κ × ν)} :
    find? k es = none ↔ k ∉ es.map Prod.fst := by
  induction es with
  | nil => simp [find?]
  | cons e es ih =>
    obtain ⟨j, v⟩ := e
    by_cases h : j = k
    · simp [find?, h]
    · simp [find?, h, Ne.symm h, ih]

theorem find?_eq_map [DecidableEq κ] (k : κ) (es : List (κ × ν)) :
    find? k es = (es.find? fun e => e.1 = k).map Prod.snd := by
  induction es with
  | nil => rfl
  | cons e es ih => by_cases h : e.1 = k <;> simp [find?, h, ih]

theorem mem_iff_find? [DecidableEq κ] {es : List (κ × ν)} (h : (es.map Prod.fst).Nodup) {k : κ}
    {v : ν} : (k, v) ∈ es ↔ find? k es = some v := by
  induction es with
  | nil => simp [find?]
  | cons e es ih =>
    obtain ⟨j, w⟩ := e
    simp only [List.map_cons, List.nodup_cons] at h
    rw [List.mem_cons, ih h.2, find?]
    by_cases hj : j = k
    · subst hj
      have hnone : find? j es = none := find?_eq_none.mpr h.1
      simp [hnone, eq_comm]
    · simp [hj, Ne.symm hj]

/-- A new name goes to the end and a known one stays where it is. -/
theorem keys_put [DecidableEq κ] (k : κ) (v : ν) (es : List (κ × ν)) :
    (put k v es).map Prod.fst =
      if k ∈ es.map Prod.fst then es.map Prod.fst else es.map Prod.fst ++ [k] := by
  induction es with
  | nil => simp [put]
  | cons e es ih =>
    obtain ⟨j, w⟩ := e
    by_cases h : j = k
    · simp [put, h]
    · simp only [put, h, ↓reduceIte, List.map_cons, ih, List.mem_cons, Ne.symm h, false_or]
      split <;> simp

theorem nodup_put [DecidableEq κ] {es : List (κ × ν)} (h : (es.map Prod.fst).Nodup) (k : κ)
    (v : ν) : ((put k v es).map Prod.fst).Nodup := by
  rw [keys_put]
  split
  · exact h
  · next hk =>
    refine List.nodup_append.mpr ⟨h, by simp, ?_⟩
    intro a ha b hb he
    rw [List.mem_singleton.mp hb] at he
    exact hk (he ▸ ha)

/-- Values by key, one for each, in order of first entry. -/
structure Keyed (κ ν : Type) where
  entries : List (κ × ν) := []
  distinct : (entries.map Prod.fst).Nodup := by simp

namespace Keyed

variable [DecidableEq κ]

def empty : Keyed κ ν := {}

def get? (m : Keyed κ ν) (k : κ) : Option ν :=
  find? k m.entries

def size (m : Keyed κ ν) : Nat :=
  m.entries.length

def insert (m : Keyed κ ν) (k : κ) (v : ν) : Keyed κ ν :=
  ⟨put k v m.entries, nodup_put m.distinct k v⟩

def erase (m : Keyed κ ν) (k : κ) : Keyed κ ν :=
  ⟨m.entries.filter (·.1 ≠ k), m.distinct.sublist (List.filter_sublist.map _)⟩

/-- Later pairs win. -/
def ofList (es : List (κ × ν)) : Keyed κ ν :=
  es.foldl (fun m e => m.insert e.1 e.2) empty

/-- Whether both have the same keys, with values that `same` holds equal. -/
def equals (same : ν → ν → Bool) (m n : Keyed κ ν) : Bool :=
  m.size == n.size && m.entries.all fun (k, v) =>
    match n.get? k with
    | some w => same v w
    | none => false

@[simp] theorem get?_empty (k : κ) : (empty : Keyed κ ν).get? k = none := rfl

theorem get?_insert (m : Keyed κ ν) (j k : κ) (v : ν) :
    (m.insert k v).get? j = if k = j then some v else m.get? j :=
  find?_put j k v m.entries

theorem get?_erase (m : Keyed κ ν) (j k : κ) :
    (m.erase k).get? j = if k = j then none else m.get? j := by
  suffices h : ∀ es : List (κ × ν),
      find? j (es.filter (·.1 ≠ k)) = if k = j then none else find? j es from h m.entries
  intro es
  induction es with
  | nil => simp [find?]
  | cons e es ih =>
    obtain ⟨i, w⟩ := e
    by_cases hk : i = k
    · subst hk
      by_cases hj : i = j
      · subst hj
        simpa [find?] using ih
      · simpa [find?, hj] using ih
    · by_cases hj : i = j
      · subst hj
        simp [find?, hk, Ne.symm hk]
      · simpa [find?, hk, hj] using ih

end Keyed

end WhereFilter
