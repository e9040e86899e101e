import Mathlib
import WhereFilter.Json.Records

namespace WhereFilter

namespace SlotTable

def names (t : SlotTable) : List Text :=
  t.entries.map Prod.fst

/-- The table with a slot given to each name in turn. -/
def setAll (t : SlotTable) (es : List (Text × Slot)) : SlotTable :=
  es.foldl (fun t e => t.set e.1 e.2) t

/-- The slot beside the last name of `es` that is `k` without its `#`. -/
def lastOf (k : Text) (es : List (Text × Slot)) : Option Slot :=
  (es.reverse.find? fun e => bareName e.1 = k).map Prod.snd

theorem lookup?_eq_none_iff {t : SlotTable} {n : Text} :
    t.lookup? n = none ↔ bareName n ∉ t.names :=
  find?_eq_none

theorem names_set (t : SlotTable) (n : Text) (s : Slot) :
    (t.set n s).names = if bareName n ∈ t.names then t.names else t.names ++ [bareName n] := by
  have hkeys := keys_put (bareName n) s t.entries
  by_cases h : bareName n ∈ t.names
  · rw [if_pos h]
    exact hkeys.trans (if_pos h)
  · rw [if_neg h]
    exact hkeys.trans (if_neg h)

theorem lastOf_cons (k : Text) (e : Text × Slot) (es : List (Text × Slot)) :
    lastOf k (e :: es) = (lastOf k es).or (if bareName e.1 = k then some e.2 else none) := by
  rw [lastOf, List.reverse_cons, List.find?_append, lastOf]
  by_cases h : bareName e.1 = k
  · cases List.find? (fun e => bareName e.1 = k) es.reverse <;> simp [h]
  · cases List.find? (fun e => bareName e.1 = k) es.reverse <;> simp [h]

/-- The last one that names a slot wins, and every other name keeps the slot it had. -/
theorem lookup?_setAll (t : SlotTable) (es : List (Text × Slot)) (n : Text) :
    (t.setAll es).lookup? n = (lastOf (bareName n) es).or (t.lookup? n) := by
  induction es generalizing t with
  | nil => rfl
  | cons e es ih =>
    have hstep : (t.setAll (e :: es)).lookup? n = ((t.set e.1 e.2).setAll es).lookup? n := rfl
    rw [hstep, ih, lastOf_cons, lookup?_set]
    by_cases h : bareName e.1 = bareName n
    · cases lastOf (bareName n) es <;> simp [h]
    · cases lastOf (bareName n) es <;> simp [h]

/-- Names stay in the order in which they came first. -/
theorem names_setAll (t : SlotTable) (es : List (Text × Slot)) :
    (t.setAll es).names =
      t.names ++ ((es.map fun e => bareName e.1).filter (· ∉ t.names)).eraseDups := by
  induction es generalizing t with
  | nil => simp [setAll]
  | cons e es ih =>
    have hstep : (t.setAll (e :: es)).names = ((t.set e.1 e.2).setAll es).names := rfl
    rw [hstep, ih, names_set]
    by_cases h : bareName e.1 ∈ t.names
    · simp [h]
    · simp only [h, ↓reduceIte, List.map_cons, not_false_eq_true, decide_true,
        List.filter_cons_of_pos, List.eraseDups_cons, List.append_assoc, List.singleton_append]
      congr 2
      rw [List.filter_filter]
      congr 1
      apply List.filter_congr
      intro n _
      simp only [List.mem_append, List.mem_singleton, not_or, Bool.decide_and, decide_not]
      rw [Bool.and_comm, beq_eq_decide]

theorem nodup_setAll {t : SlotTable} (h : t.names.Nodup) (es : List (Text × Slot)) :
    (t.setAll es).names.Nodup := by
  induction es generalizing t with
  | nil => exact h
  | cons e es ih => exact ih (nodup_put h (bareName e.1) e.2)

theorem lookup?_empty (n : Text) : empty.lookup? n = none := rfl

/-- Where no name has a `#`, the last pair of a name is the first from behind. -/
theorem lastOf_of_bare {es : List (Text × Slot)} (h : ∀ e ∈ es, e.1.head? ≠ some '#') (k : Text) :
    lastOf k es = find? k es.reverse := by
  rw [lastOf, find?_eq_map]
  congr 1
  apply List.find?_congr
  intro e he
  rw [bareName_of_ne (h e (List.mem_reverse.mp he))]

theorem exists_of_lastOf {k : Text} {es : List (Text × Slot)} {s : Slot}
    (h : lastOf k es = some s) : ∃ e ∈ es, bareName e.1 = k := by
  obtain ⟨e, he, -⟩ := Option.map_eq_some_iff.mp h
  have hname := List.find?_some he
  exact ⟨e, List.mem_reverse.mp (List.mem_of_find?_eq_some he), by simpa using hname⟩

theorem bareName_eq_hash {n k : Text} (h : bareName n = '#' :: k) : n = '#' :: '#' :: k := by
  by_cases hn : n.head? = some '#'
  · obtain ⟨c, r, rfl⟩ := List.exists_cons_of_ne_nil (List.ne_nil_of_mem (List.mem_of_mem_head? hn))
    obtain rfl : c = '#' := by simpa using hn
    rw [bareName_hash] at h
    rw [h]
  · rw [bareName_of_ne hn] at h
    rw [h] at hn
    exact absurd rfl hn

/-- A name with a `#` is found as it is only by one with a `#` more, which in turn must be in
the list; so lists whose names are found by either spelling have no such name. -/
theorem bare_of_agree {es : List (Text × Slot)} (h : ∀ k, find? k es = lastOf k es) :
    ∀ e ∈ es, e.1.head? ≠ some '#' := by
  have hlonger (k : Text) (hk : '#' :: k ∈ es.map Prod.fst) :
      '#' :: '#' :: k ∈ es.map Prod.fst := by
    have hsome : find? ('#' :: k) es ≠ none := fun hn => find?_eq_none.mp hn hk
    obtain ⟨s, hs⟩ := Option.ne_none_iff_exists'.mp hsome
    rw [h] at hs
    obtain ⟨e, he, hname⟩ := exists_of_lastOf hs
    exact List.mem_map.mpr ⟨e, he, bareName_eq_hash hname⟩
  have hunbounded (m : Nat) {k : Text} (hk : '#' :: k ∈ es.map Prod.fst) :
      ∃ k', '#' :: k' ∈ es.map Prod.fst ∧ m ≤ k'.length := by
    induction m with
    | zero => exact ⟨k, hk, Nat.zero_le _⟩
    | succ m ih =>
      obtain ⟨k', hk', hm⟩ := ih
      exact ⟨'#' :: k', hlonger k' hk', Nat.succ_le_succ hm⟩
  intro e he hhash
  obtain ⟨k, hk⟩ : ∃ k, e.1 = '#' :: k := by
    cases hname : e.1 with
    | nil => simp [hname] at hhash
    | cons c k =>
      obtain rfl : c = '#' := by simpa [hname] using hhash
      exact ⟨k, rfl⟩
  have hmem : '#' :: k ∈ es.map Prod.fst := hk ▸ List.mem_map_of_mem he
  obtain ⟨k', hk', hlong⟩ := hunbounded ((es.map Prod.fst).map List.length).sum hmem
  have hle := List.le_sum_of_mem (List.mem_map_of_mem hk' : ('#' :: k').length ∈ _)
  rw [List.length_cons] at hle
  omega

/-- The table read from a list of pairs and the one that is given them in turn agree just where
no name is written with a `#` and a repeated name has the same slot in the end as at first. -/
theorem ofJson_agrees_iff (es : List (Text × Slot)) :
    ∃ t, ofJson? (toJson ⟨es⟩) = some t ∧
      ((∀ n, t.lookup? n = (empty.setAll es).lookup? n) ↔
        (∀ e ∈ es, e.1.head? ≠ some '#') ∧ ∀ k, find? k es = find? k es.reverse) := by
  refine ⟨⟨es⟩, ofJson?_toJson ⟨es⟩, ?_⟩
  constructor
  · intro h
    have hagree (k : Text) : find? k es = lastOf k es := by
      have hk := h ('#' :: k)
      rw [lookup?_setAll, lookup?_empty, Option.or_none, lookup?, bareName_hash] at hk
      exact hk
    have hbare := bare_of_agree hagree
    exact ⟨hbare, fun k => (hagree k).trans (lastOf_of_bare hbare k)⟩
  · rintro ⟨hbare, hends⟩ n
    rw [lookup?_setAll, lookup?_empty, Option.or_none, lookup?, hends, lastOf_of_bare hbare]

/-- A name with a `#` is lost in the table that was read. -/
theorem ofJson_agrees_iff_hashed : ∃ t, ofJson? (toJson ⟨[("#Date".toList, .today)]⟩) = some t ∧
    ¬ ∀ n, t.lookup? n = (empty.setAll [("#Date".toList, .today)]).lookup? n := by
  obtain ⟨t, ht, hiff⟩ := ofJson_agrees_iff [("#Date".toList, .today)]
  refine ⟨t, ht, fun hagree => ?_⟩
  exact (hiff.mp hagree).1 ("#Date".toList, .today) (by simp) (by decide)

end SlotTable

end WhereFilter
