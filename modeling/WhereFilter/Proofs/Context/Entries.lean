import WhereFilter.Proofs.Context.SlotTable

namespace WhereFilter

namespace SlotTable

/-- The names of `t` are those of `given`, once each, in the order in which they come first. -/
structure InOrder (given : List Text) (t : SlotTable) : Prop where
  distinct : t.names.Nodup
  mem_iff : ∀ n, n ∈ t.names ↔ n ∈ given
  ordered : t.names.Pairwise fun m n => given.idxOf m < given.idxOf n

/-- The slot of `k` is replaced where it stands, or `k` comes to the end. -/
inductive Updates (k : Text) (s : Slot) : List (Text × Slot) → List (Text × Slot) → Prop
  | replaced {a b : List (Text × Slot)} {old : Slot} (ha : k ∉ a.map Prod.fst)
      (hb : k ∉ b.map Prod.fst) : Updates k s (a ++ (k, old) :: b) (a ++ (k, s) :: b)
  | added {es : List (Text × Slot)} (h : k ∉ es.map Prod.fst) : Updates k s es (es ++ [(k, s)])

variable {given : List Text} {t : SlotTable}

/-- A list in which no name comes twice is in the order of its own names. -/
theorem inOrder_names (h : t.names.Nodup) : InOrder t.names t := by
  refine ⟨h, fun n => Iff.rfl, List.pairwise_iff_getElem.mpr fun i j hi hj hij => ?_⟩
  rw [h.idxOf_getElem i hi, h.idxOf_getElem j hj]
  exact hij

/-- A name that was given before keeps its place, and a new one is behind all others. -/
theorem InOrder.set (h : InOrder given t) (n : Text) (s : Slot) :
    InOrder (given ++ [bareName n]) (t.set n s) := by
  have hbefore {m : Text} (hm : m ∈ t.names) :
      (given ++ [bareName n]).idxOf m = given.idxOf m :=
    List.idxOf_append_of_mem ((h.mem_iff m).mp hm)
  have hordered : t.names.Pairwise fun a b =>
      (given ++ [bareName n]).idxOf a < (given ++ [bareName n]).idxOf b := by
    refine h.ordered.imp_of_mem fun ha hb hab => ?_
    rw [hbefore ha, hbefore hb]
    exact hab
  refine ⟨nodup_put h.distinct (bareName n) s, fun m => ?_, ?_⟩
  · rw [names_set, List.mem_append, List.mem_singleton, ← h.mem_iff]
    split
    · next hn =>
      constructor
      · exact .inl
      · rintro (hm | rfl)
        · exact hm
        · exact hn
    · rw [List.mem_append, List.mem_singleton]
  · rw [names_set]
    split
    · exact hordered
    · next hn =>
      refine List.pairwise_append.mpr ⟨hordered, List.pairwise_singleton _ _, ?_⟩
      intro a ha b hb
      obtain rfl := List.mem_singleton.mp hb
      have hnew : bareName n ∉ given := fun hg => hn ((h.mem_iff _).mpr hg)
      rw [hbefore ha, List.idxOf_append_of_notMem hnew]
      have hlt := List.idxOf_lt_length_of_mem ((h.mem_iff a).mp ha)
      omega

theorem InOrder.setAll (h : InOrder given t) (es : List (Text × Slot)) :
    InOrder (given ++ es.map fun e => bareName e.1) (t.setAll es) := by
  induction es generalizing given t with
  | nil =>
    rw [List.map_nil, List.append_nil]
    exact h
  | cons e es ih =>
    have hrest := ih (h.set e.1 e.2)
    rw [List.append_assoc, List.singleton_append] at hrest
    exact hrest

/-- What is written behind another name leaves that name alone. -/
theorem Updates.cons {j k : Text} {s w : Slot} {es es' : List (Text × Slot)}
    (h : Updates k s es es') (hj : k ≠ j) : Updates k s ((j, w) :: es) ((j, w) :: es') := by
  have hmem {l : List (Text × Slot)} (hl : k ∉ l.map Prod.fst) :
      k ∉ ((j, w) :: l).map Prod.fst := by
    simp [hj, hl]
  cases h with
  | replaced ha hb => exact .replaced (a := _ :: _) (hmem ha) hb
  | added hes => exact .added (hmem hes)

theorem updates_put {es : List (Text × Slot)} (h : (es.map Prod.fst).Nodup) (k : Text) (s : Slot) :
    Updates k s es (put k s es) := by
  induction es with
  | nil => exact .added List.not_mem_nil
  | cons e es ih =>
    obtain ⟨j, old⟩ := e
    rw [List.map_cons, List.nodup_cons] at h
    by_cases hj : j = k
    · subst hj
      rw [put, if_pos rfl]
      exact .replaced (a := []) List.not_mem_nil h.1
    · rw [put, if_neg hj]
      exact (ih h.2).cons (Ne.symm hj)

/-- Whatever is set in the empty or the built-in table, in whatever order: each name stands once,
where it came first; it has the slot it was given last; and one more name that is set changes
that name only. -/
theorem setAll_lastWriteWins {start : SlotTable} (h : start = empty ∨ start = builtIn)
    (es : List (Text × Slot)) :
    InOrder (start.names ++ es.map fun e => bareName e.1) (start.setAll es) ∧
    (∀ m, (start.setAll es).lookup? m = (lastOf (bareName m) es).or (start.lookup? m)) ∧
    ∀ n s, Updates (bareName n) s (start.setAll es).entries ((start.setAll es).set n s).entries ∧
      ∀ m, ((start.setAll es).set n s).lookup? m =
        if bareName n = bareName m then some s else (start.setAll es).lookup? m := by
  have hstart : start.names.Nodup := by
    rcases h with rfl | rfl <;> decide
  have horder := (inOrder_names hstart).setAll es
  refine ⟨horder, lookup?_setAll start es, fun n s => ⟨?_, fun m => lookup?_set _ m n s⟩⟩
  exact updates_put horder.distinct (bareName n) s

/-- The built-in date comes first however it is spelled, and a name that has a `#` even without
the leading one comes last. -/
theorem setAll_lastWriteWins_hashed :
    InOrder (builtIn.names ++ ["Date".toList, "#X".toList])
      (builtIn.setAll [("#Date".toList, .client), ("##X".toList, .today)]) :=
  (setAll_lastWriteWins (.inr rfl) [("#Date".toList, .client), ("##X".toList, .today)]).1

end SlotTable

end WhereFilter
