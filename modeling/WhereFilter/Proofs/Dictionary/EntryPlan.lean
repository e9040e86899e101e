import WhereFilter.Dictionary.Column
import WhereFilter.Proofs.Dictionary.Default

namespace WhereFilter

namespace Column

variable {ν : Type}

/-- The entries stand in the order of their keys, each key once. -/
def Sorted (es : List (Text × ν)) : Prop :=
  (es.map Prod.fst).Pairwise (· < ·)

theorem sorted_nil : Sorted ([] : List (Text × ν)) :=
  List.Pairwise.nil

theorem Sorted.nodup {es : List (Text × ν)} (h : Sorted es) : (es.map Prod.fst).Nodup :=
  h.imp ne_of_lt

theorem find?_putSorted (j k : Text) (v : ν) (es : List (Text × ν)) :
    find? j (putSorted k v es) = if k = j then some v else find? j es := by
  induction es with
  | nil => simp [putSorted, find?]
  | cons e es ih =>
    obtain ⟨i, w⟩ := e
    by_cases hk : k = i
    · subst hk
      by_cases hj : k = j <;> simp [putSorted, find?, hj]
    · by_cases hlt : k < i
      · simp [putSorted, find?, hk, hlt]
      · by_cases hj : i = j
        · subst hj
          simp [putSorted, find?, hk, hlt]
        · simp [putSorted, find?, hk, hlt, hj, ih]

theorem mem_putSorted {i k : Text} {v : ν} {es : List (Text × ν)} :
    i ∈ (putSorted k v es).map Prod.fst ↔ k = i ∨ i ∈ es.map Prod.fst := by
  rw [← not_iff_not, ← find?_eq_none, find?_putSorted, not_or, ← find?_eq_none]
  by_cases h : k = i <;> simp [h]

theorem sorted_putSorted {es : List (Text × ν)} (h : Sorted es) (k : Text) (v : ν) :
    Sorted (putSorted k v es) := by
  induction es with
  | nil => simp [putSorted, Sorted]
  | cons e es ih =>
    obtain ⟨i, w⟩ := e
    obtain ⟨hhead, htail⟩ := List.pairwise_cons.mp h
    rw [putSorted]
    split_ifs with hk hlt
    · subst hk
      exact List.pairwise_cons.mpr ⟨hhead, htail⟩
    · refine List.pairwise_cons.mpr ⟨?_, h⟩
      exact List.forall_mem_cons.mpr ⟨hlt, fun j hj => hlt.trans (hhead j hj)⟩
    · refine List.pairwise_cons.mpr ⟨?_, ih htail⟩
      intro j hj
      rcases mem_putSorted.mp hj with rfl | hj
      · exact lt_of_le_of_ne (not_lt.mp hlt) (Ne.symm hk)
      · exact hhead j hj

/-- Which entries there are says all of sorted ones. -/
theorem Sorted.ext {es fs : List (Text × ν)} (he : Sorted es) (hf : Sorted fs)
    (h : ∀ e, e ∈ es ↔ e ∈ fs) : es = fs := by
  have hperm : es.Perm fs :=
    (List.perm_ext_iff_of_nodup he.nodup.of_map hf.nodup.of_map).mpr h
  refine hperm.eq_of_pairwise (fun a b _ _ hab hba => absurd hab (lt_asymm (a := b.1) hba)) ?_ ?_
  · exact List.pairwise_map.mp he
  · exact List.pairwise_map.mp hf

/-- A column of which a new record must bring a value that nobody has entered. -/
structure Required (table : Text) (c : Column) : Prop where
  mandatory : c.mandatory = true
  not_filled : c.name ∉ autoFilled
  not_key : c.name ≠ table ++ "_ID".toList
  not_name : c.name ≠ "Name".toList
  not_value : c.name ≠ "Value".toList

theorem needsDefault_iff {table : Text} {c : Column} :
    needsDefault table c = true ↔ Required table c := by
  simp only [needsDefault, Bool.and_eq_true, Bool.not_eq_eq_eq_not, Bool.not_true,
    Bool.or_eq_false_iff, List.contains_eq_mem, decide_eq_false_iff_not, beq_eq_false_iff_ne,
    idEnding]
  constructor
  · rintro ⟨hm, ⟨⟨hf, hk⟩, hn⟩, hv⟩
    exact ⟨hm, hf, hk, hn, hv⟩
  · rintro ⟨hm, hf, hk, hn, hv⟩
    exact ⟨hm, ⟨⟨hf, hk⟩, hn⟩, hv⟩

instance (table : Text) (c : Column) : Decidable (Required table c) :=
  decidable_of_iff _ needsDefault_iff

section Plan

variable {slots : SlotTable} {clock : Nat → Instant} {table : Text}

/-- `d` is the default of the last required column named `k`, at the time of its turn. The turns
are those of the required columns, and `n` of them have passed. -/
def LastDefault (slots : SlotTable) (clock : Nat → Instant) (table : Text) (n : Nat)
    (columns : List Column) (k : Text) (d : Default) : Prop :=
  ∃ before c after, columns = before ++ c :: after ∧ Required table c ∧ c.name = k ∧
    (∀ a ∈ after, Required table a → a.name ≠ k) ∧
    Default.resolve slots .system c.type? (clock (n + before.countP (Required table ·))) c.default =
      some d

theorem lastDefault_nil {n : Nat} {k : Text} {d : Default} :
    ¬ LastDefault slots clock table n [] k d := by
  rintro ⟨before, c, after, he, -⟩
  simp at he

theorem turns_cons (n : Nat) (c : Column) (before : List Column) :
    n + (c :: before).countP (Required table ·) =
      (n + if Required table c then 1 else 0) + before.countP (Required table ·) := by
  simp only [List.countP_cons, decide_eq_true_eq]
  omega

theorem lastDefault_cons {n : Nat} {c : Column} {rest : List Column} {k : Text} {d : Default} :
    LastDefault slots clock table n (c :: rest) k d ↔
      LastDefault slots clock table (n + if Required table c then 1 else 0) rest k d ∨
      Required table c ∧ c.name = k ∧ (∀ a ∈ rest, Required table a → a.name ≠ k) ∧
        Default.resolve slots .system c.type? (clock n) c.default = some d := by
  constructor
  · rintro ⟨before, a, after, he, ha, hk, hafter, hd⟩
    cases before with
    | nil =>
      cases he
      exact .inr ⟨ha, hk, hafter, hd⟩
    | cons b before =>
      cases he
      rw [turns_cons] at hd
      exact .inl ⟨before, a, after, rfl, ha, hk, hafter, hd⟩
  · rintro (⟨before, a, after, rfl, ha, hk, hafter, hd⟩ | ⟨ha, hk, hafter, hd⟩)
    · rw [← turns_cons] at hd
      exact ⟨c :: before, a, after, rfl, ha, hk, hafter, hd⟩
    · exact ⟨[], c, rest, rfl, ha, hk, hafter, hd⟩

theorem lastDefault_required {n : Nat} {c : Column} {rest : List Column} {k : Text} {d e : Default}
    (hc : Required table c)
    (he : Default.resolve slots .system c.type? (clock n) c.default = some e) :
    LastDefault slots clock table n (c :: rest) k d ↔
      LastDefault slots clock table (n + 1) rest k d ∨
      c.name = k ∧ (∀ a ∈ rest, Required table a → a.name ≠ k) ∧ d = e := by
  rw [lastDefault_cons, if_pos hc, he, Option.some.injEq, eq_comm (a := e)]
  exact or_congr_right (and_iff_right hc)

theorem lastDefault_exempt {n : Nat} {c : Column} {rest : List Column} {k : Text} {d : Default}
    (hc : ¬ Required table c) :
    LastDefault slots clock table n (c :: rest) k d ↔
      LastDefault slots clock table n rest k d := by
  rw [lastDefault_cons, if_neg hc, Nat.add_zero]
  exact or_iff_left fun h => hc h.1

/-- Some column of each required name is the last. -/
theorem exists_lastDefault_iff {columns : List Column} {k : Text}
    (h : ∀ c ∈ columns, Required table c → ∀ now,
      ∃ d, Default.resolve slots .system c.type? now c.default = some d) (n : Nat) :
    (∃ d, LastDefault slots clock table n columns k d) ↔
      ∃ c ∈ columns, Required table c ∧ c.name = k := by
  induction columns generalizing n with
  | nil => simp [lastDefault_nil]
  | cons c rest ih =>
    obtain ⟨hfirst, hrest⟩ := List.forall_mem_cons.mp h
    constructor
    · rintro ⟨d, hd⟩
      rcases lastDefault_cons.mp hd with hd | ⟨hc, hk, -⟩
      · obtain ⟨a, ha, hreq⟩ := (ih hrest _).mp ⟨d, hd⟩
        exact ⟨a, List.mem_cons_of_mem c ha, hreq⟩
      · exact ⟨c, List.mem_cons_self, hc, hk⟩
    · intro hk
      by_cases hlater : ∃ a ∈ rest, Required table a ∧ a.name = k
      · obtain ⟨d, hd⟩ := (ih hrest _).mpr hlater
        exact ⟨d, lastDefault_cons.mpr (.inl hd)⟩
      · obtain ⟨a, ha, hreq, rfl⟩ := hk
        rcases List.mem_cons.mp ha with rfl | ha
        · obtain ⟨d, hd⟩ := hfirst hreq (clock n)
          refine ⟨d, lastDefault_cons.mpr (.inr ⟨hreq, rfl, ?_, hd⟩)⟩
          exact fun b hb hbreq hname => hlater ⟨b, hb, hbreq, hname⟩
        · exact absurd ⟨a, ha, hreq, rfl⟩ hlater

theorem LastDefault.isWhole {n : Nat} {columns : List Column} {k : Text} {i : Instant}
    (h : LastDefault slots clock table n columns k (.timestamp i)) : i.IsWhole := by
  obtain ⟨before, c, after, -, -, -, -, hd⟩ := h
  exact Default.isWhole_of_resolve hd

/-- Where no name comes twice, and no time passes, the order does not count. -/
theorem lastDefault_of_nodup {columns : List Column} (h : (columns.map Column.name).Nodup)
    (now : Instant) (n : Nat) {k : Text} {d : Default} :
    LastDefault slots (fun _ => now) table n columns k d ↔
      ∃ c ∈ columns, Required table c ∧ c.name = k ∧
        Default.resolve slots .system c.type? now c.default = some d := by
  constructor
  · rintro ⟨before, c, after, rfl, hc, hk, -, hd⟩
    exact ⟨c, by simp, hc, hk, hd⟩
  · rintro ⟨c, hmem, hc, rfl, hd⟩
    obtain ⟨before, after, rfl⟩ := List.append_of_mem hmem
    refine ⟨before, c, after, rfl, hc, rfl, ?_, hd⟩
    intro a ha _ hname
    rw [List.map_append, List.map_cons] at h
    have hcons := (List.nodup_append.mp h).2.1
    exact (List.nodup_cons.mp hcons).1 (List.mem_map.mpr ⟨a, ha, hname⟩)

/-! The loop -/

variable {n : Nat} {found : List (Text × Default)} {c : Column}

theorem addDefaults_required (h : Required table c) (rest : List Column) :
    addDefaults slots clock table n found (c :: rest) =
      (Default.resolve slots .system c.type? (clock n) c.default).bind fun d =>
        addDefaults slots clock table (n + 1) (putSorted c.name d found) rest := by
  rw [addDefaults, if_pos (needsDefault_iff.mpr h)]
  cases Default.resolve slots .system c.type? (clock n) c.default <;> rfl

theorem addDefaults_exempt (h : ¬ Required table c) (rest : List Column) :
    addDefaults slots clock table n found (c :: rest) =
      addDefaults slots clock table n found rest := by
  rw [addDefaults, if_neg (needsDefault_iff.not.mpr h)]

/-- A column that needs no default changes nothing, wherever it stands. -/
theorem addDefaults_append_exempt (h : ¬ Required table c) (before after : List Column) :
    addDefaults slots clock table n found (before ++ c :: after) =
      addDefaults slots clock table n found (before ++ after) := by
  induction before generalizing n found with
  | nil => exact addDefaults_exempt h after
  | cons b before ih =>
    by_cases hb : Required table b
    · simp only [List.cons_append, addDefaults_required hb, ih]
    · simp only [List.cons_append, addDefaults_exempt hb, ih]

/-- Whether all goes well is seen at any time. -/
theorem isSome_addDefaults (now : Instant) (columns : List Column) :
    (addDefaults slots clock table n found columns).isSome = true ↔
      ∀ c ∈ columns, Required table c →
        ∃ d, Default.resolve slots .system c.type? now c.default = some d := by
  induction columns generalizing n found with
  | nil => simp [addDefaults]
  | cons c rest ih =>
    rw [List.forall_mem_cons]
    by_cases hc : Required table c
    · have hnow := Default.isSome_resolve_at slots .system c.type? (clock n) now c.default
      rw [addDefaults_required hc, ← Option.isSome_iff_exists, ← hnow]
      cases Default.resolve slots .system c.type? (clock n) c.default with
      | none => simp [hc]
      | some d => simp [hc, ih]
    · simp [addDefaults_exempt hc, hc, ih]

theorem sorted_addDefaults {found' : List (Text × Default)} (hs : Sorted found)
    {columns : List Column} (h : addDefaults slots clock table n found columns = some found') :
    Sorted found' := by
  induction columns generalizing n found with
  | nil =>
    cases h
    exact hs
  | cons c rest ih =>
    by_cases hc : Required table c
    · rw [addDefaults_required hc] at h
      obtain ⟨d, -, h⟩ := Option.bind_eq_some_iff.mp h
      exact ih (sorted_putSorted hs c.name d) h
    · rw [addDefaults_exempt hc] at h
      exact ih hs h

/-- Later columns win, and what was there stays where no column comes. -/
theorem find?_addDefaults {found' : List (Text × Default)} {columns : List Column}
    (h : addDefaults slots clock table n found columns = some found') {k : Text} {d : Default} :
    find? k found' = some d ↔ LastDefault slots clock table n columns k d ∨
      (∀ c ∈ columns, Required table c → c.name ≠ k) ∧ find? k found = some d := by
  induction columns generalizing n found with
  | nil =>
    cases h
    simp [lastDefault_nil]
  | cons c rest ih =>
    rw [List.forall_mem_cons]
    by_cases hc : Required table c
    · rw [addDefaults_required hc] at h
      obtain ⟨d', hd, h⟩ := Option.bind_eq_some_iff.mp h
      rw [ih h, find?_putSorted, lastDefault_required hc hd]
      by_cases hk : c.name = k <;> simp [hc, hk, eq_comm (a := d)]
    · rw [addDefaults_exempt hc] at h
      rw [ih h, lastDefault_exempt hc]
      simp [hc]

/-! The plan -/

theorem addDefaults_of_eligible {columns : List Column}
    (h : (entryPlan slots clock table columns).eligible = true) :
    addDefaults slots clock table 0 [] columns =
      some (entryPlan slots clock table columns).defaults := by
  unfold entryPlan at h ⊢
  split at h
  · next found hfound => rw [hfound]
  · cases h

theorem eligible_iff (now : Instant) (columns : List Column) :
    (entryPlan slots clock table columns).eligible = true ↔
      ∀ c ∈ columns, Required table c →
        ∃ d, Default.resolve slots .system c.type? now c.default = some d := by
  have hplan : (entryPlan slots clock table columns).eligible =
      (addDefaults slots clock table 0 [] columns).isSome := by
    unfold entryPlan
    cases addDefaults slots clock table 0 [] columns <;> rfl
  rw [hplan, isSome_addDefaults now columns]

theorem defaults_of_not_eligible {columns : List Column}
    (h : (entryPlan slots clock table columns).eligible = false) :
    (entryPlan slots clock table columns).defaults = [] := by
  unfold entryPlan at h ⊢
  split at h
  · cases h
  · rfl

theorem sorted_defaults (columns : List Column) :
    Sorted (entryPlan slots clock table columns).defaults := by
  cases h : (entryPlan slots clock table columns).eligible with
  | true => exact sorted_addDefaults sorted_nil (addDefaults_of_eligible h)
  | false =>
    rw [defaults_of_not_eligible h]
    exact sorted_nil

theorem mem_defaults_iff {columns : List Column}
    (h : (entryPlan slots clock table columns).eligible = true) {k : Text} {d : Default} :
    (k, d) ∈ (entryPlan slots clock table columns).defaults ↔
      LastDefault slots clock table 0 columns k d := by
  rw [mem_iff_find? (sorted_defaults columns).nodup, find?_addDefaults (addDefaults_of_eligible h)]
  simp [find?]

theorem entryPlan_append_exempt (h : ¬ Required table c) (before after : List Column) :
    entryPlan slots clock table (before ++ c :: after) =
      entryPlan slots clock table (before ++ after) := by
  rw [entryPlan, entryPlan, addDefaults_append_exempt h]

theorem eligible_perm {columns columns' : List Column} (h : columns'.Perm columns)
    (clock' : Nat → Instant) : (entryPlan slots clock' table columns').eligible =
      (entryPlan slots clock table columns).eligible := by
  rw [Bool.eq_iff_iff, eligible_iff (clock 0), eligible_iff (clock 0)]
  exact forall_congr' fun c => imp_congr h.mem_iff Iff.rfl

theorem entryPlan_perm {columns columns' : List Column} (h : columns'.Perm columns)
    (hn : (columns.map Column.name).Nodup) (now : Instant) :
    entryPlan slots (fun _ => now) table columns' =
      entryPlan slots (fun _ => now) table columns := by
  have hn' : (columns'.map Column.name).Nodup := (h.map Column.name).nodup_iff.mpr hn
  have heligible : (entryPlan slots (fun _ => now) table columns').eligible =
      (entryPlan slots (fun _ => now) table columns).eligible := eligible_perm h fun _ => now
  refine EntryPlan.ext heligible ?_
  cases he : (entryPlan slots (fun _ => now) table columns).eligible with
  | false => rw [defaults_of_not_eligible he, defaults_of_not_eligible (heligible.trans he)]
  | true =>
    refine (sorted_defaults columns').ext (sorted_defaults columns) fun (k, d) => ?_
    rw [mem_defaults_iff he, mem_defaults_iff (heligible.trans he), lastDefault_of_nodup hn,
      lastDefault_of_nodup hn']
    simp only [h.mem_iff]

end Plan

/-- What a record entered by its name alone is sent with: the default of each required column, of
the last one where a name comes twice, or nothing at all if one of them has none. A time is sent as
a whole second. -/
theorem entryPlan_sends_required (slots : SlotTable) (clock : Nat → Instant) (table : Text)
    (columns : List Column) :
    let plan := entryPlan slots clock table columns
    (∀ now, plan.eligible = true ↔ ∀ c ∈ columns, Required table c →
      ∃ d, Default.resolve slots .system c.type? now c.default = some d) ∧
    (plan.eligible = true → Sorted plan.defaults ∧
      (∀ k, k ∈ plan.defaults.map Prod.fst ↔ ∃ c ∈ columns, Required table c ∧ c.name = k) ∧
      (∀ k d, (k, d) ∈ plan.defaults ↔ LastDefault slots clock table 0 columns k d) ∧
      ∀ k i, (k, .timestamp i) ∈ plan.defaults → i.IsWhole) ∧
    (plan.eligible = false → plan.defaults = []) ∧
    (∀ clock', (entryPlan slots clock' table columns).eligible = plan.eligible) ∧
    (∀ before c after, columns = before ++ c :: after → ¬ Required table c →
      entryPlan slots clock table (before ++ after) = plan) ∧
    ∀ columns', columns'.Perm columns → (columns.map Column.name).Nodup →
      (entryPlan slots clock table columns').eligible = plan.eligible ∧
      ∀ now, entryPlan slots (fun _ => now) table columns' =
        entryPlan slots (fun _ => now) table columns := by
  intro plan
  refine ⟨fun now => eligible_iff now columns, ?_, defaults_of_not_eligible, ?_, ?_, ?_⟩
  · intro h
    have hall : ∀ c ∈ columns, Required table c → ∀ now,
        ∃ d, Default.resolve slots .system c.type? now c.default = some d :=
      fun c hc hreq now => (eligible_iff now columns).mp h c hc hreq
    refine ⟨sorted_defaults columns, fun k => ?_, fun k d => mem_defaults_iff h,
      fun k i hi => ((mem_defaults_iff h).mp hi).isWhole⟩
    have hkeys : k ∈ plan.defaults.map Prod.fst ↔ ∃ d, (k, d) ∈ plan.defaults := by simp
    rw [hkeys, exists_congr fun d => mem_defaults_iff h, exists_lastDefault_iff hall]
  · exact fun clock' => eligible_perm (.refl columns) clock'
  · rintro before c after rfl hc
    exact (entryPlan_append_exempt hc before after).symm
  · exact fun columns' h hn => ⟨eligible_perm h clock, entryPlan_perm h hn⟩

/-- An order that says twice whether its partner is a customer, and when it was made. -/
def orderColumns : List Column :=
  [{ name := "IsCustomer".toList, typeCode := 20, mandatory := true, default := ['N'] },
   { name := "DateOrdered".toList, typeCode := 16, mandatory := true,
     default := "SYSDATE".toList },
   { name := "Description".toList, typeCode := 10, default := "@SQL=SELECT 1".toList },
   { name := "IsCustomer".toList, typeCode := 20, mandatory := true, default := ['Y'] }]

/-- A partner whose group has no default. -/
def partnerColumns : List Column :=
  [{ name := "IsCustomer".toList, typeCode := 20, mandatory := true, default := ['Y'] },
   { name := "C_BP_Group_ID".toList, typeCode := 19, mandatory := true }]

/-- Of a repeated name the later default is sent, and a time as its whole second. Where one default
is missing, none is sent. -/
theorem entryPlan_sends_required_repeated :
    entryPlan .builtIn (fun n => ⟨1000 + n, 500000000⟩) "C_Order".toList orderColumns =
      { eligible := true
        defaults := [("DateOrdered".toList, .timestamp ⟨1001, 0⟩),
          ("IsCustomer".toList, .yesNo true)] } ∧
    entryPlan .builtIn (fun n => ⟨1000 + n, 500000000⟩) "C_BPartner".toList partnerColumns =
      { eligible := false, defaults := [] } := by
  constructor
  · obtain ⟨heligible, hsent, -⟩ := entryPlan_sends_required .builtIn
      (fun n => ⟨1000 + n, 500000000⟩) "C_Order".toList orderColumns
    have hall : (entryPlan .builtIn (fun n => ⟨1000 + n, 500000000⟩) "C_Order".toList
        orderColumns).eligible = true := by
      refine (heligible ⟨0, 0⟩).mpr ?_
      simp only [orderColumns, List.forall_mem_cons]
      refine ⟨fun _ => ⟨.yesNo false, rfl⟩, fun _ => ⟨.timestamp ⟨0, 0⟩, rfl⟩, fun h => ?_,
        fun _ => ⟨.yesNo true, rfl⟩, by simp⟩
      exact absurd h (by decide)
    obtain ⟨hsorted, -, hlast, -⟩ := hsent hall
    refine EntryPlan.ext hall (hsorted.ext (by simp [Sorted]; decide) fun (k, d) => ?_)
    have hrequired : Required "C_Order".toList
        { name := "IsCustomer".toList, typeCode := 20, mandatory := true, default := ['Y'] } := by
      decide
    rw [hlast, orderColumns, lastDefault_required (by decide) rfl,
      lastDefault_required (by decide) rfl, lastDefault_exempt (by decide),
      lastDefault_required hrequired rfl]
    constructor
    · rintro (((hnil | ⟨rfl, -, rfl⟩) | ⟨rfl, -, rfl⟩) | ⟨rfl, hlater, -⟩)
      · exact absurd hnil lastDefault_nil
      · simp
      · exact List.mem_cons_self
      · have hne := hlater _ (by simp) hrequired
        exact absurd rfl hne
    · intro hm
      simp only [List.mem_cons, Prod.mk.injEq, List.not_mem_nil, or_false] at hm
      rcases hm with ⟨rfl, rfl⟩ | ⟨rfl, rfl⟩
      · refine .inl (.inr ⟨rfl, ?_, rfl⟩)
        simp only [List.forall_mem_cons]
        exact ⟨fun _ => by decide, fun _ => by decide, by simp⟩
      · exact .inl (.inl (.inr ⟨rfl, by simp, rfl⟩))
  · obtain ⟨heligible, -, hempty, -⟩ := entryPlan_sends_required .builtIn
      (fun n => ⟨1000 + n, 500000000⟩) "C_BPartner".toList partnerColumns
    have hnone : (entryPlan .builtIn (fun n => ⟨1000 + n, 500000000⟩) "C_BPartner".toList
        partnerColumns).eligible = false := by
      refine Bool.eq_false_iff.mpr fun he => ?_
      obtain ⟨d, hd⟩ := (heligible ⟨0, 0⟩).mp he
        { name := "C_BP_Group_ID".toList, typeCode := 19, mandatory := true }
        (by simp [partnerColumns]) (by decide)
      cases hd
    exact EntryPlan.ext hnone (hempty hnone)

end Column

end WhereFilter
