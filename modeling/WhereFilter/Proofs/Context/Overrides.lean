import WhereFilter.Proofs.Context.SlotTable
import WhereFilter.Proofs.Text.Lines

namespace WhereFilter

namespace SlotTable

/-- A line that says something: it is not blank and does not start with `;`. -/
def Effective (line : Text) : Prop :=
  ∃ c r, Text.trim line = c :: r ∧ c ≠ ';'

/-- Such a line, with `name` before its first `=` and `slot` behind it. -/
inductive Splits (line : Text) : Text → Text → Prop
  | intro {front back : Text} (he : Effective line) (ht : Text.trim line = front ++ '=' :: back)
      (hf : '=' ∉ front) : Splits line (Text.trim front) (Text.trim back)

/-- Why line `number` is refused. -/
inductive Refuses (number : Nat) (line : Text) : OverrideError → Prop
  | missing (he : Effective line) (hm : '=' ∉ Text.trim line) :
      Refuses number line (.missingSlot number)
  | unknown {name slot : Text} (hl : Splits line name slot) (hs : ∀ s : Slot, s.name ≠ slot) :
      Refuses number line (.unknownSlot number slot)

/-- A line that is refused wherever it stands. -/
def Flawed (line : Text) : Prop :=
  ∃ number e, Refuses number line e

/-- The first name as it is written, the second as it is kept: without one leading `#`. -/
inductive Bare : Text → Text → Prop
  | hashed (name : Text) : Bare ('#' :: name) name
  | plain {name : Text} (h : name.head? ≠ some '#') : Bare name name

/-- The pairs that lines give, in order; one that is blank or starts with `;` gives none. -/
inductive Gives : List Text → List (Text × Slot) → Prop
  | nil : Gives [] []
  | skip {line : Text} {ls : List Text} {es : List (Text × Slot)} (hl : ¬ Effective line)
      (h : Gives ls es) : Gives (line :: ls) es
  | entry {line written name : Text} {s : Slot} {ls : List Text} {es : List (Text × Slot)}
      (hl : Splits line written s.name) (hb : Bare written name) (h : Gives ls es) :
      Gives (line :: ls) ((name, s) :: es)

/-- The last pair of `name` has slot `s`. -/
def Last (es : List (Text × Slot)) (name : Text) (s : Slot) : Prop :=
  ∃ before after, es = before ++ (name, s) :: after ∧ name ∉ after.map Prod.fst

variable {t : SlotTable} {number : Nat} {line written name slot : Text} {s : Slot}
variable {es : List (Text × Slot)} {e : OverrideError}

/-! Names -/

theorem bare_iff : Bare written name ↔ bareName written = name := by
  constructor
  · intro h
    cases h with
    | hashed name => exact bareName_hash name
    | plain h => exact bareName_of_ne h
  · rintro rfl
    by_cases h : written.head? = some '#'
    · obtain ⟨name, rfl⟩ := List.head?_eq_some_iff.mp h
      rw [bareName_hash]
      exact .hashed name
    · rw [bareName_of_ne h]
      exact .plain h

theorem exists_bare (written : Text) : ∃ name, Bare written name :=
  ⟨bareName written, bare_iff.mpr rfl⟩

/-- Pairs are kept the same with a `#` before each name. -/
def hashAll (es : List (Text × Slot)) : List (Text × Slot) :=
  es.map fun e => ('#' :: e.1, e.2)

theorem set_of_bare (h : Bare written name) (t : SlotTable) (s : Slot) :
    t.set written s = t.set ('#' :: name) s := by
  rw [set, set, bare_iff.mp h, bareName_hash]

theorem bareName_hashAll (es : List (Text × Slot)) :
    (hashAll es).map (fun e => bareName e.1) = es.map Prod.fst := by
  simp [hashAll, bareName_hash]

theorem last_cons {k n : Text} {v : Slot} :
    Last ((n, v) :: es) k s ↔ Last es k s ∨ k ∉ es.map Prod.fst ∧ n = k ∧ v = s := by
  constructor
  · rintro ⟨before, after, he, hk⟩
    cases before with
    | nil =>
      cases he
      exact .inr ⟨hk, rfl, rfl⟩
    | cons b before =>
      cases he
      exact .inl ⟨before, after, rfl, hk⟩
  · rintro (⟨before, after, rfl, hk⟩ | ⟨hk, rfl, rfl⟩)
    · exact ⟨(n, v) :: before, after, rfl, hk⟩
    · exact ⟨[], es, rfl, hk⟩

theorem lastOf_hashAll_eq_none {k : Text} : lastOf k (hashAll es) = none ↔ k ∉ es.map Prod.fst := by
  rw [← bareName_hashAll, lastOf, Option.map_eq_none_iff]
  simp only [List.find?_eq_none, List.mem_reverse, decide_eq_true_eq, List.mem_map, not_exists,
    not_and]

theorem lastOf_hashAll {k : Text} : lastOf k (hashAll es) = some s ↔ Last es k s := by
  induction es with
  | nil => simp [hashAll, lastOf, Last]
  | cons e es ih =>
    obtain ⟨n, v⟩ := e
    have hcons : hashAll ((n, v) :: es) = ('#' :: n, v) :: hashAll es := rfl
    rw [hcons, lastOf_cons, bareName_hash, Option.or_eq_some_iff, ih, lastOf_hashAll_eq_none,
      last_cons, Option.ite_none_right_eq_some, Option.some.injEq]

/-! One line -/

theorem entryOf_of_not_effective (h : ¬ Effective line) : entryOf number line = .ok none := by
  unfold entryOf
  split
  · rfl
  · rfl
  · next ht hremark =>
    refine absurd ?_ h
    cases hline : Text.trim line with
    | nil => exact absurd hline ht
    | cons c r => exact ⟨c, r, hline, fun hc => hremark r (by rw [hline, hc])⟩

/-- What counts in such a line is the first `=`. -/
theorem entryOf_of_effective (h : Effective line) :
    entryOf number line =
      match cutFirst? '=' (Text.trim line) with
      | none => .error (.missingSlot number)
      | some (name, slot) =>
        match Slot.ofName? (Text.trim slot) with
        | none => .error (.unknownSlot number (Text.trim slot))
        | some s => .ok (some (Text.trim name, s)) := by
  obtain ⟨c, r, ht, hc⟩ := h
  unfold entryOf
  split
  · next hnil => simp [ht] at hnil
  · next hremark =>
    rw [ht, List.cons.injEq] at hremark
    exact absurd hremark.1 hc
  · rfl

theorem entryOf_of_splits (h : Splits line name slot) :
    entryOf number line =
      match Slot.ofName? slot with
      | none => .error (.unknownSlot number slot)
      | some s => .ok (some (name, s)) := by
  obtain @⟨front, back, he, ht, hf⟩ := h
  rw [entryOf_of_effective he, cutFirst?_eq_some.mpr ⟨ht, hf⟩]

theorem entryOf_of_refuses (h : Refuses number line e) : entryOf number line = .error e := by
  cases h with
  | missing he hm => rw [entryOf_of_effective he, cutFirst?_eq_none.mpr hm]
  | unknown hl hs => rw [entryOf_of_splits hl, Slot.ofName?_eq_none.mpr hs]

theorem entryOf_of_entry (h : Splits line written s.name) :
    entryOf number line = .ok (some (written, s)) := by
  rw [entryOf_of_splits h, Slot.ofName?_name]

/-- A line is left out, refused or read. -/
theorem line_cases (number : Nat) (line : Text) : ¬ Effective line ∨
    (∃ e, Refuses number line e) ∨ ∃ name s, Splits line name (Slot.name s) := by
  by_cases he : Effective line
  · refine .inr ?_
    by_cases hm : '=' ∈ Text.trim line
    · obtain ⟨front, back, ht, hf⟩ := List.eq_append_cons_of_mem hm
      have hl : Splits line (Text.trim front) (Text.trim back) := .intro he ht hf
      cases hs : Slot.ofName? (Text.trim back) with
      | none => exact .inl ⟨_, .unknown hl (Slot.ofName?_eq_none.mp hs)⟩
      | some s =>
        rw [← Slot.ofName?_eq_some.mp hs] at hl
        exact .inr ⟨_, s, hl⟩
    · exact .inl ⟨_, .missing he hm⟩
  · exact .inl he

theorem Refuses.anywhere (h : Refuses number line e) (other : Nat) :
    ∃ e', Refuses other line e' := by
  cases h with
  | missing he hm => exact ⟨_, .missing he hm⟩
  | unknown hl hs => exact ⟨_, .unknown hl hs⟩

theorem entryOf_eq_none (number : Nat) : entryOf number line = .ok none ↔ ¬ Effective line := by
  refine ⟨fun h => ?_, entryOf_of_not_effective⟩
  rcases line_cases number line with hl | ⟨e, hr⟩ | ⟨name, s, hl⟩
  · exact hl
  · rw [entryOf_of_refuses hr] at h
    cases h
  · rw [entryOf_of_entry hl] at h
    cases h

theorem entryOf_eq_some (number : Nat) :
    entryOf number line = .ok (some (written, s)) ↔ Splits line written s.name := by
  refine ⟨fun h => ?_, entryOf_of_entry⟩
  rcases line_cases number line with hl | ⟨e, hr⟩ | ⟨name, s', hl⟩
  · rw [entryOf_of_not_effective hl] at h
    cases h
  · rw [entryOf_of_refuses hr] at h
    cases h
  · rw [entryOf_of_entry hl] at h
    cases h
    exact hl

/-! All lines -/

theorem Gives.not_flawed {ls : List Text} (h : Gives ls es) : ∀ l ∈ ls, ¬ Flawed l := by
  induction h with
  | nil => simp
  | @skip line ls es hl _ ih =>
    refine List.forall_mem_cons.mpr ⟨?_, ih⟩
    rintro ⟨number, e, hr⟩
    have hentry := entryOf_of_refuses hr
    rw [entryOf_of_not_effective hl] at hentry
    cases hentry
  | @entry line _ _ s ls es hl _ _ ih =>
    refine List.forall_mem_cons.mpr ⟨?_, ih⟩
    rintro ⟨number, e, hr⟩
    have hentry := entryOf_of_refuses hr
    rw [entryOf_of_entry hl] at hentry
    cases hentry

/-- Lines give one list of pairs at most. -/
theorem Gives.unique {ls : List Text} {fs : List (Text × Slot)} (h : Gives ls es)
    (h' : Gives ls fs) : es = fs := by
  induction h generalizing fs with
  | nil =>
    cases h'
    rfl
  | skip hl _ ih =>
    cases h' with
    | skip _ h' => exact ih h'
    | entry hl' =>
      have hentry := (entryOf_eq_none 0).mpr hl
      rw [entryOf_of_entry hl'] at hentry
      cases hentry
  | entry hl hb _ ih =>
    cases h' with
    | skip hl' =>
      have hentry := (entryOf_eq_some 0).mpr hl
      rw [entryOf_of_not_effective hl'] at hentry
      cases hentry
    | entry hl' hb' h' =>
      have hentry := (entryOf_eq_some 0).mpr hl
      rw [entryOf_of_entry hl'] at hentry
      cases hentry
      rw [← bare_iff.mp hb, bare_iff.mp hb', ih h']

/-- Lines give their pairs, or there is a first one that is refused. -/
theorem gives_or_refused (ls : List Text) :
    (∃ es, Gives ls es) ∨ ∃ before line after es,
      ls = before ++ line :: after ∧ Gives before es ∧ Flawed line := by
  induction ls with
  | nil => exact .inl ⟨[], .nil⟩
  | cons l ls ih =>
    rcases line_cases 0 l with hl | ⟨e, hr⟩ | ⟨name, s, hl⟩
    · rcases ih with ⟨es, h⟩ | ⟨before, line, after, es, rfl, h, hf⟩
      · exact .inl ⟨es, .skip hl h⟩
      · exact .inr ⟨l :: before, line, after, es, rfl, .skip hl h, hf⟩
    · exact .inr ⟨[], l, ls, [], rfl, .nil, 0, e, hr⟩
    · obtain ⟨kept, hb⟩ := exists_bare name
      rcases ih with ⟨es, h⟩ | ⟨before, line, after, es, rfl, h, hf⟩
      · exact .inl ⟨_, .entry hl hb h⟩
      · exact .inr ⟨l :: before, line, after, _, rfl, .entry hl hb h, hf⟩

theorem exists_gives_iff {ls : List Text} : (∃ es, Gives ls es) ↔ ∀ l ∈ ls, ¬ Flawed l := by
  constructor
  · rintro ⟨es, h⟩
    exact h.not_flawed
  · intro h
    rcases gives_or_refused ls with hes | ⟨before, line, after, es, rfl, -, hf⟩
    · exact hes
    · exact absurd hf (h line (by simp))

/-- Lines that give pairs are read past, and the table has the pairs. -/
theorem override_append {before : List Text} (h : Gives before es) (t : SlotTable) (number : Nat)
    (rest : List Text) : override t number (before ++ rest) =
      override (t.setAll (hashAll es)) (number + before.length) rest := by
  induction h generalizing t number with
  | nil => rfl
  | skip hl _ ih =>
    rw [List.cons_append, override, entryOf_of_not_effective hl, ih, List.length_cons,
      Nat.add_assoc, Nat.add_comm 1]
  | entry hl hb _ ih =>
    rw [List.cons_append, override, entryOf_of_entry hl]
    dsimp only
    rw [set_of_bare hb, ih, List.length_cons, Nat.add_assoc, Nat.add_comm 1]
    rfl

theorem override_of_refuses (h : Refuses number line e) (after : List Text) :
    override t number (line :: after) = .error e := by
  rw [override, entryOf_of_refuses h]

/-- The first bad line is the error, and without one the table has all the pairs. -/
theorem override_cases (t : SlotTable) (number : Nat) (ls : List Text) :
    (∃ es, Gives ls es ∧ override t number ls = .ok (t.setAll (hashAll es))) ∨
    ∃ before line after e, ls = before ++ line :: after ∧ (∀ l ∈ before, ¬ Flawed l) ∧
      Refuses (number + before.length) line e ∧ override t number ls = .error e := by
  rcases gives_or_refused ls with ⟨es, h⟩ | ⟨before, line, after, es, rfl, h, number', e', hr⟩
  · refine .inl ⟨es, h, ?_⟩
    have hall := override_append h t number []
    rwa [List.append_nil] at hall
  · obtain ⟨e, he⟩ := hr.anywhere (number + before.length)
    refine .inr ⟨before, line, after, e, rfl, h.not_flawed, he, ?_⟩
    rw [override_append h, override_of_refuses he]

theorem override_eq_error_iff {ls : List Text} :
    override t number ls = .error e ↔
      ∃ before line after, ls = before ++ line :: after ∧ (∀ l ∈ before, ¬ Flawed l) ∧
        Refuses (number + before.length) line e := by
  constructor
  · intro h
    rcases override_cases t number ls with ⟨es, -, hok⟩ | ⟨before, line, after, e', hls, hb, hr, he⟩
    · rw [hok] at h
      cases h
    · rw [he] at h
      cases h
      exact ⟨before, line, after, hls, hb, hr⟩
  · rintro ⟨before, line, after, rfl, hb, hr⟩
    obtain ⟨es, h⟩ := exists_gives_iff.mpr hb
    rw [override_append h, override_of_refuses hr]

theorem override_eq_ok {ls : List Text} {t' : SlotTable} (h : override t number ls = .ok t') :
    ∃ es, Gives ls es ∧ t' = t.setAll (hashAll es) := by
  rcases override_cases t number ls with ⟨es, hes, hok⟩ | ⟨_, _, _, _, -, -, -, he⟩
  · rw [hok] at h
    cases h
    exact ⟨es, hes, rfl⟩
  · rw [he] at h
    cases h

/-- A text of overrides is refused for its first bad line; otherwise it is a table with the
built-in names first and then the new ones as they come, where the last line of a name wins. -/
theorem ofOverrides_lines (text : Text) : ∃ ls, Lined '\n' '\r' text ls ∧
    ((∃ e, ofOverrides text = .error e) ↔ ∃ l ∈ ls, Flawed l) ∧
    (∀ e, ofOverrides text = .error e ↔
      ∃ before line after, ls = before ++ line :: after ∧ (∀ l ∈ before, ¬ Flawed l) ∧
        Refuses (before.length + 1) line e) ∧
    ∀ t, ofOverrides text = .ok t → ∃ es, Gives ls es ∧
      t.names = builtIn.names ++ ((es.map Prod.fst).filter (· ∉ builtIn.names)).eraseDups ∧
      t.names.Nodup ∧
      ∀ written name, Bare written name → ∀ s, t.lookup? written = some s ↔
        Last es name s ∨ name ∉ es.map Prod.fst ∧ (name, s) ∈ builtIn.entries := by
  refine ⟨lines '\n' '\r' text, lined_lines '\n' '\r' text, ?_, ?_, ?_⟩
  · constructor
    · rintro ⟨e, he⟩
      obtain ⟨before, line, after, hls, -, hr⟩ := override_eq_error_iff.mp he
      exact ⟨line, by simp [hls], _, e, hr⟩
    · rintro ⟨l, hl, hf⟩
      rcases override_cases builtIn 1 (lines '\n' '\r' text) with
        ⟨es, h, -⟩ | ⟨_, _, _, e, -, -, -, he⟩
      · exact absurd hf (h.not_flawed l hl)
      · exact ⟨e, he⟩
  · intro e
    rw [ofOverrides, override_eq_error_iff]
    simp only [Nat.add_comm 1]
  · intro t ht
    obtain ⟨es, hes, rfl⟩ := override_eq_ok ht
    refine ⟨es, hes, ?_, nodup_setAll (by decide) _, ?_⟩
    · rw [names_setAll, bareName_hashAll]
    · intro written name hb s
      rw [lookup?_setAll, bare_iff.mp hb, Option.or_eq_some_iff, lastOf_hashAll,
        lastOf_hashAll_eq_none, lookup?, bare_iff.mp hb, mem_iff_find? (by decide)]

/-- Names and slots of all kinds, two names given again. -/
def shopOverrides : Text :=
  ("; mine\n#Date = client_id\r\nTax=today\n##Tax=organization_id\n#Tax=warehouse_id\n" ++
    "Kind=sales_transaction").toList

/-- One `#` is dropped where a name is given and where it is looked for, and what is built in stays
where no line comes. Elsewhere the blank line counts, and the slot is named without the blank
before it. -/
theorem ofOverrides_lines_hashed :
    (∃ t, ofOverrides shopOverrides = .ok t ∧
      t.names = ["Date".toList, "AD_Org_ID".toList, "M_Warehouse_ID".toList, "AD_Client_ID".toList,
        "IsSOTrx".toList, "Tax".toList, "#Tax".toList, "Kind".toList] ∧
      t.lookup? "Date".toList = some .client ∧ t.lookup? "#Date".toList = some .client ∧
      t.lookup? "Tax".toList = some .warehouse ∧ t.lookup? "##Tax".toList = some .organization ∧
      t.lookup? "Kind".toList = some .salesTransaction ∧
      t.lookup? "#AD_Org_ID".toList = some .organization ∧
      t.lookup? "#M_Warehouse_ID".toList = some .warehouse ∧
      t.lookup? "#AD_Client_ID".toList = some .client ∧
      t.lookup? "#IsSOTrx".toList = some .salesTransaction) ∧
    ofOverrides "\nX= nope".toList = .error (.unknownSlot 2 "nope".toList) := by
  constructor
  · obtain ⟨ls, hls, hfails, -, htable⟩ := ofOverrides_lines shopOverrides
    obtain rfl : ["; mine".toList, "#Date = client_id".toList, "Tax=today".toList,
      "##Tax=organization_id".toList, "#Tax=warehouse_id".toList,
      "Kind=sales_transaction".toList] = ls := (lined_iff (by decide)).mp hls
    have hgives : Gives ["; mine".toList, "#Date = client_id".toList, "Tax=today".toList,
        "##Tax=organization_id".toList, "#Tax=warehouse_id".toList,
        "Kind=sales_transaction".toList]
        [("Date".toList, .client), ("Tax".toList, .today), ("#Tax".toList, .organization),
          ("Tax".toList, .warehouse), ("Kind".toList, .salesTransaction)] := by
      refine .skip ((entryOf_eq_none 1).mp rfl) ?_
      refine .entry ((entryOf_eq_some 2).mp rfl) (.hashed _) ?_
      refine .entry ((entryOf_eq_some 3).mp rfl) (.plain (by decide)) ?_
      refine .entry ((entryOf_eq_some 4).mp rfl) (.hashed _) ?_
      refine .entry ((entryOf_eq_some 5).mp rfl) (.hashed _) ?_
      exact .entry ((entryOf_eq_some 6).mp rfl) (.plain (by decide)) .nil
    cases ht : ofOverrides shopOverrides with
    | error e =>
      obtain ⟨l, hl, hf⟩ := hfails.mp ⟨e, ht⟩
      exact absurd hf (hgives.not_flawed l hl)
    | ok t =>
      obtain ⟨es, hes, hnames, -, hlookup⟩ := htable t ht
      obtain rfl := hgives.unique hes
      refine ⟨t, rfl, hnames.trans (by decide), ?_, ?_, ?_, ?_, ?_, ?_, ?_, ?_, ?_⟩
      · exact (hlookup _ _ (.plain (by decide)) _).mpr (.inl ⟨[], _, rfl, by decide⟩)
      · exact (hlookup _ _ (.hashed _) _).mpr (.inl ⟨[], _, rfl, by decide⟩)
      · exact (hlookup _ _ (.plain (by decide)) _).mpr (.inl ⟨[_, _, _], _, rfl, by decide⟩)
      · exact (hlookup _ _ (.hashed _) _).mpr (.inl ⟨[_, _], _, rfl, by decide⟩)
      · exact (hlookup _ _ (.plain (by decide)) _).mpr (.inl ⟨[_, _, _, _], [], rfl, by decide⟩)
      · exact (hlookup _ _ (.hashed _) _).mpr (.inr ⟨by decide, by decide⟩)
      · exact (hlookup _ _ (.hashed _) _).mpr (.inr ⟨by decide, by decide⟩)
      · exact (hlookup _ _ (.hashed _) _).mpr (.inr ⟨by decide, by decide⟩)
      · exact (hlookup _ _ (.hashed _) _).mpr (.inr ⟨by decide, by decide⟩)
  · obtain ⟨ls, hls, -, herror, -⟩ := ofOverrides_lines "\nX= nope".toList
    obtain rfl : [[], "X= nope".toList] = ls := (lined_iff (by decide)).mp hls
    have hblank : Gives [[]] [] := .skip ((entryOf_eq_none 1).mp rfl) .nil
    have hsplit : Splits "X= nope".toList ['X'] "nope".toList :=
      @Splits.intro _ ['X'] " nope".toList ⟨'X', "= nope".toList, rfl, by decide⟩ rfl (by decide)
    refine (herror _).mpr ⟨[[]], _, [], rfl, hblank.not_flawed, .unknown hsplit ?_⟩
    intro s
    cases s <;> decide

end SlotTable

end WhereFilter
