import Mathlib
import WhereFilter.Memo

namespace WhereFilter

namespace Memo

/-- Work on a memo that ends with a result. What it does next may hang on what it was told, and
the lookup behind a question is such work of its own, on the same memo. -/
inductive Work (κ ν : Type) : Type → Type 1
  | done {α : Type} (a : α) : Work κ ν α
  | get {α : Type} (k : κ) (next : Option ν → Work κ ν α) : Work κ ν α
  | insert {α : Type} (k : κ) (v : ν) (next : Work κ ν α) : Work κ ν α
  | forget {α : Type} (k : κ) (next : Option ν → Work κ ν α) : Work κ ν α
  | clear {α : Type} (next : Work κ ν α) : Work κ ν α
  | size {α : Type} (next : Nat → Work κ ν α) : Work κ ν α
  | ask {α : Type} (k : κ) (lookup : Work κ ν ν) (next : ν → Work κ ν α) : Work κ ν α

/-- A question that was answered: the memo it met, what its lookup found and the memo that the
lookup left, if it ran, and the answer with the memo behind it. -/
structure Call (κ ν : Type) where
  key : κ
  before : Memo κ ν
  lookup : Option (ν × Memo κ ν)
  value : ν
  after : Memo κ ν

/-- What was done to a memo. -/
inductive Event (κ ν : Type)
  | got (k : κ) (found : Option ν)
  | inserted (k : κ) (v : ν)
  | forgot (k : κ) (dropped : Option ν)
  | cleared
  | sized (n : Nat)
  | asked (c : Call κ ν)

/-- What work ends with: its result, the memo it leaves, and all that was done, by lookups too, in
the order in which it was over. -/
structure Outcome (κ ν α : Type) where
  result : α
  memo : Memo κ ν
  events : List (Event κ ν)

variable {κ ν α : Type} [DecidableEq κ]

def Call.of (m : Memo κ ν) (k : κ) (lookup : Memo κ ν → ν × Memo κ ν) : Call κ ν :=
  let answer := m.ask k lookup
  ⟨k, m, if answer.ran then some (lookup m) else none, answer.value, answer.memo⟩

def Outcome.behind (es : List (Event κ ν)) (o : Outcome κ ν α) : Outcome κ ν α :=
  { o with events := es ++ o.events }

def Work.run {α : Type} : Work κ ν α → Memo κ ν → Outcome κ ν α
  | .done a, m => ⟨a, m, []⟩
  | .get k next, m => ((next (m.get? k)).run m).behind [.got k (m.get? k)]
  | .insert k v next, m => (next.run (m.insert k v)).behind [.inserted k v]
  | .forget k next, m =>
    ((next (m.forget k).1).run (m.forget k).2).behind [.forgot k (m.forget k).1]
  | .clear next, _ => (next.run Keyed.empty).behind [.cleared]
  | .size next, m => ((next m.size).run m).behind [.sized m.size]
  | .ask k lookup next, m =>
    let c := Call.of m k fun left => ((lookup.run left).result, (lookup.run left).memo)
    let inner := if c.lookup.isSome then (lookup.run m).events else []
    ((next c.value).run c.after).behind (inner ++ [.asked c])

/-! ### One question -/

/-- The lookup of a question runs just where the memo has no value for it. A value that the memo
has when the lookup is over is the answer, or else what the lookup found, which the memo keeps
then. Nothing else is changed. -/
structure Call.Coherent (c : Call κ ν) : Prop where
  ran_iff : c.lookup.isSome = true ↔ c.before.get? c.key = none
  answered : c.after.get? c.key = some c.value
  unchanged : c.lookup = none → c.after = c.before
  present : ∀ v left w, c.lookup = some (v, left) → left.get? c.key = some w →
    c.value = w ∧ c.after = left
  absent : ∀ v left, c.lookup = some (v, left) → left.get? c.key = none → c.value = v
  others : ∀ v left j, c.lookup = some (v, left) → j ≠ c.key → c.after.get? j = left.get? j

section Of

variable {m : Memo κ ν} {k : κ} {lookup : Memo κ ν → ν × Memo κ ν}

theorem Call.of_hit {v : ν} (h : m.get? k = some v) :
    Call.of m k lookup = ⟨k, m, none, v, m⟩ := by
  simp [Call.of, ask, h]

/-- The lookup left a value of its own. -/
theorem Call.of_filled {w : ν} (h : m.get? k = none) (hl : (lookup m).2.get? k = some w) :
    Call.of m k lookup = ⟨k, m, some (lookup m), w, (lookup m).2⟩ := by
  simp [Call.of, ask, h, hl]

theorem Call.of_missed (h : m.get? k = none) (hl : (lookup m).2.get? k = none) :
    Call.of m k lookup =
      ⟨k, m, some (lookup m), (lookup m).1, (lookup m).2.insert k (lookup m).1⟩ := by
  simp [Call.of, ask, h, hl]

theorem Call.coherent_of (m : Memo κ ν) (k : κ) (lookup : Memo κ ν → ν × Memo κ ν) :
    (Call.of m k lookup).Coherent := by
  cases h : m.get? k with
  | some v =>
    rw [Call.of_hit h]
    refine ⟨by simp [h], h, fun _ => rfl, ?_, ?_, ?_⟩
    · intro v left w hl
      cases hl
    · intro v left hl
      cases hl
    · intro v left j hl
      cases hl
  | none =>
    cases hl : (lookup m).2.get? k with
    | some w =>
      rw [Call.of_filled h hl]
      refine ⟨by simp [h], hl, by simp, ?_, ?_, ?_⟩
      · intro v left u hleft hu
        obtain ⟨-, rfl⟩ := Prod.mk.inj (Option.some.inj hleft)
        exact ⟨Option.some.inj (hl.symm.trans hu), rfl⟩
      · intro v left hleft hnone
        obtain ⟨-, rfl⟩ := Prod.mk.inj (Option.some.inj hleft)
        cases hl.symm.trans hnone
      · intro v left j hleft hj
        obtain ⟨-, rfl⟩ := Prod.mk.inj (Option.some.inj hleft)
        rfl
    | none =>
      rw [Call.of_missed h hl]
      refine ⟨by simp [h], by simp [Keyed.get?_insert], by simp, ?_, ?_, ?_⟩
      · intro v left w hleft hw
        obtain ⟨-, rfl⟩ := Prod.mk.inj (Option.some.inj hleft)
        cases hl.symm.trans hw
      · intro v left hleft hnone
        exact (Prod.mk.inj (Option.some.inj hleft)).1
      · intro v left j hleft hj
        obtain ⟨-, rfl⟩ := Prod.mk.inj (Option.some.inj hleft)
        simp [Keyed.get?_insert, Ne.symm hj]

end Of

/-! ### The first value that is stored -/

/-- The value that a question stored. -/
def Call.stored? (c : Call κ ν) : Option ν :=
  match c.lookup with
  | some (v, left) => if (left.get? c.key).isNone then some v else none
  | none => none

/-- The value that was stored under `k`. -/
def Event.stored? (k : κ) : Event κ ν → Option ν
  | .inserted j v => if j = k then some v else none
  | .asked c => if c.key = k then c.stored? else none
  | _ => none

/-- Whether this may change the value of `k` without asking for it. -/
def Event.Disturbs (k : κ) : Event κ ν → Prop
  | .inserted j _ | .forgot j _ => j = k
  | .cleared => True
  | _ => False

instance (k : κ) (e : Event κ ν) : Decidable (e.Disturbs k) :=
  match e with
  | .inserted j _ | .forgot j _ => inferInstanceAs (Decidable (j = k))
  | .cleared => inferInstanceAs (Decidable True)
  | .got _ _ | .sized _ | .asked _ => inferInstanceAs (Decidable False)

/-- All questions for `k` had one answer: the value that was there before, or else the first that
was stored. It is there at the end too. -/
structure Agree (k : κ) (m : Memo κ ν) (es : List (Event κ ν)) (m' : Memo κ ν) : Prop where
  kept : m'.get? k = (m.get? k).or (es.findSome? (Event.stored? k))
  answers : ∀ c, .asked c ∈ es → c.key = k →
    some c.value = (m.get? k).or (es.findSome? (Event.stored? k))

namespace Agree

variable {k : κ} {m m' m'' : Memo κ ν} {es es' : List (Event κ ν)}

theorem nil (k : κ) (m : Memo κ ν) : Agree k m [] m := by
  refine ⟨by simp, ?_⟩
  intro c hc
  cases hc

theorem append (h : Agree k m es m') (h' : Agree k m' es' m'') : Agree k m (es ++ es') m'' := by
  -- once there is a value, what is done later does not enter into it
  have hvalue : (m'.get? k).or (es'.findSome? (Event.stored? k)) =
      (m.get? k).or ((es ++ es').findSome? (Event.stored? k)) := by
    rw [h.kept, List.findSome?_append, Option.or_assoc]
  refine ⟨h'.kept.trans hvalue, ?_⟩
  intro c hc hk
  rcases List.mem_append.mp hc with hc | hc
  · rw [List.findSome?_append, ← Option.or_assoc, ← h.answers c hc hk, Option.some_or]
  · exact (h'.answers c hc hk).trans hvalue

/-- What neither stores under `k` nor asks leaves the value of `k` alone. -/
theorem single {e : Event κ ν} (hkept : m'.get? k = m.get? k) (hstored : e.stored? k = none)
    (hasked : ∀ c, e ≠ .asked c) : Agree k m [e] m' := by
  refine ⟨by simp [hkept, hstored], ?_⟩
  intro c hc
  exact absurd (List.mem_singleton.mp hc).symm (hasked c)

theorem asked {c : Call κ ν} (hc : c.Coherent)
    (hkept : c.after.get? k = (m.get? k).or ((Event.asked c).stored? k)) :
    Agree k m [.asked c] c.after := by
  have hvalue : c.after.get? k = (m.get? k).or ([.asked c].findSome? (Event.stored? k)) := by
    simpa using hkept
  refine ⟨hvalue, ?_⟩
  intro d hd hk
  obtain rfl : d = c := by simpa using hd
  rw [← hvalue, ← hk, hc.answered]

/-- A question keeps to the value that there is or that its lookup stored, and if there is none
it stores the first. -/
theorem of_lookup {j : κ} {lookup : Memo κ ν → ν × Memo κ ν}
    (h : m.get? j = none → Agree k m es (lookup m).2) :
    Agree k m ((if (Call.of m j lookup).lookup.isSome then es else []) ++
      [.asked (Call.of m j lookup)]) (Call.of m j lookup).after := by
  have hc := Call.coherent_of m j lookup
  cases hj : m.get? j with
  | some v =>
    rw [Call.of_hit hj] at hc ⊢
    apply asked hc
    simp [Event.stored?, Call.stored?]
  | none =>
    cases hl : (lookup m).2.get? j with
    | some w =>
      rw [Call.of_filled hj hl] at hc ⊢
      apply (h hj).append
      apply asked hc
      simp [Event.stored?, Call.stored?, hl]
    | none =>
      rw [Call.of_missed hj hl] at hc ⊢
      apply (h hj).append
      apply asked hc
      by_cases hk : j = k
      · subst hk
        simp [Event.stored?, Call.stored?, Keyed.get?_insert, hl]
      · simp [Event.stored?, Keyed.get?_insert, hk]

end Agree

/-! ### A whole run -/

namespace Work

theorem coherent_of_asked (w : Work κ ν α) (m : Memo κ ν) {c : Call κ ν}
    (hc : .asked c ∈ (w.run m).events) : c.Coherent := by
  induction w generalizing m with
  | done a => cases hc
  | get k next ih =>
    rcases List.mem_cons.mp hc with hc | hc
    · cases hc
    · exact ih _ _ hc
  | insert k v next ih =>
    rcases List.mem_cons.mp hc with hc | hc
    · cases hc
    · exact ih _ hc
  | forget k next ih =>
    rcases List.mem_cons.mp hc with hc | hc
    · cases hc
    · exact ih _ _ hc
  | clear next ih =>
    rcases List.mem_cons.mp hc with hc | hc
    · cases hc
    · exact ih _ hc
  | size next ih =>
    rcases List.mem_cons.mp hc with hc | hc
    · cases hc
    · exact ih _ _ hc
  | ask k lookup next ihl ih =>
    rcases List.mem_append.mp hc with hc | hc
    · rcases List.mem_append.mp hc with hc | hc
      · split at hc
        · exact ihl _ hc
        · cases hc
      · obtain rfl := Event.asked.inj (List.mem_singleton.mp hc)
        exact Call.coherent_of _ _ _
    · exact ih _ _ hc

theorem agree_run (w : Work κ ν α) (m : Memo κ ν) {k : κ}
    (h : ∀ e ∈ (w.run m).events, ¬e.Disturbs k) : Agree k m (w.run m).events (w.run m).memo := by
  induction w generalizing m with
  | done a => exact Agree.nil k m
  | get j next ih =>
    obtain ⟨-, hrest⟩ := List.forall_mem_cons.mp h
    have hstep : Agree k m [.got j (m.get? j)] m := .single rfl rfl (by simp)
    exact hstep.append (ih _ m hrest)
  | insert j v next ih =>
    obtain ⟨hj, hrest⟩ := List.forall_mem_cons.mp h
    have hj : j ≠ k := hj
    have hstep : Agree k m [.inserted j v] (m.insert j v) :=
      .single (by simp [Keyed.get?_insert, hj]) (by simp [Event.stored?, hj]) (by simp)
    exact hstep.append (ih _ hrest)
  | forget j next ih =>
    obtain ⟨hj, hrest⟩ := List.forall_mem_cons.mp h
    have hj : j ≠ k := hj
    have hstep : Agree k m [.forgot j (m.forget j).1] (m.forget j).2 :=
      .single (by simp [Memo.forget, Keyed.get?_erase, hj]) rfl (by simp)
    exact hstep.append (ih _ _ hrest)
  | clear next ih =>
    obtain ⟨hclear, -⟩ := List.forall_mem_cons.mp h
    exact absurd trivial hclear
  | size next ih =>
    obtain ⟨-, hrest⟩ := List.forall_mem_cons.mp h
    have hstep : Agree k m [.sized m.size] m := .single rfl rfl (by simp)
    exact hstep.append (ih _ m hrest)
  | ask j lookup next ihl ih =>
    obtain ⟨hask, hrest⟩ := List.forall_mem_append.mp h
    refine Agree.append (Agree.of_lookup fun hnone => ihl m ?_) (ih _ _ hrest)
    -- the lookup ran, so what it did is part of the run
    intro e he
    apply hask
    apply List.mem_append_left
    rwa [if_pos ((Call.coherent_of m j _).ran_iff.mpr hnone)]

/-- Lookups may ask the memo that they are run for, at any depth: each question is answered by
what the memo has when its lookup is over. Where nothing else is stored under a key and nothing
is dropped, all questions for it have one answer, the first that was stored. -/
theorem run_coherent (w : Work κ ν α) (m : Memo κ ν) :
    (∀ c, .asked c ∈ (w.run m).events → c.Coherent) ∧
    ∀ k, (∀ e ∈ (w.run m).events, ¬e.Disturbs k) →
      ∀ c, .asked c ∈ (w.run m).events → c.key = k →
        some c.value = (m.get? k).or ((w.run m).events.findSome? (Event.stored? k)) := by
  refine ⟨fun c hc => coherent_of_asked w m hc, ?_⟩
  intro k h c hc hk
  exact (agree_run w m h).answers c hc hk

/-- Asks for 1 while it looks 1 up, and once more when it knows. -/
def nested : Work Nat Nat (Nat × Nat) :=
  .ask 1 (.ask 1 (.insert 2 20 (.done 10)) fun v => .done (v + 1)) fun v =>
    .ask 1 (.done 99) fun u => .done (v, u)

/-- The outer lookup finds 11, but by then the inner one has stored 10. -/
theorem run_coherent_nested :
    ∃ c, .asked c ∈ (nested.run Keyed.empty).events ∧ c.key = 1 ∧
      c.lookup.map Prod.fst = some 11 ∧ c.Coherent ∧ some c.value = some 10 := by
  let left : Memo Nat Nat := ⟨[(2, 20), (1, 10)], by decide⟩
  let outer : Call Nat Nat := ⟨1, Keyed.empty, some (11, left), 10, left⟩
  have hmem : .asked outer ∈ (nested.run Keyed.empty).events :=
    List.mem_of_getElem? (i := 2) rfl
  have hleft : ∀ e ∈ (nested.run Keyed.empty).events, ¬e.Disturbs 1 := by
    decide
  obtain ⟨hcoherent, hfirst⟩ := nested.run_coherent Keyed.empty
  exact ⟨outer, hmem, rfl, rfl, hcoherent outer hmem, hfirst 1 hleft outer hmem rfl⟩

end Work

end Memo

end WhereFilter
