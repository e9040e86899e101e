import WhereFilter.Proofs.Rule.Gate

namespace WhereFilter

namespace Bindings

/-- What is done to bindings: a name is given a value, or other pairs take the place of all that
was bound. -/
inductive Change
  | bind (name : Text) (v : Value)
  | replace (pairs : List (Text × Value))
  deriving DecidableEq

def Change.apply (b : Bindings) : Change → Bindings
  | .bind name v => b.insert name v
  | .replace pairs => .ofList pairs

/-- The pairs that count behind a change, in the order in which they were given. -/
def Change.log (es : List (Text × Value)) : Change → List (Text × Value)
  | .bind name v => es ++ [(name, v)]
  | .replace pairs => pairs

def after (cs : List Change) : Bindings :=
  cs.foldl Change.apply .empty

def sinceReplaced (cs : List Change) : List (Text × Value) :=
  cs.foldl Change.log []

/-- Each name has the value that it was given last. -/
def Holds (b : Bindings) (es : List (Text × Value)) : Prop :=
  ∀ k, b.get? k = latest k es

theorem Holds.apply {b : Bindings} {es : List (Text × Value)} (h : b.Holds es) (c : Change) :
    (c.apply b).Holds (c.log es) := by
  intro k
  cases c with
  | bind n v =>
    rw [Change.log, latest_concat, ← h k]
    exact Keyed.get?_insert b k n v
  | replace pairs => exact get?_ofList pairs k

theorem holds_after (cs : List Change) : (after cs).Holds (sinceReplaced cs) := by
  induction cs using List.reverseRecOn with
  | nil => exact fun _ => rfl
  | append_singleton cs c ih =>
    rw [after, sinceReplaced, List.foldl_concat, List.foldl_concat]
    exact ih.apply c

theorem Holds.lookup? {b : Bindings} {es : List (Text × Value)} (h : b.Holds es) (n : Text) :
    b.lookup? n = (latest (bareName n) es).or (latest ('#' :: bareName n) es) := by
  rw [Bindings.lookup?, h, h]

theorem Holds.size {b : Bindings} {es : List (Text × Value)} (h : b.Holds es) :
    b.size = (es.map Prod.fst).toFinset.card := by
  have hkeys : (b.entries.map Prod.fst).toFinset = (es.map Prod.fst).toFinset := by
    ext k
    have hk : k ∉ b.entries.map Prod.fst ↔ k ∉ es.map Prod.fst := by
      rw [← find?_eq_none, ← latest_eq_none, ← h k]
      rfl
    rw [List.mem_toFinset, List.mem_toFinset]
    exact not_iff_not.mp hk
  rw [← hkeys, List.toFinset_card_of_nodup b.distinct, List.length_map]
  rfl

end Bindings

namespace Placeholder

/-- The name as it is spelled in a rule. -/
def spelled (p : Placeholder) : Text :=
  (if p.hashed then ['#'] else []) ++ p.name

theorem lookup?_spelled (b : Bindings) {p : Placeholder} (hp : IsName p.name) :
    b.lookup? p.spelled = b.lookup? p.name := by
  have hbare : bareName p.spelled = bareName p.name := by
    cases hh : p.hashed with
    | true => simp [spelled, hh, bareName_hash, bareName_of_isName hp]
    | false => simp [spelled, hh]
  rw [Bindings.lookup?, Bindings.lookup?, hbare]

theorem isName_of_mem_hits {p : Placeholder} {s : Text} (h : p ∈ pattern.hits s) : IsName p.name :=
  isName_of_mem_names (List.mem_map_of_mem h)

theorem hits_text {p : Placeholder} (hp : IsName p.name) : pattern.hits p.text = [p] := by
  have hs := segments_text hp []
  rw [List.append_nil] at hs
  simp [Pattern.hits, hs]

theorem checkBound_eq_find? (b : Bindings) (rule : Text) :
    checkBound b rule = ((pattern.hits rule).find? fun p => !b.binds p.spelled).elim (.ok ())
      fun p => .error (.unbound p.name) := by
  have hfind : (names rule).find? (fun n => !b.binds n) =
      ((pattern.hits rule).find? fun p => !b.binds p.spelled).map name := by
    rw [names, List.find?_map]
    congr 1
    apply List.find?_congr
    intro p hp
    rw [Function.comp_apply, Bindings.binds, Bindings.binds,
      lookup?_spelled b (isName_of_mem_hits hp)]
  rw [checkBound, hfind]
  cases (pattern.hits rule).find? fun p => !b.binds p.spelled <;> rfl

theorem fill_eq_replace (b : Bindings) (render : Value → Text) (s : Text) :
    fill b render s = pattern.replace (fun p => (b.lookup? p.spelled).elim p.text render) s := by
  rw [fill, Pattern.replace, Pattern.replace, Pattern.render, Pattern.render]
  apply List.flatMap_congr
  intro g hg
  cases g with
  | item c => rfl
  | hit p =>
    have hp : IsName p.name := isName_of_mem_names (mem_names.mpr ⟨p, hg, rfl⟩)
    simp only [lookup?_spelled b hp]
    cases b.lookup? p.name <;> rfl

theorem checkBound_text (b : Bindings) {p : Placeholder} (hp : IsName p.name) :
    checkBound b p.text =
      if b.binds p.spelled then .ok () else .error (.unbound p.name) := by
  rw [checkBound_eq_find?, hits_text hp]
  cases hb : b.binds p.spelled <;> simp [hb]

theorem fill_eq_elim (b : Bindings) (render : Value → Text) {p : Placeholder}
    (hp : IsName p.name) : fill b render p.text = (b.lookup? p.spelled).elim p.text render := by
  have hs := segments_text hp []
  rw [List.append_nil] at hs
  rw [fill_eq_replace, Pattern.replace_of_hit hs]
  exact List.append_nil _

end Placeholder

open Placeholder (IsName pattern fill)

/-- Whatever was bound and replaced, a name has the value that its bare form was given last since
everything was replaced, or else the one that was given last to the bare form with a `#`. There are
as many bindings as names were given. The gate and the filling find for each placeholder of a rule
what a lookup of the name finds as it is spelled there, and the `#` makes no difference to it. -/
theorem Bindings.after_agrees (cs : List Change) :
    (∀ n, (after cs).lookup? n =
        (latest (bareName n) (sinceReplaced cs)).or
          (latest ('#' :: bareName n) (sinceReplaced cs)) ∧
      (after cs).binds n = ((after cs).lookup? n).isSome) ∧
    (after cs).size = ((sinceReplaced cs).map Prod.fst).toFinset.card ∧
    (∀ rule, checkBound (after cs) rule =
      ((pattern.hits rule).find? fun p => !(after cs).binds p.spelled).elim (.ok ())
        fun p => .error (.unbound p.name)) ∧
    (∀ render rule, fill (after cs) render rule =
      pattern.replace (fun p => ((after cs).lookup? p.spelled).elim p.text render) rule) ∧
    ∀ p : Placeholder, IsName p.name →
      checkBound (after cs) p.text =
        (if (after cs).binds p.spelled then .ok () else .error (.unbound p.name)) ∧
      (∀ render, fill (after cs) render p.text =
        ((after cs).lookup? p.spelled).elim p.text render) ∧
      (after cs).lookup? p.spelled = (after cs).lookup? p.name := by
  have h := holds_after cs
  refine ⟨fun n => ⟨h.lookup? n, rfl⟩, h.size, Placeholder.checkBound_eq_find? _,
    Placeholder.fill_eq_replace _, fun p hp => ?_⟩
  exact ⟨Placeholder.checkBound_text _ hp, fun render => Placeholder.fill_eq_elim _ render hp,
    Placeholder.lookup?_spelled _ hp⟩

/-- What was bound first is gone. The name with one `#` hides the one with two, which is found
only with a third. -/
theorem Bindings.after_agrees_replaced :
    ∃ cs : List Change, cs = [.bind "Y".toList (.yesNo true),
      .replace [("#Y".toList, .text "a".toList), ("##Y".toList, .text "b".toList)],
      .bind "#Y".toList (.text "c".toList)] ∧
    (after cs).lookup? "Y".toList = some (.text "c".toList) ∧
    (after cs).lookup? "##Y".toList = some (.text "c".toList) ∧
    (after cs).lookup? "###Y".toList = some (.text "b".toList) ∧
    (after cs).size = 2 ∧ IsName "Y".toList ∧ checkBound (after cs) "@#Y@".toList = .ok () ∧
    fill (after cs) Value.operand "@#Y@".toList = "'c'".toList := by
  have hname : IsName "Y".toList := ⟨List.cons_ne_nil _ _, List.forall_mem_singleton.mpr rfl⟩
  refine ⟨_, rfl, ?_⟩
  obtain ⟨hlookup, hsize, -, -, hword⟩ := after_agrees [.bind "Y".toList (.yesNo true),
      .replace [("#Y".toList, .text "a".toList), ("##Y".toList, .text "b".toList)],
      .bind "#Y".toList (.text "c".toList)]
  obtain ⟨hgate, hfill, -⟩ := hword ⟨true, "Y".toList⟩ hname
  refine ⟨(hlookup _).1.trans (by cbv), (hlookup _).1.trans (by cbv),
    (hlookup _).1.trans (by cbv), hsize.trans (by decide), hname, hgate.trans (by cbv),
    (hfill _).trans (by cbv)⟩

end WhereFilter
