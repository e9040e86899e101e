import WhereFilter.Proofs.Context.Bindings
import WhereFilter.Proofs.Number.Numeral
import WhereFilter.Proofs.Rule.Placeholder
import WhereFilter.Proofs.Token.Alike

namespace WhereFilter

open Token

namespace Placeholder

/-- What a placeholder is written as. -/
def written (b : Bindings) (render : Value → Text) (p : Placeholder) : Text :=
  match b.lookup? p.name with
  | some v => render v
  | none => p.text

/-- What a stretch of segments is written as. -/
def write (b : Bindings) (render : Value → Text) : List (Segment Char Placeholder) → Text
  | [] => []
  | .item c :: ss => c :: write b render ss
  | .hit p :: ss => written b render p ++ write b render ss

theorem fill_eq_write (b : Bindings) (render : Value → Text) (s : Text) :
    fill b render s = write b render (pattern.segments s) := by
  rw [fill, Pattern.replace, Pattern.render]
  induction pattern.segments s with
  | nil => rfl
  | cons g ss ih =>
    rw [List.flatMap_cons, ih]
    cases g <;> rfl

theorem fill_nil (b : Bindings) (render : Value → Text) : fill b render [] = [] := by
  rw [fill_eq_write, Pattern.segments_nil]
  rfl

theorem fill_text {b : Bindings} (render : Value → Text) {p : Placeholder} (hp : IsName p.name)
    {v : Value} (hv : b.lookup? p.name = some v) (s : Text) :
    fill b render (p.text ++ s) = render v ++ fill b render s := by
  rw [fill_eq_write, segments_text hp, write, written, hv, fill_eq_write]

theorem write_append (b : Bindings) (render : Value → Text)
    (ss ts : List (Segment Char Placeholder)) :
    write b render (ss ++ ts) = write b render ss ++ write b render ts := by
  induction ss with
  | nil => rfl
  | cons g ss ih => cases g <;> simp [write, ih]

theorem fill_barrier (b : Bindings) (render : Value → Text) (u : Text) {c : Char} (s : Text)
    (hc : isBarrier c = true) :
    fill b render (u ++ c :: s) = fill b render u ++ c :: fill b render s := by
  simp only [fill_eq_write, segments_barrier u s hc, write_append, write]

/-- The segments of a paired text: a pair stays together, since no placeholder has a quote. -/
inductive Woven (quote : Char) : List (Segment Char Placeholder) → Prop
  | nil : Woven quote []
  | pair {ss} (h : Woven quote ss) : Woven quote (.item quote :: .item quote :: ss)
  | plain {c ss} (hc : c ≠ quote) (h : Woven quote ss) : Woven quote (.item c :: ss)
  | hit {p ss} (hp : quote ∉ p.text) (h : Woven quote ss) : Woven quote (.hit p :: ss)

theorem paired_of_append {quote : Char} {a b : Text} (ha : quote ∉ a) (h : Paired quote (a ++ b)) :
    Paired quote b := by
  induction a with
  | nil => exact h
  | cons c a ih =>
    simp only [List.mem_cons, not_or] at ha
    exact ih ha.2 (h.of_cons (Ne.symm ha.1))

theorem woven_segments {quote : Char} (hq : isBarrier quote = true) {s : Text}
    (hs : Paired quote s) : Woven quote (pattern.segments s) := by
  induction hl : s.length using Nat.strongRecOn generalizing s with
  | _ n ih =>
    subst hl
    rcases segments_cases s with rfl | ⟨c, r, rfl, -, hg⟩ | ⟨p, r, rfl, hp, hg⟩
    · exact .nil
    · rw [hg]
      cases hs with
      | @pair r hs =>
        have hne : quote ≠ '@' := by
          rintro rfl
          cases hq
        rw [segments_cons hne]
        exact .pair (ih _ (by simp only [List.length_cons]; omega) hs rfl)
      | plain hc hs => exact .plain hc (ih _ (by simp) hs rfl)
    · have hname := barrier_not_mem_text hq (isName_of_pattern hp)
      have hlen := List.length_pos_iff.mpr (text_ne_nil p)
      rw [hg]
      exact .hit hname (ih _ (by simp; omega) (paired_of_append hname hs) rfl)

theorem Woven.paired_write {quote : Char} {b : Bindings} {render : Value → Text}
    {ss : List (Segment Char Placeholder)} (h : Woven quote ss)
    (hv : ∀ p v, .hit p ∈ ss → b.lookup? p.name = some v → Paired quote (render v)) :
    Paired quote (write b render ss) := by
  induction h with
  | nil => exact .nil
  | pair _ ih => exact .pair (ih fun p v hp => hv p v (by simp [hp]))
  | plain hc _ ih => exact .plain hc (ih fun p v hp => hv p v (by simp [hp]))
  | @hit p ss hp _ ih =>
    have hrest := ih fun p v hp => hv p v (by simp [hp])
    have hhead : Paired quote (written b render p) := by
      unfold written
      cases hl : b.lookup? p.name with
      | some v => exact hv p v (by simp) hl
      | none => exact .of_not_mem hp
    exact hhead.append hrest

end Placeholder

theorem Binary64.quote_not_mem_text (x : Binary64) : '\'' ∉ x.text := by
  match x with
  | .nan => decide
  | .infinite true => decide
  | .infinite false => decide
  | .finite negative m =>
    obtain ⟨n, hn, htext⟩ := Binary64.text_numeral negative m
    have hquote : '\'' ∉ n := by
      intro hm
      cases Token.isQuote_of_formed (t := ⟨.number, n⟩) hn (by simp) (by simp) _ hm
    rw [htext]
    split <;> simpa using hquote

/-- A value in a literal has its own quotes doubled. -/
theorem Value.paired_inLiteral (v : Value) : Paired '\'' v.inLiteral := by
  match v with
  | .yesNo true => exact .of_not_mem (by decide)
  | .yesNo false => exact .of_not_mem (by decide)
  | .number x => exact .of_not_mem x.quote_not_mem_text
  | .text t => exact paired_doubleQuotes t

namespace Placeholder

/-- A filled literal ends where the literal did. -/
theorem paired_fill_inLiteral (b : Bindings) {contents : Text} (h : Paired '\'' contents) :
    Paired '\'' (fill b Value.inLiteral contents) := by
  rw [fill_eq_write]
  exact (woven_segments rfl h).paired_write fun _ v _ _ => v.paired_inLiteral

/-- How many placeholders have a value. -/
def boundIn (b : Bindings) : List (Segment Char Placeholder) → Nat
  | [] => 0
  | .item _ :: ss => boundIn b ss
  | .hit p :: ss => (if b.binds p.name then 1 else 0) + boundIn b ss

theorem mem_names {n s : Text} : n ∈ names s ↔ ∃ p, .hit p ∈ pattern.segments s ∧ p.name = n := by
  simp only [names, Pattern.hits, List.mem_map, List.mem_filterMap]
  constructor
  · rintro ⟨p, ⟨g, hg, he⟩, rfl⟩
    cases g with
    | item a => cases he
    | hit q =>
      cases he
      exact ⟨p, hg, rfl⟩
  · rintro ⟨p, hp, rfl⟩
    exact ⟨p, ⟨_, hp, rfl⟩, rfl⟩

theorem boundIn_pos {b : Bindings} {ss : List (Segment Char Placeholder)} {p : Placeholder}
    (hp : .hit p ∈ ss) (hb : b.binds p.name = true) : 0 < boundIn b ss := by
  induction ss with
  | nil => cases hp
  | cons g ss ih =>
    rcases List.mem_cons.mp hp with rfl | hp
    · simp only [boundIn, hb, if_true]
      omega
    · have hpos := ih hp
      cases g with
      | item c => exact hpos
      | hit p =>
        simp only [boundIn]
        omega

end Placeholder

theorem Stretches.fill_cons (b : Bindings) (lead contents after : Text)
    (rest : List (Text × Text)) :
    fill b ⟨lead, (contents, after) :: rest⟩ =
      Placeholder.fill b Value.operand lead ++ ('\'' :: Placeholder.fill b Value.inLiteral contents ++
        '\'' :: fill b ⟨after, rest⟩) := by
  simp [fill]

end WhereFilter
