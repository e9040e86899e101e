import WhereFilter.Proofs.Reading.Printed
import WhereFilter.Proofs.Token.Fit
import WhereFilter.Rule.Verdict

namespace WhereFilter

namespace Reading

/-- Whether a reading holds, where `v` says which token sequences do. -/
def truth (v : List Token → Bool) : Reading → Bool
  | .atom ls => v (ls.map Lexeme.token)
  | .marker holds => holds
  | .group r => r.truth v
  | .either l r => l.truth v || r.truth v
  | .both l r => l.truth v && r.truth v

/-- No piece is a marker, in groups neither. -/
def MarkerFree : Reading → Prop
  | .atom _ => True
  | .marker _ => False
  | .group r => r.MarkerFree
  | .either l r => l.MarkerFree ∧ r.MarkerFree
  | .both l r => l.MarkerFree ∧ r.MarkerFree

@[simp] theorem truth_bare (v : List Token → Bool) (r : Reading) : r.bare.truth v = r.truth v := by
  induction r with
  | atom ls => simp [bare, truth, Lexeme.bare, Function.comp_def]
  | marker holds => rfl
  | group r ih => exact ih
  | either l r ihl ihr => simp [bare, truth, ihl, ihr]
  | both l r ihl ihr => simp [bare, truth, ihl, ihr]

@[simp] theorem markerFree_bare (r : Reading) : r.bare.MarkerFree ↔ r.MarkerFree := by
  induction r with
  | atom ls => exact Iff.rfl
  | marker holds => exact Iff.rfl
  | group r ih => exact ih
  | either l r ihl ihr => exact and_congr ihl ihr
  | both l r ihl ihr => exact and_congr ihl ihr

/-- What holds if one of two readings does. -/
def anyOf : Reading → Reading → Reading
  | .marker true, _ => .marker true
  | _, .marker true => .marker true
  | .marker false, r => r
  | l, .marker false => l
  | l, r => .either l r

/-- What holds if both of two readings do. -/
def allOf : Reading → Reading → Reading
  | .marker false, _ => .marker false
  | _, .marker false => .marker false
  | .marker true, r => r
  | l, .marker true => l
  | l, r => .both l r

/-- Parentheses around connectives only. -/
def wrapped : Reading → Reading
  | .either l r => .group (.either l r)
  | .both l r => .group (.both l r)
  | r => r

/-- A reading with its markers taken out: a single marker, or none at all. -/
def folded : Reading → Reading
  | .atom ls => .atom ls
  | .marker holds => .marker holds
  | .group r => r.folded.wrapped
  | .either l r => l.folded.anyOf r.folded
  | .both l r => l.folded.allOf r.folded

theorem truth_anyOf (v : List Token → Bool) (l r : Reading) :
    (l.anyOf r).truth v = (l.truth v || r.truth v) := by
  unfold anyOf
  split <;> simp [truth]

theorem truth_allOf (v : List Token → Bool) (l r : Reading) :
    (l.allOf r).truth v = (l.truth v && r.truth v) := by
  unfold allOf
  split <;> simp [truth]

theorem truth_wrapped (v : List Token → Bool) (r : Reading) : r.wrapped.truth v = r.truth v := by
  cases r <;> rfl

theorem truth_folded (v : List Token → Bool) (r : Reading) : r.folded.truth v = r.truth v := by
  induction r with
  | atom ls => rfl
  | marker holds => rfl
  | group r ih => rw [folded, truth_wrapped, ih, truth]
  | either l r ihl ihr => rw [folded, truth_anyOf, ihl, ihr, truth]
  | both l r ihl ihr => rw [folded, truth_allOf, ihl, ihr, truth]

/-- A marker is left only where nothing else is. -/
def Settled (r : Reading) : Prop :=
  r = .marker true ∨ r = .marker false ∨ r.MarkerFree

theorem anyOf_of_markerFree {l r : Reading} (hl : l.MarkerFree) (hr : r.MarkerFree) :
    l.anyOf r = .either l r := by
  cases l <;> cases r <;> first | rfl | exact hl.elim | exact hr.elim

theorem allOf_of_markerFree {l r : Reading} (hl : l.MarkerFree) (hr : r.MarkerFree) :
    l.allOf r = .both l r := by
  cases l <;> cases r <;> first | rfl | exact hl.elim | exact hr.elim

theorem anyOf_cases {l r : Reading} (hl : l.Settled) (hr : r.Settled) :
    l.anyOf r = .marker true ∨ l.anyOf r = r ∨ l.anyOf r = l ∨
      (l.MarkerFree ∧ r.MarkerFree ∧ l.anyOf r = .either l r) := by
  rcases hl with rfl | rfl | hl
  · exact .inl rfl
  · right; left
    rcases hr with rfl | rfl | hr
    · rfl
    · rfl
    · cases r <;> first | rfl | cases hr
  · rcases hr with rfl | rfl | hr
    · left
      cases l <;> first | rfl | cases hl
    · right; right; left
      cases l <;> first | rfl | cases hl
    · exact .inr (.inr (.inr ⟨hl, hr, anyOf_of_markerFree hl hr⟩))

theorem allOf_cases {l r : Reading} (hl : l.Settled) (hr : r.Settled) :
    l.allOf r = .marker false ∨ l.allOf r = r ∨ l.allOf r = l ∨
      (l.MarkerFree ∧ r.MarkerFree ∧ l.allOf r = .both l r) := by
  rcases hl with rfl | rfl | hl
  · right; left
    rcases hr with rfl | rfl | hr
    · rfl
    · rfl
    · cases r <;> first | rfl | cases hr
  · exact .inl rfl
  · rcases hr with rfl | rfl | hr
    · right; right; left
      cases l <;> first | rfl | cases hl
    · left
      cases l <;> first | rfl | cases hl
    · exact .inr (.inr (.inr ⟨hl, hr, allOf_of_markerFree hl hr⟩))

theorem settled_folded (r : Reading) : r.folded.Settled := by
  induction r with
  | atom ls => exact .inr (.inr trivial)
  | marker holds => cases holds <;> simp [folded, Settled]
  | group r ih =>
    rw [folded]
    rcases ih with h | h | h
    · rw [h]; exact .inl rfl
    · rw [h]; exact .inr (.inl rfl)
    · right; right
      cases hr : r.folded <;> rw [hr] at h <;> exact h
  | either l r ihl ihr =>
    rw [folded]
    rcases anyOf_cases ihl ihr with h | h | h | ⟨hl, hr, h⟩ <;> rw [h]
    · exact .inl rfl
    · exact ihr
    · exact ihl
    · exact .inr (.inr ⟨hl, hr⟩)
  | both l r ihl ihr =>
    rw [folded]
    rcases allOf_cases ihl ihr with h | h | h | ⟨hl, hr, h⟩ <;> rw [h]
    · exact .inr (.inl rfl)
    · exact ihr
    · exact ihl
    · exact .inr (.inr ⟨hl, hr⟩)

theorem Printed.mono {p q : Place} {k : Rank} {r : Reading} (h : Printed p k r)
    (hpq : ∀ ls, p.Admits ls → q.Admits ls)
    (hleft : ∀ ls, p.left.Admits ls → q.left.Admits ls) : Printed q k r := by
  have left_left (p : Place) : p.left.left = p.left := by cases p <;> rfl
  induction h generalizing q with
  | atom ha hp => exact .atom ha (hpq _ hp)
  | marker => exact .marker
  | group h _ => exact .group h
  | both _ _ ihl ihr =>
    exact .both (ihl hleft (by simpa [left_left] using hleft)) (ihr hpq hleft)
  | either _ _ ihl ihr =>
    exact .either (ihl hleft (by simpa [left_left] using hleft)) (ihr hpq hleft)
  | part _ ih => exact .part (ih hpq hleft)
  | whole _ ih => exact .whole (ih hpq hleft)

/-- What stands before a connective may stand behind it. -/
theorem Printed.of_left {p : Place} {k : Rank} {r : Reading} (h : Printed p.left k r) :
    Printed p k r := by
  cases p with
  | inner => exact h
  | before => exact h
  | last => exact h.mono (fun _ _ => trivial) (fun _ h => h)

/-- What stands in parentheses may stand without. -/
theorem Printed.of_inner {p : Place} {k : Rank} {r : Reading} (h : Printed .inner k r) :
    Printed p k r := by
  cases p with
  | inner => exact h
  | before => exact h.mono (fun _ => depthAfter_of_height) (fun _ => depthAfter_of_height)
  | last => exact h.mono (fun _ _ => trivial) (fun _ => depthAfter_of_height)

theorem Printed.wrapped {p : Place} {r : Reading} (h : Printed .inner .whole r) :
    Printed p .piece r.wrapped := by
  cases h with
  | either hl hr => exact .group (.either hl hr)
  | whole h =>
    cases h with
    | both hl hr => exact .group (.whole (.both hl hr))
    | part h => cases h with
      | atom ha hp => exact (Printed.atom ha hp).of_inner
      | marker => exact .marker
      | group h => exact .group h

theorem Printed.folded {p : Place} {k : Rank} {r : Reading} (h : Printed p k r) :
    Printed p k r.folded := by
  induction h with
  | atom ha hp => exact .atom ha hp
  | marker => exact .marker
  | group _ ih => exact ih.wrapped
  | @both p l r _ _ ihl ihr =>
    rw [Reading.folded]
    rcases allOf_cases (settled_folded l) (settled_folded r) with h | h | h | ⟨_, _, h⟩ <;> rw [h]
    · exact .part .marker
    · exact ihr
    · exact .part ihl.of_left
    · exact .both ihl ihr
  | @either p l r _ _ ihl ihr =>
    rw [Reading.folded]
    rcases anyOf_cases (settled_folded l) (settled_folded r) with h | h | h | ⟨_, _, h⟩ <;> rw [h]
    · exact .whole (.part .marker)
    · exact ihr
    · exact .whole ihl.of_left
    · exact .either ihl ihr
  | part _ ih => exact .part ih
  | whole _ ih => exact .whole ih

/-- The text that a reading is written as. -/
def text : Reading → Text
  | .atom ls => slice ls
  | .marker holds => if holds then "1 eq 1".toList else "1 eq 0".toList
  | .group r => '(' :: r.text ++ [')']
  | .either l r => l.text ++ " or ".toList ++ r.text
  | .both l r => l.text ++ " and ".toList ++ r.text

def isCompound : Reading → Bool
  | .either _ _ | .both _ _ => true
  | _ => false

/-- What is left of a text that has been folded to this. -/
def outcome : Reading → Verdict
  | .marker true => .always
  | .marker false => .never
  | r => .filter r.text r.isCompound

theorem outcome_of_markerFree {r : Reading} (h : r.MarkerFree) :
    r.outcome = .filter r.text r.isCompound := by
  cases r <;> first | rfl | cases h

theorem outcome_anyOf (l r : Reading) : (l.anyOf r).outcome = l.outcome.either r.outcome := by
  rcases l with _ | (_ | _) | _ | _ | _ <;> rcases r with _ | (_ | _) | _ | _ | _ <;> rfl

theorem outcome_allOf (l r : Reading) : (l.allOf r).outcome = l.outcome.both r.outcome := by
  rcases l with _ | (_ | _) | _ | _ | _ <;> rcases r with _ | (_ | _) | _ | _ | _ <;> rfl

theorem outcome_wrapped (r : Reading) : r.wrapped.outcome = r.outcome.group := by
  rcases r with _ | (_ | _) | _ | _ | _ <;> rfl

theorem verdict_eq_outcome (r : Reading) : r.verdict = r.folded.outcome := by
  induction r with
  | atom ls => rfl
  | marker holds => cases holds <;> rfl
  | group r ih => rw [verdict, ih, folded, outcome_wrapped]
  | either l r ihl ihr => rw [verdict, ihl, ihr, folded, outcome_anyOf]
  | both l r ihl ihr => rw [verdict, ihl, ihr, folded, outcome_allOf]

def atoms : Reading → List (List Lexeme)
  | .atom ls => [ls]
  | .marker _ => []
  | .group r => r.atoms
  | .either l r | .both l r => l.atoms ++ r.atoms

theorem atoms_anyOf (l r : Reading) : (l.anyOf r).atoms ⊆ l.atoms ++ r.atoms := by
  unfold anyOf
  split <;> simp [atoms]

theorem atoms_allOf (l r : Reading) : (l.allOf r).atoms ⊆ l.atoms ++ r.atoms := by
  unfold allOf
  split <;> simp [atoms]

theorem atoms_wrapped (r : Reading) : r.wrapped.atoms = r.atoms := by
  cases r <;> rfl

/-- Folding invents no atom. -/
theorem atoms_folded (r : Reading) : r.folded.atoms ⊆ r.atoms := by
  induction r with
  | atom ls => exact fun _ h => h
  | marker holds => exact fun _ h => h
  | group r ih =>
    rw [folded, atoms_wrapped]
    exact ih
  | either l r ihl ihr =>
    intro a ha
    rcases List.mem_append.mp (atoms_anyOf _ _ ha) with h | h
    · exact List.mem_append_left _ (ihl h)
    · exact List.mem_append_right _ (ihr h)
  | both l r ihl ihr =>
    intro a ha
    rcases List.mem_append.mp (atoms_allOf _ _ ha) with h | h
    · exact List.mem_append_left _ (ihl h)
    · exact List.mem_append_right _ (ihr h)

end Reading

end WhereFilter
