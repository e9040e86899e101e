import WhereFilter.Bytewise.Rewrite

namespace WhereFilter

namespace Bytewise

/-- The text from the first token of `range` to the last. -/
def textOf? (s : Text) (range : List Mark) : Option Text :=
  match range.head?, range.getLast? with
  | some first, some last => s.slice? first.start last.stop
  | _, _ => some []

def marker? (s : Text) : List Mark → Option (Option Bool)
  | [one, eq, other] => do
    if one.kind != .number then return none
    let t ← source? s one
    if t != ['1'] then return none
    let equal ← isWord? s eq "eq".toList
    if !equal || other.kind != .number then return none
    let t ← source? s other
    if t == ['1'] then return some true
    else if t == ['0'] then return some false
    else return none
  | _ => some none

/-- Whether three tokens in a row are a marker. -/
def hasMarker (s : Text) : List Mark → Option Bool
  | a :: b :: c :: ms => do
    let found ← marker? s [a, b, c]
    if found.isSome then return true
    hasMarker s (b :: c :: ms)
  | _ => some false

/-- Whether `m` cuts where `depth` parentheses are open. -/
def cuts? (s : Text) (w : Text) (m : Mark) (depth : Nat) : Option Bool :=
  if depth == 0 then isWord? s m w else some false

/-- The parts of `range` between the words `w` outside parentheses. What is read starts with
token `i`, where `depth` parentheses are open, and the part that `i` belongs to with `start`. -/
def partsFrom (s : Text) (w : Text) (range : List Mark) :
    List Mark → (i depth start : Nat) → Option (List (List Mark))
  | [], _, _, start => do
    let last ← part? range start range.length
    return [last]
  | m :: ms, i, depth, start =>
    match m.kind with
    | .parenLeft => partsFrom s w range ms (i + 1) (depth + 1) start
    | .parenRight => partsFrom s w range ms (i + 1) (depth - 1) start
    | _ => do
      let cut ← cuts? s w m depth
      if cut then
        let part ← part? range start i
        let parts ← partsFrom s w range ms (i + 1) depth (i + 1)
        return part :: parts
      else partsFrom s w range ms (i + 1) depth start

def parts (s : Text) (w : Text) (range : List Mark) : Option (List (List Mark)) :=
  partsFrom s w range range 0 0 0

/-- What comes before the parenthesis that closes the last of the `depth` that are open, if that
one is the last of `rest`. What is read starts with token `i`. -/
def untilCloseFrom (rest : List Mark) : List Mark → (i depth : Nat) → Option (Option (List Mark))
  | [], _, _ => some none
  | m :: ms, i, depth =>
    match m.kind with
    | .parenLeft => untilCloseFrom rest ms (i + 1) (depth + 1)
    | .parenRight => do
      let depth ← minus? depth 1
      if depth == 0 then
        let last ← minus? rest.length 1
        if i == last then
          let inner ← part? rest 0 i
          return some inner
        else return none
      else untilCloseFrom rest ms (i + 1) depth
    | _ => untilCloseFrom rest ms (i + 1) depth

/-- What stands in the parentheses around the whole of `range`. -/
def inside? (range : List Mark) : Option (Option (List Mark)) :=
  match range with
  | [] => some none
  | first :: rest => if first.kind != .parenLeft then some none else untilCloseFrom rest rest 0 1

/-- What the kept filters come to, with `joiner` between two; `empty` if there are none. -/
def chain (kept : List (Text × Bool)) (joiner : Text) (empty : Verdict) : Verdict :=
  match kept with
  | [] => empty
  | [(t, compound)] => .filter t compound
  | _ => .filter (joiner.intercalate (kept.map Prod.fst)) true

/-- The length of the longest of some parts. -/
def longest : List (List Mark) → Nat
  | [] => 0
  | p :: ps => max p.length (longest ps)

section

variable {s w : Text} {range part inner : List Mark} {found : List (List Mark)}

theorem length_of_part? {start stop : Nat} (h : part? range start stop = some part) :
    part.length ≤ range.length ∧ part.length = stop - start := by
  rw [part?] at h
  split at h
  · cases h
    simp only [List.length_take, List.length_drop]
    omega
  · cases h

theorem longest_of_partsFrom {ms : List Mark} {i depth start : Nat}
    (h : partsFrom s w range ms i depth start = some found) : longest found ≤ range.length := by
  induction ms generalizing i depth start found with
  | nil =>
    obtain ⟨last, hlast, h⟩ := Option.bind_eq_some_iff.mp h
    cases h
    simpa [longest] using (length_of_part? hlast).1
  | cons m ms ih =>
    simp only [partsFrom, Option.bind_eq_bind, Option.pure_def] at h
    split at h
    · exact ih h
    · exact ih h
    · obtain ⟨cut, -, h⟩ := Option.bind_eq_some_iff.mp h
      split at h
      · obtain ⟨part, hpart, h⟩ := Option.bind_eq_some_iff.mp h
        obtain ⟨parts, hparts, h⟩ := Option.bind_eq_some_iff.mp h
        cases h
        exact Nat.max_le.mpr ⟨(length_of_part? hpart).1, ih hparts⟩
      · exact ih h

/-- No part is longer than the whole. -/
theorem longest_of_parts (h : parts s w range = some found) : longest found ≤ range.length :=
  longest_of_partsFrom h

theorem length_of_untilCloseFrom {rest ms : List Mark} {i depth : Nat}
    (h : untilCloseFrom rest ms i depth = some (some inner)) : inner.length ≤ rest.length := by
  induction ms generalizing i depth with
  | nil => cases h
  | cons m ms ih =>
    simp only [untilCloseFrom, Option.bind_eq_bind, Option.pure_def] at h
    split at h
    · exact ih h
    · obtain ⟨depth, -, h⟩ := Option.bind_eq_some_iff.mp h
      split at h
      · obtain ⟨last, -, h⟩ := Option.bind_eq_some_iff.mp h
        split at h
        · obtain ⟨part, hpart, h⟩ := Option.bind_eq_some_iff.mp h
          cases h
          exact (length_of_part? hpart).1
        · cases h
      · exact ih h
    · exact ih h

/-- What stands in parentheses is shorter than the whole. -/
theorem length_of_inside? (h : inside? range = some (some inner)) :
    inner.length < range.length := by
  cases range with
  | nil => cases h
  | cons first rest =>
    rw [inside?] at h
    split at h
    · cases h
    · exact Nat.lt_succ_of_le (length_of_untilCloseFrom h)

end

mutual

def either (s : Text) (range : List Mark) : Option Verdict :=
  match _ : parts s "or".toList range with
  | none => none
  | some ps => eitherFrom s ps []
termination_by (range.length, 4, 0)
decreasing_by
  have := longest_of_parts ‹_›
  simp only [Prod.lex_def]
  omega

def eitherFrom (s : Text) (ps : List (List Mark)) (kept : List (Text × Bool)) :
    Option Verdict := do
  match ps with
  | [] => return chain kept " or ".toList .never
  | p :: ps =>
    match ← both s p with
    | .always => return .always
    | .never => eitherFrom s ps kept
    | .filter t compound => eitherFrom s ps (kept ++ [(t, compound)])
termination_by (longest ps, 3, ps.length)
decreasing_by all_goals
  simp [Prod.lex_def, longest]
  omega

def both (s : Text) (range : List Mark) : Option Verdict :=
  match _ : parts s "and".toList range with
  | none => none
  | some ps => bothFrom s ps []
termination_by (range.length, 2, 0)
decreasing_by
  have := longest_of_parts ‹_›
  simp only [Prod.lex_def]
  omega

def bothFrom (s : Text) (ps : List (List Mark)) (kept : List (Text × Bool)) :
    Option Verdict := do
  match ps with
  | [] => return chain kept " and ".toList .always
  | p :: ps =>
    match ← atom s p with
    | .always => bothFrom s ps kept
    | .never => return .never
    | .filter t compound => bothFrom s ps (kept ++ [(t, compound)])
termination_by (longest ps, 1, ps.length)
decreasing_by all_goals
  simp [Prod.lex_def, longest]
  omega

def atom (s : Text) (range : List Mark) : Option Verdict :=
  match _ : inside? range with
  | none => none
  | some (some inner) => do
    match ← either s inner with
    | .filter t true => return .filter ('(' :: t ++ [')']) false
    | v => return v
  | some none => do
    match ← marker? s range with
    | some true => return .always
    | some false => return .never
    | none =>
      let t ← textOf? s range
      return .filter t false
termination_by (range.length, 0, 0)
decreasing_by
  have := length_of_inside? ‹_›
  simp only [Prod.lex_def]
  omega

end

section

variable (s : Text) (range : List Mark)

theorem either_unfold : either s range = (parts s "or".toList range).bind (eitherFrom s · []) := by
  rw [either]
  cases parts s "or".toList range <;> rfl

theorem both_unfold : both s range = (parts s "and".toList range).bind (bothFrom s · []) := by
  rw [both]
  cases parts s "and".toList range <;> rfl

theorem atom_unfold : atom s range = (do
    match ← inside? range with
    | some inner =>
      match ← either s inner with
      | .filter t true => return .filter ('(' :: t ++ [')']) false
      | v => return v
    | none =>
      match ← marker? s range with
      | some true => return .always
      | some false => return .never
      | none =>
        let t ← textOf? s range
        return .filter t false) := by
  rw [atom]
  rcases inside? range with _ | _ | _ <;> rfl

end

def foldMarkers (s : Text) : Option (Except Refusal Text) := do
  match ← marks s.bytes 0 with
  | .error e => return .error (.malformed e)
  | .ok ms =>
    if ← hasMarker s ms then
      match ← either s ms with
      | .filter t _ => return .ok t
      | .never => return .error .vacuous
      | .always => return .ok "1 eq 1".toList
    else return .ok s

end Bytewise

end WhereFilter
