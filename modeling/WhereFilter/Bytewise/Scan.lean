import WhereFilter.Text.Bytes
import WhereFilter.Token.Scan

namespace WhereFilter

/-- The bytes that a token stands on. -/
structure Mark where
  kind : Kind
  start : Nat
  stop : Nat
  deriving Repr, DecidableEq

/-- What comes next in the bytes of a text. -/
inductive Sight
  | done
  | unclosed (start : Nat)
  | mark (m : Mark)
  deriving Repr, DecidableEq

/-! The readers of this part go through the bytes of a text by offsets. `none` stands for an
access out of range, a slice that cuts a character or a count below zero. -/

namespace Bytewise

def isGapByte (b : UInt8) : Bool :=
  b == 32 || b == 9 || b == 10 || b == 12 || b == 13

def isDigitByte (b : UInt8) : Bool :=
  48 ≤ b && b ≤ 57

def isNameStartByte (b : UInt8) : Bool :=
  (97 ≤ b && b ≤ 122) || (65 ≤ b && b ≤ 90) || b == 95

def isNameByte (b : UInt8) : Bool :=
  isNameStartByte b || isDigitByte b

/-- A byte that is not the first of its character. -/
def isInnerByte (b : UInt8) : Bool :=
  128 ≤ b && b < 192

/-- Where the bytes that `p` holds of end. -/
def runEnd (p : UInt8 → Bool) (source : List UInt8) (i : Nat) : Nat :=
  i + ((source.drop i).takeWhile p).length

theorem le_runEnd (p : UInt8 → Bool) (source : List UInt8) (i : Nat) : i ≤ runEnd p source i :=
  Nat.le_add_right _ _

/-- Steps over the byte of `a` if it comes next. -/
def skip? (a : Char) (source : List UInt8) (i : Nat) : Option Nat :=
  if source[i]? = some a.toUInt8 then some (i + 1) else none

theorem skip?_eq_some {a : Char} {source : List UInt8} {i stop : Nat}
    (h : skip? a source i = some stop) : stop = i + 1 := by
  rw [skip?] at h
  split at h
  · exact (Option.some.inj h).symm
  · cases h

/-- The kind and the end of the fixed spelling that starts with `b`, where `i` is behind it. -/
def sign? (b : UInt8) (source : List UInt8) (i : Nat) : Option (Kind × Nat) :=
  if b = '('.toUInt8 then some (.parenLeft, i)
  else if b = ')'.toUInt8 then some (.parenRight, i)
  else if b = ','.toUInt8 then some (.comma, i)
  else if b = '.'.toUInt8 then some (.dot, i)
  else if b = '-'.toUInt8 then some (.minus, i)
  else if b = '='.toUInt8 then
    match skip? '=' source i with
    | some i => some (.doubleEquals, i)
    | none => some (.equals, i)
  else if b = '!'.toUInt8 then
    match skip? '=' source i with
    | some i => some (.bangEquals, i)
    | none => some (.other, i)
  else if b = '<'.toUInt8 then
    match skip? '>' source i with
    | some i => some (.notEquals, i)
    | none =>
      match skip? '=' source i with
      | some i => some (.lessEquals, i)
      | none => some (.less, i)
  else if b = '>'.toUInt8 then
    match skip? '=' source i with
    | some i => some (.greaterEquals, i)
    | none => some (.greater, i)
  else none

/-- Where the body that `quote` closes ends, if it does. -/
def bodyEnd (quote : Char) (source : List UInt8) (i : Nat) : Option (Option Nat) :=
  let last := runEnd (· != quote.toUInt8) source i
  if source.length ≤ last then some none
  else
    match h : skip? quote source (last + 1) with
    | some stop => bodyEnd quote source stop
    | none => some (some (last + 1))
termination_by source.length - i
decreasing_by
  have := le_runEnd (· != quote.toUInt8) source i
  have := skip?_eq_some h
  omega

def numberEnd (source : List UInt8) (i : Nat) : Nat :=
  let i := runEnd isDigitByte source i
  if source[i]? = some '.'.toUInt8 ∧ source[i + 1]?.any isDigitByte then
    runEnd isDigitByte source (i + 1)
  else i

/-- Reads the token that starts with the byte `b` at `start`. -/
def token (source : List UInt8) (b : UInt8) (start : Nat) : Option Sight := do
  let i := start + 1
  match sign? b source i with
  | some (kind, stop) => return .mark ⟨kind, start, stop⟩
  | none =>
    if b = '\''.toUInt8 then
      match ← bodyEnd '\'' source i with
      | none => return .unclosed start
      | some stop => return .mark ⟨.literal, start, stop⟩
    else if b = '"'.toUInt8 then
      match ← bodyEnd '"' source i with
      | none => return .unclosed start
      | some stop => return .mark ⟨.quoted, start, stop⟩
    else if isNameStartByte b then return .mark ⟨.word, start, runEnd isNameByte source i⟩
    else if isDigitByte b then return .mark ⟨.number, start, numberEnd source i⟩
    else return .mark ⟨.other, start, runEnd isInnerByte source i⟩

/-- Reads a token from offset `i` on. -/
def next (source : List UInt8) (i : Nat) : Option Sight := do
  let start := runEnd isGapByte source i
  if source.length ≤ start then
    return .done
  let b ← source[start]?
  token source b start

section

variable {source : List UInt8} {b : UInt8} {i stop : Nat} {kind : Kind} {m : Mark}

theorem le_of_sign? (h : sign? b source i = some (kind, stop)) : i ≤ stop := by
  have hskip {a : Char} {j : Nat} (hj : skip? a source i = some j) : i ≤ j :=
    (skip?_eq_some hj).symm ▸ Nat.le_succ i
  unfold sign? at h
  repeat' split at h
  all_goals cases h
  all_goals first | exact Nat.le_refl _ | exact hskip ‹_›

theorem le_of_bodyEnd {quote : Char} (h : bodyEnd quote source i = some (some stop)) :
    i ≤ stop := by
  fun_induction bodyEnd quote source i with
  | case1 => cases h
  | case2 i j _ next hnext ih =>
    have := le_runEnd (· != quote.toUInt8) source i
    have := skip?_eq_some hnext
    have := ih h
    omega
  | case3 i j =>
    have := le_runEnd (· != quote.toUInt8) source i
    cases h
    omega

theorem le_numberEnd (source : List UInt8) (i : Nat) : i ≤ numberEnd source i := by
  have hint := le_runEnd isDigitByte source i
  have hfraction := le_runEnd isDigitByte source (runEnd isDigitByte source i + 1)
  simp only [numberEnd]
  split <;> omega

/-- A token ends behind its start. -/
theorem lt_of_token {start : Nat} (h : token source b start = some (.mark m)) :
    start < m.stop := by
  simp only [token, Option.bind_eq_bind, Option.pure_def] at h
  split at h
  · next hsign =>
    cases h
    exact le_of_sign? hsign
  · split at h
    · obtain ⟨_ | stop, hend, h⟩ := Option.bind_eq_some_iff.mp h <;> cases h
      exact le_of_bodyEnd hend
    · split at h
      · obtain ⟨_ | stop, hend, h⟩ := Option.bind_eq_some_iff.mp h <;> cases h
        exact le_of_bodyEnd hend
      · repeat' split at h
        all_goals cases h
        · exact le_runEnd _ _ _
        · exact le_numberEnd _ _
        · exact le_runEnd _ _ _

theorem lt_of_next (h : next source i = some (.mark m)) : i < m.stop ∧ i < source.length := by
  have hgap := le_runEnd isGapByte source i
  simp only [next] at h
  split at h
  · cases h
  · obtain ⟨b, -, hb⟩ := Option.bind_eq_some_iff.mp h
    have := lt_of_token hb
    omega

end

/-- The tokens from offset `i` on. -/
def marks (source : List UInt8) (i : Nat) : Option (Except Unclosed (List Mark)) :=
  match _ : next source i with
  | none => none
  | some .done => some (.ok [])
  | some (.unclosed start) => some (.error ⟨start⟩)
  | some (.mark m) => do
    match ← marks source m.stop with
    | .ok ms => return .ok (m :: ms)
    | .error e => return .error e
termination_by source.length - i
decreasing_by
  have := lt_of_next ‹_›
  omega

/-- The tokens from `i` on, one reading after the other. -/
theorem marks_unfold (source : List UInt8) (i : Nat) : marks source i = do
    match ← next source i with
    | .done => return .ok []
    | .unclosed start => return .error ⟨start⟩
    | .mark m =>
      match ← marks source m.stop with
      | .ok ms => return .ok (m :: ms)
      | .error e => return .error e := by
  rw [marks]
  rcases next source i with _ | _ | _ | _ <;> rfl

end Bytewise

end WhereFilter
