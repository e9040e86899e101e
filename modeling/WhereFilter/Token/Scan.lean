import WhereFilter.Token.Basic

namespace WhereFilter

/-- A token with the gap before it. -/
structure Lexeme where
  gap : Text
  token : Token
  deriving Repr, DecidableEq

namespace Lexeme

def text (l : Lexeme) : Text :=
  l.gap ++ l.token.text

def is (l : Lexeme) (k : Kind) : Bool :=
  l.token.kind == k

def isWord (l : Lexeme) (w : Text) : Bool :=
  l.token.isWord w

end Lexeme

/-- The text of `ls` from the first token to the last. -/
def slice : List Lexeme → Text
  | [] => []
  | l :: ls => l.token.text ++ ls.flatMap Lexeme.text

/-- Where a quote opens that nothing closes. -/
structure Unclosed where
  offset : Nat
  deriving Repr, DecidableEq

/-- What stands at the front of a text. -/
inductive Step
  /-- Only a gap is left. -/
  | done (gap : Text)
  /-- A quote opens behind `gap` and is never closed. -/
  | unclosed (gap : Text)
  | lexeme (l : Lexeme) (rest : Text)
  deriving Repr, DecidableEq

def step (s : Text) : Step :=
  let gap := s.takeWhile Token.isGapChar
  match s.dropWhile Token.isGapChar with
  | [] => .done gap
  | c :: r =>
    match Token.read? c r with
    | none => .unclosed gap
    | some (t, rest) => .lexeme ⟨gap, t⟩ rest

theorem step_done {s gap : Text} (h : step s = .done gap) : s = gap := by
  have hs := List.takeWhile_append_dropWhile (p := Token.isGapChar) (l := s)
  unfold step at h
  split at h
  · next hd =>
    simp only [Step.done.injEq] at h
    rw [hd, List.append_nil, h] at hs
    exact hs.symm
  · split at h <;> simp at h

theorem step_lexeme {s rest : Text} {l : Lexeme} (h : step s = .lexeme l rest) :
    s = l.text ++ rest ∧ l.token.text ≠ [] := by
  have hs := List.takeWhile_append_dropWhile (p := Token.isGapChar) (l := s)
  unfold step at h
  split at h
  · simp at h
  · next c r hd =>
    split at h
    · simp at h
    · next t rest' hr =>
      simp only [Step.lexeme.injEq] at h
      obtain ⟨rfl, rfl⟩ := h
      refine ⟨?_, Token.read?_ne_nil hr⟩
      rw [hd, Token.read?_text hr, ← List.append_assoc] at hs
      exact hs.symm

theorem step_shorter {s rest : Text} {l : Lexeme} (h : step s = .lexeme l rest) :
    rest.length < s.length := by
  obtain ⟨rfl, hn⟩ := step_lexeme h
  have := List.length_pos_iff.mpr hn
  simp [Lexeme.text]
  omega

/-- A text taken apart into lexemes and the gap behind the last one. -/
structure Scan where
  lexemes : List Lexeme
  tail : Text
  deriving Repr, DecidableEq

namespace Scan

def text (s : Scan) : Text :=
  s.lexemes.flatMap Lexeme.text ++ s.tail

def tokens (s : Scan) : List Token :=
  s.lexemes.map Lexeme.token

def cons (l : Lexeme) (s : Scan) : Scan :=
  ⟨l :: s.lexemes, s.tail⟩

@[simp] theorem text_cons (l : Lexeme) (s : Scan) : (s.cons l).text = l.text ++ s.text := by
  simp [text, cons]

end Scan

def scan (s : Text) : Except Unclosed Scan :=
  match _ : step s with
  | .done gap => .ok ⟨[], gap⟩
  | .unclosed gap => .error ⟨Text.size gap⟩
  | .lexeme l rest =>
    match scan rest with
    | .ok found => .ok (found.cons l)
    | .error e => .error ⟨Text.size l.text + e.offset⟩
termination_by s.length
decreasing_by exact step_shorter ‹_›

theorem scan_text {s : Text} {found : Scan} (h : scan s = .ok found) : found.text = s := by
  fun_induction scan s generalizing found with
  | case1 s gap hs =>
    simp only [Except.ok.injEq] at h
    simp [← h, Scan.text, step_done hs]
  | case2 => simp at h
  | case3 s l rest hs found' hf ih =>
    simp only [Except.ok.injEq] at h
    rw [← h, Scan.text_cons, ih hf, (step_lexeme hs).1]
  | case4 => simp at h

/-- A token with the offsets at which it starts and stops. -/
structure Placed where
  token : Token
  start : Nat
  stop : Nat
  deriving Repr, DecidableEq

/-- The tokens of `ls`, where the gap of the first starts at `offset`. -/
def place (offset : Nat) : List Lexeme → List Placed
  | [] => []
  | l :: ls =>
    let start := offset + Text.size l.gap
    let stop := start + Text.size l.token.text
    ⟨l.token, start, stop⟩ :: place stop ls

def tokenize (s : Text) : Except Unclosed (List Placed) :=
  (scan s).map fun found => place 0 found.lexemes

end WhereFilter
