import WhereFilter.Token.Scan

namespace WhereFilter

/-- A place in a text: how far it is from the start, and what is still to be read. -/
structure Cursor where
  offset : Nat
  rest : Text
  deriving Repr, DecidableEq

namespace Cursor

def start (s : Text) : Cursor :=
  ⟨0, s⟩

def isAtEnd (c : Cursor) : Bool :=
  c.rest.isEmpty

/-- The next byte of the UTF-8 form. -/
def peek? (c : Cursor) : Option Nat :=
  c.rest.head?.map Text.leadByte

/-- Steps over the character `a` if it comes next. -/
def skip? (a : Char) (c : Cursor) : Option Cursor :=
  match c.rest with
  | [] => none
  | b :: r => if b = a then some ⟨c.offset + b.utf8Size, r⟩ else none

/-- The next token and the cursor behind it. At the end there is none, and a quote that
is never closed uses up the rest of the text. -/
def next (c : Cursor) : Except Unclosed (Option Placed) × Cursor :=
  match step c.rest with
  | .done gap => (.ok none, ⟨c.offset + Text.size gap, []⟩)
  | .unclosed gap => (.error ⟨c.offset + Text.size gap⟩, ⟨c.offset + Text.size c.rest, []⟩)
  | .lexeme l rest =>
    let start := c.offset + Text.size l.gap
    let stop := start + Text.size l.token.text
    (.ok (some ⟨l.token, start, stop⟩), ⟨stop, rest⟩)

/-- A cursor into `s` that stands behind all it has not to read. -/
def Within (s : Text) (c : Cursor) : Prop :=
  ∃ passed, s = passed ++ c.rest ∧ c.offset = Text.size passed

theorem within_start (s : Text) : Within s (start s) :=
  ⟨[], rfl, rfl⟩

theorem Within.skip {s : Text} {c d : Cursor} {a : Char} (h : Within s c)
    (hd : c.skip? a = some d) : Within s d := by
  obtain ⟨passed, rfl, ho⟩ := h
  unfold skip? at hd
  split at hd
  · cases hd
  · next b r hr =>
    split at hd
    · simp only [Option.some.injEq] at hd
      subst hd
      exact ⟨passed ++ [b], by simp [hr], by simp [ho]⟩
    · cases hd

theorem Within.next {s : Text} {c : Cursor} (h : Within s c) : Within s c.next.2 := by
  obtain ⟨passed, rfl, ho⟩ := h
  unfold Cursor.next
  split
  · next gap hs => exact ⟨passed ++ gap, by simp [← step_done hs], by simp [ho]⟩
  · next gap hs => exact ⟨passed ++ c.rest, by simp, by simp [ho]⟩
  · next l rest hs =>
    obtain ⟨hr, -⟩ := step_lexeme hs
    exact ⟨passed ++ l.text, by simp [hr], by simp [ho, Lexeme.text]; omega⟩

end Cursor

end WhereFilter
