import WhereFilter.Text.Basic

namespace WhereFilter

/-- Recognises a value at the front of a list and gives what follows it. The first
argument is the item that stands right before the list, for patterns that look back. -/
abbrev Pattern (α β : Type) := Option α → List α → Option (β × List α)

/-- An item that starts no hit, or a hit. -/
inductive Segment (α β : Type)
  | item (a : α)
  | hit (b : β)
  deriving Repr, DecidableEq

namespace Pattern

/-- Reads on behind the next `covered` items, which belong to the last hit. -/
def segmentsFrom (p : Pattern α β) (back : Option α) : Nat → List α → List (Segment α β)
  | _, [] => []
  | covered + 1, a :: r => segmentsFrom p (some a) covered r
  | 0, a :: r =>
    match p back (a :: r) with
    | some (b, rest) => .hit b :: segmentsFrom p (some a) (r.length - rest.length) r
    | none => .item a :: segmentsFrom p (some a) 0 r

/-- The hits of `p` from left to right, each as early as possible and none overlapping the
one before it, with the items between them. -/
def segments (p : Pattern α β) (l : List α) : List (Segment α β) :=
  segmentsFrom p none 0 l

def hits (p : Pattern α β) (l : List α) : List β :=
  (segments p l).filterMap fun
    | .item _ => none
    | .hit b => some b

/-- Writes `hit b` for each hit and `item a` for each item between hits. -/
def render (p : Pattern α β) (item : α → List γ) (hit : β → List γ) (l : List α) : List γ :=
  (segments p l).flatMap fun
    | .item a => item a
    | .hit b => hit b

/-- Writes `hit b` for each hit and keeps the items between hits. -/
def replace (p : Pattern α β) (hit : β → List α) (l : List α) : List α :=
  render p (fun a => [a]) hit l

/-- Every hit `b` of `p` stands for the items `text b`. -/
def Covers (p : Pattern α β) (text : β → List α) : Prop :=
  ∀ back l b rest, p back l = some (b, rest) → l = text b ++ rest

theorem segmentsFrom_covered (p : Pattern α β) (back : Option α) (front rest : List α) :
    segmentsFrom p back front.length (front ++ rest) =
      segmentsFrom p (front.getLast?.or back) 0 rest := by
  induction front generalizing back with
  | nil => simp
  | cons a front ih =>
    rw [List.length_cons, List.cons_append, segmentsFrom, ih]
    simp only [List.getLast?_cons]
    cases front.getLast? <;> rfl

end Pattern

end WhereFilter
