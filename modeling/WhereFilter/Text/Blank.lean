import WhereFilter.Text.Basic

namespace WhereFilter

/-- The Unicode property White_Space. -/
def isBlank (c : Char) : Bool :=
  let n := c.toNat
  (9 ≤ n && n ≤ 13) || n == 32 || n == 0x85 || n == 0xa0 || n == 0x1680 ||
    (0x2000 ≤ n && n ≤ 0x200a) || n == 0x2028 || n == 0x2029 || n == 0x202f ||
    n == 0x205f || n == 0x3000

namespace Text

def skipBlanks (t : Text) : Text :=
  t.dropWhile isBlank

/-- The blanks at the front of `t`, unless there are none, and what follows them. -/
def blanks? (t : Text) : Option (Text × Text) :=
  match t.takeWhile isBlank with
  | [] => none
  | g => some (g, t.dropWhile isBlank)

theorem blanks?_text {t g rest : Text} (h : blanks? t = some (g, rest)) : t = g ++ rest := by
  unfold blanks? at h
  split at h
  · cases h
  · simp only [Option.some.injEq, Prod.mk.injEq] at h
    rw [← h.1, ← h.2, List.takeWhile_append_dropWhile]

def trim (t : Text) : Text :=
  (skipBlanks (skipBlanks t).reverse).reverse

/-- The longest runs without a blank. -/
def words (t : Text) : List Text :=
  (cut isBlank t).filter fun w => !w.isEmpty

/-- One space between words and none at the ends. -/
def respace (t : Text) : Text :=
  [' '].intercalate (words t)

end Text

end WhereFilter
