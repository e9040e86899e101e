import WhereFilter.Keyed

namespace WhereFilter

/-- Answers of earlier lookups. -/
abbrev Memo (κ ν : Type) := Keyed κ ν

namespace Memo

variable [DecidableEq κ]

/-- What asking for a key gives: the value, the memo after it, and whether the lookup ran. -/
structure Answer (κ ν : Type) where
  value : ν
  memo : Memo κ ν
  ran : Bool

/-- The value kept under `k`, or else the one that `lookup` finds. The lookup may itself
work on the memo; a value it leaves under `k` stays and is the answer. -/
def ask (m : Memo κ ν) (k : κ) (lookup : Memo κ ν → ν × Memo κ ν) : Answer κ ν :=
  match m.get? k with
  | some v => ⟨v, m, false⟩
  | none =>
    let (v, after) := lookup m
    match after.get? k with
    | some w => ⟨w, after, true⟩
    | none => ⟨v, after.insert k v, true⟩

/-- Drops `k` and gives the value that was kept under it. -/
def forget (m : Memo κ ν) (k : κ) : Option ν × Memo κ ν :=
  (m.get? k, m.erase k)

end Memo

end WhereFilter
