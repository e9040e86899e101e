import WhereFilter.Token.Scan

namespace WhereFilter

/-- The parts of `ls` between the words `w` that stand outside parentheses, where `depth`
parentheses are open. One that closes nothing leaves the depth at zero. -/
def parts (w : Text) : Nat → List Lexeme → List (List Lexeme)
  | _, [] => [[]]
  | depth, l :: ls =>
    if l.is .parenLeft then consFirst l (parts w (depth + 1) ls)
    else if l.is .parenRight then consFirst l (parts w (depth - 1) ls)
    else if depth == 0 && l.isWord w then [] :: parts w 0 ls
    else consFirst l (parts w depth ls)

/-- What comes before the parenthesis that closes the one open around `depth` others, if
that one is the last of `ls`. -/
def untilClose? : Nat → List Lexeme → Option (List Lexeme)
  | _, [] => none
  | depth, l :: ls =>
    if l.is .parenLeft then (untilClose? (depth + 1) ls).map (l :: ·)
    else if l.is .parenRight then
      match depth with
      | 0 => if ls.isEmpty then some [] else none
      | depth + 1 => (untilClose? depth ls).map (l :: ·)
    else (untilClose? depth ls).map (l :: ·)

/-- What stands in the parentheses around the whole of `ls`. -/
def inside? : List Lexeme → Option (List Lexeme)
  | [] => none
  | l :: ls => if l.is .parenLeft then untilClose? 0 ls else none

/-- The marker `1 eq 1` stands for what always holds and `1 eq 0` for what never does. -/
def marker? : List Lexeme → Option Bool
  | [one, eq, other] =>
    if one.is .number && one.token.text == ['1'] && eq.isWord "eq".toList && other.is .number then
      if other.token.text == ['1'] then some true
      else if other.token.text == ['0'] then some false
      else none
    else none
  | _ => none

/-- Whether three tokens in a row are a marker. -/
def hasMarker : List Lexeme → Bool
  | [] => false
  | l :: ls => (marker? ((l :: ls).take 3)).isSome || hasMarker ls

/-- A filter taken apart at its connectives, groups and markers. -/
inductive Reading
  | atom (ls : List Lexeme)
  | marker (holds : Bool)
  | group (inner : Reading)
  | either (l r : Reading)
  | both (l r : Reading)
  deriving Repr, DecidableEq

theorem length_consFirst {a : α} {ps : List (List α)} {n : Nat} (h : ∀ p ∈ ps, p.length ≤ n) :
    ∀ p ∈ consFirst a ps, p.length ≤ n + 1 := by
  cases ps with
  | nil => simp [consFirst]
  | cons q qs =>
    simp only [consFirst, List.mem_cons, forall_eq_or_imp] at h ⊢
    exact ⟨Nat.succ_le_succ h.1, fun p hp => Nat.le_succ_of_le (h.2 p hp)⟩

theorem length_of_mem_parts {w : Text} {depth : Nat} {ls : List Lexeme} :
    ∀ p ∈ parts w depth ls, p.length ≤ ls.length := by
  induction ls generalizing depth with
  | nil => simp [parts]
  | cons l ls ih =>
    unfold parts
    split
    · exact length_consFirst ih
    · split
      · exact length_consFirst ih
      · split
        · simp only [List.mem_cons, forall_eq_or_imp]
          exact ⟨Nat.zero_le _, fun p hp => Nat.le_succ_of_le (ih p hp)⟩
        · exact length_consFirst ih

theorem untilClose?_length {depth : Nat} {ls inner : List Lexeme}
    (h : untilClose? depth ls = some inner) : inner.length < ls.length := by
  fun_induction untilClose? depth ls generalizing inner with
  | case1 => cases h
  | case2 depth l ls _ ih =>
    obtain ⟨i, hi, rfl⟩ := Option.map_eq_some_iff.mp h
    exact Nat.succ_lt_succ (ih hi)
  | case3 => simp_all
  | case4 => cases h
  | case5 l ls _ _ depth ih =>
    obtain ⟨i, hi, rfl⟩ := Option.map_eq_some_iff.mp h
    exact Nat.succ_lt_succ (ih hi)
  | case6 depth l ls _ _ ih =>
    obtain ⟨i, hi, rfl⟩ := Option.map_eq_some_iff.mp h
    exact Nat.succ_lt_succ (ih hi)

theorem inside?_length {ls inner : List Lexeme} (h : inside? ls = some inner) :
    inner.length < ls.length := by
  unfold inside? at h
  split at h
  · cases h
  · split at h
    · exact Nat.lt_succ_of_lt (untilClose?_length h)
    · cases h

namespace Reading

/-- A chain of readings; a chain has at least one. -/
def chain (join : Reading → Reading → Reading) : List Reading → Reading
  | [] => .atom []
  | [r] => r
  | r :: rs => join r (chain join rs)

/-- Reads `ls` as parts of which one must hold, each as pieces that must all hold. -/
def ofLexemes (ls : List Lexeme) : Reading :=
  chain .either <| (parts "or".toList 0 ls).attach.map fun ⟨part, _⟩ =>
    chain .both <| (parts "and".toList 0 part).attach.map fun ⟨piece, _⟩ =>
      match _ : inside? piece with
      | some inner => .group (ofLexemes inner)
      | none =>
        match marker? piece with
        | some holds => .marker holds
        | none => .atom piece
termination_by ls.length
decreasing_by
  have := length_of_mem_parts part ‹_›
  have := length_of_mem_parts piece ‹_›
  have := inside?_length ‹_›
  omega

end Reading

end WhereFilter
