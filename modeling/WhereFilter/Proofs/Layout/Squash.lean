import WhereFilter.Proofs.Token.Fit
import WhereFilter.Text.Blank

namespace WhereFilter

namespace Text

/-- One space for each run of gap characters. `behind` says that a gap stands right before the
text, which goes on with it. -/
def squashFrom (behind : Bool) : Text → Text
  | [] => []
  | c :: r =>
    if Token.isGapChar c then
      if behind then squashFrom true r else ' ' :: squashFrom true r
    else c :: squashFrom false r

def squash (s : Text) : Text :=
  squashFrom false s

/-- A text with a gap behind it. -/
def pad (s : Text) : Text :=
  s ++ [' ']

/-- A text with a gap on both ends. -/
def frame (s : Text) : Text :=
  ' ' :: pad s

theorem pad_append (u v : Text) : pad (u ++ v) = u ++ pad v :=
  List.append_assoc u v [' ']

@[simp] theorem pad_cons (c : Char) (s : Text) : pad (c :: s) = c :: pad s := rfl

/-- The texts differ in the lengths and characters of their gaps alone. -/
def Spaced (u v : Text) : Prop :=
  squash u = squash v

@[simp] theorem squash_nil : squash [] = [] := rfl

theorem squash_solid {c : Char} (hc : Token.isGapChar c = false) (s : Text) :
    squash (c :: s) = c :: squash s := by
  simp [squash, squashFrom, hc]

theorem squash_blank {c : Char} (hc : Token.isGapChar c = true) (s : Text) :
    squash (c :: s) = ' ' :: squashFrom true s := by
  simp [squash, squashFrom, hc]

theorem squashFrom_true (s : Text) :
    squashFrom true s = squash (s.dropWhile Token.isGapChar) := by
  induction s with
  | nil => rfl
  | cons c s ih =>
    cases hc : Token.isGapChar c with
    | true => simp [squashFrom, hc, ih]
    | false => simp [squashFrom, hc, squash]

theorem squash_gap {c : Char} (hc : Token.isGapChar c = true) (s : Text) :
    squash (c :: s) = ' ' :: squash (s.dropWhile Token.isGapChar) := by
  rw [squash_blank hc, squashFrom_true]

@[simp] theorem squash_eq_nil {s : Text} : squash s = [] ↔ s = [] := by
  cases s with
  | nil => simp
  | cons c s =>
    cases hc : Token.isGapChar c with
    | false => simp [squash_solid hc]
    | true => simp [squash_gap hc]

/-- A text in gaps, each of its runs in one step. -/
theorem squash_induction {P : Text → Prop} (nil : P [])
    (solid : ∀ c s, Token.isGapChar c = false → P s → P (c :: s))
    (gap : ∀ g s, IsGap g → g ≠ [] → s.head?.any Token.isGapChar = false → P s → P (g ++ s))
    (s : Text) : P s := by
  induction hn : s.length using Nat.strongRecOn generalizing s with
  | ind n ih =>
    cases s with
    | nil => exact nil
    | cons c s =>
      subst hn
      cases hc : Token.isGapChar c with
      | false => exact solid c s hc (ih s.length (by simp) s rfl)
      | true =>
        have hlen : (s.dropWhile Token.isGapChar).length < (c :: s).length := by
          have hle := (List.dropWhile_suffix (l := s) Token.isGapChar).length_le
          simp only [List.length_cons]
          omega
        have hg : IsGap (c :: s.takeWhile Token.isGapChar) := by
          intro a ha
          rcases List.mem_cons.mp ha with rfl | ha
          · exact hc
          · exact List.mem_takeWhile_imp ha
        have h := gap _ (s.dropWhile Token.isGapChar) hg (by simp) (head?_dropWhile _ s)
          (ih _ hlen _ rfl)
        rwa [List.cons_append, List.takeWhile_append_dropWhile] at h

theorem squash_run {g s : Text} (hg : IsGap g) (hn : g ≠ [])
    (hs : s.head?.any Token.isGapChar = false) : squash (g ++ s) = ' ' :: squash s := by
  obtain ⟨c, g, rfl⟩ := List.exists_cons_of_ne_nil hn
  have hg' : ∀ a ∈ g, Token.isGapChar a = true := fun a ha => hg a (List.mem_cons_of_mem c ha)
  rw [List.cons_append, squash_gap (hg c (by simp)), (run_append hg' hs).2]

/-- Whether a gap stands right behind `s`, or at its place if it is empty. -/
def endsInGap (behind : Bool) (s : Text) : Bool :=
  (s.getLast?.map Token.isGapChar).getD behind

theorem endsInGap_cons (behind : Bool) (c : Char) (s : Text) :
    endsInGap behind (c :: s) = endsInGap (Token.isGapChar c) s := by
  unfold endsInGap
  rw [List.getLast?_cons]
  cases s.getLast? <;> rfl

theorem squashFrom_append (behind : Bool) (u v : Text) :
    squashFrom behind (u ++ v) = squashFrom behind u ++ squashFrom (endsInGap behind u) v := by
  induction u generalizing behind with
  | nil => rfl
  | cons c u ih =>
    rw [endsInGap_cons]
    cases hc : Token.isGapChar c <;> cases behind <;> simp [squashFrom, hc, ih]

theorem endsInGap_squashFrom (behind : Bool) (s : Text) :
    endsInGap behind (squashFrom behind s) = endsInGap behind s := by
  induction s generalizing behind with
  | nil => rfl
  | cons c s ih =>
    rw [endsInGap_cons]
    cases hc : Token.isGapChar c with
    | false => simp only [squashFrom, hc, Bool.false_eq_true, if_false, endsInGap_cons, ih]
    | true =>
      cases behind with
      | true => simp only [squashFrom, hc, if_true, ih]
      | false =>
        have hspace : Token.isGapChar ' ' = true := rfl
        simp only [squashFrom, hc, if_true, Bool.false_eq_true, if_false, endsInGap_cons, hspace, ih]

theorem squash_append (u v : Text) :
    squash (u ++ v) = squash u ++ squashFrom (endsInGap false u) v :=
  squashFrom_append false u v

/-- Where a solid character stands on one side, texts are squashed side by side. -/
theorem squash_append_solid {u v : Text} {c : Char} (hc : Token.isGapChar c = false) :
    squash (u ++ c :: v) = squash u ++ c :: squash v := by
  rw [squash_append]
  simp [squashFrom, hc, squash]

theorem head?_squash (s : Text) : (squash s).head?.any Token.isGapChar =
    s.head?.any Token.isGapChar := by
  cases s with
  | nil => rfl
  | cons c s =>
    cases hc : Token.isGapChar c with
    | false => simp [squash_solid hc, hc]
    | true => simp [squash_gap hc, hc]; rfl

theorem dropWhile_gap_squash (s : Text) :
    (squash s).dropWhile Token.isGapChar = squash (s.dropWhile Token.isGapChar) := by
  cases s with
  | nil => rfl
  | cons c s =>
    cases hc : Token.isGapChar c with
    | false => simp [squash_solid hc, hc]
    | true =>
      have hspace : Token.isGapChar ' ' = true := rfl
      have hhead := head?_squash (s.dropWhile Token.isGapChar)
      rw [head?_dropWhile] at hhead
      rw [squash_gap hc, List.dropWhile_cons, hspace, if_pos rfl, List.dropWhile_cons, hc, if_pos rfl]
      cases h : squash (s.dropWhile Token.isGapChar) with
      | nil => rfl
      | cons a r =>
        rw [h] at hhead
        simp only [List.head?_cons, Option.any_some] at hhead
        simp [hhead]

theorem squash_squash (s : Text) : squash (squash s) = squash s := by
  induction s using squash_induction with
  | nil => rfl
  | solid c s hc ih => rw [squash_solid hc, squash_solid hc, ih]
  | gap g s hg hn hs ih =>
    have hspace : Token.isGapChar ' ' = true := rfl
    have hdrop : s.dropWhile Token.isGapChar = s := by
      cases s with
      | nil => rfl
      | cons c s => simpa using hs
    rw [squash_run hg hn hs, squash_gap hspace, dropWhile_gap_squash, hdrop, ih]

/-- A text without gaps is squashed to itself. -/
theorem squash_of_solid {u : Text} (hu : ∀ c ∈ u, Token.isGapChar c = false) : squash u = u := by
  induction u with
  | nil => rfl
  | cons c u ih =>
    simp only [List.mem_cons, forall_eq_or_imp] at hu
    rw [squash_solid hu.1, ih hu.2]

theorem squash_append_of_solid {u : Text} (hu : ∀ c ∈ u, Token.isGapChar c = false) (v : Text) :
    squash (u ++ v) = u ++ squash v := by
  induction u with
  | nil => rfl
  | cons c u ih =>
    simp only [List.mem_cons, forall_eq_or_imp] at hu
    rw [List.cons_append, squash_solid hu.1, ih hu.2, List.cons_append]

/-- Gap characters are all alike to `p`. -/
def Blind (p : Char → Bool) : Prop :=
  ∀ c, Token.isGapChar c = true → p c = p ' '

/-- A gap can only be among characters that a space is among. -/
theorem Blind.solid {p : Char → Bool} (hp : Blind p) (hspace : p ' ' = false) {u : Text}
    (hu : ∀ c ∈ u, p c = true) : ∀ c ∈ u, Token.isGapChar c = false := by
  intro c hc
  cases hgap : Token.isGapChar c with
  | false => rfl
  | true =>
    have hpc := hu c hc
    rw [hp c hgap, hspace] at hpc
    cases hpc

theorem takeWhile_squash {p : Char → Bool} (hp : Blind p) (s : Text) :
    (squash s).takeWhile p = squash (s.takeWhile p) := by
  induction s using squash_induction with
  | nil => rfl
  | solid c s hc ih => cases h : p c <;> simp [squash_solid hc, h, ih]
  | gap g s hg hn hs ih =>
    have hall : ∀ c ∈ g, p c = p ' ' := fun c hc => hp c (hg c hc)
    rw [squash_run hg hn hs]
    cases h : p ' ' with
    | false =>
      obtain ⟨c, g, rfl⟩ := List.exists_cons_of_ne_nil hn
      simp [h, hall c (by simp)]
    | true =>
      rw [List.takeWhile_append_of_pos fun c hc => (hall c hc).trans h, squash_run hg hn ?_, ← ih]
      · simp [h]
      · cases s with
        | nil => rfl
        | cons c s => cases hc : p c <;> simp_all

/-- A run without gaps. -/
theorem takeWhile_squash_of_solid {p : Char → Bool} (hp : Blind p) (hspace : p ' ' = false)
    (s : Text) : (squash s).takeWhile p = s.takeWhile p := by
  rw [takeWhile_squash hp]
  exact squash_of_solid (hp.solid hspace holds_of_mem_takeWhile)

theorem dropWhile_squash {p : Char → Bool} (hp : Blind p) (s : Text) :
    (squash s).dropWhile p = squash (s.dropWhile p) := by
  induction s using squash_induction with
  | nil => rfl
  | solid c s hc ih => cases h : p c <;> simp [squash_solid hc, h, ih]
  | gap g s hg hn hs ih =>
    have hall : ∀ c ∈ g, p c = p ' ' := fun c hc => hp c (hg c hc)
    cases h : p ' ' with
    | false =>
      obtain ⟨c, g, rfl⟩ := List.exists_cons_of_ne_nil hn
      have hc : p c = false := (hall c (by simp)).trans h
      have hstay : (c :: g ++ s).dropWhile p = c :: g ++ s := by simp [hc]
      rw [hstay, squash_run hg hn hs]
      simp [h]
    | true =>
      rw [squash_run hg hn hs, List.dropWhile_append_of_pos fun c hc => (hall c hc).trans h, ← ih]
      simp [h]

namespace Spaced

theorem refl (u : Text) : Spaced u u := rfl

theorem symm {u v : Text} (h : Spaced u v) : Spaced v u := Eq.symm h

theorem trans {u v w : Text} (h : Spaced u v) (h' : Spaced v w) : Spaced u w := Eq.trans h h'

theorem squash (s : Text) : Spaced (Text.squash s) s := squash_squash s

theorem append {u u' v v' : Text} (hu : Spaced u u') (hv : Spaced v v') :
    Spaced (u ++ v) (u' ++ v') := by
  have hends : endsInGap false u = endsInGap false u' := by
    have h := endsInGap_squashFrom false u
    rw [← h, ← endsInGap_squashFrom false u']
    exact congrArg (endsInGap false) hu
  have hfrom (behind : Bool) : squashFrom behind v = squashFrom behind v' := by
    cases behind with
    | false => exact hv
    | true => rw [squashFrom_true, squashFrom_true, ← dropWhile_gap_squash, hv, dropWhile_gap_squash]
  rw [Spaced, squash_append, squash_append, hends, hfrom]
  exact congrArg (· ++ _) hu

theorem cons (c : Char) {u v : Text} (h : Spaced u v) : Spaced (c :: u) (c :: v) :=
  (refl [c]).append h

end Spaced

end Text

end WhereFilter
