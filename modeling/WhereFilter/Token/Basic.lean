import WhereFilter.Text.Basic

namespace WhereFilter

/-- A `literal` stands in single quotes, a `quoted` name in double ones, and `other` is
any single character that starts none of the rest. -/
inductive Kind
  | parenLeft | parenRight | comma | dot | minus
  | equals | doubleEquals | notEquals | bangEquals
  | less | greater | lessEquals | greaterEquals
  | number | word | literal | quoted | other
  deriving Repr, DecidableEq

structure Token where
  kind : Kind
  text : Text
  deriving Repr, DecidableEq

namespace Token

/-- The text less the quotes around it. Quotes inside stay doubled. -/
def contents (t : Token) : Text :=
  match t.kind with
  | .literal | .quoted => t.text.tail.dropLast
  | _ => t.text

/-- Whether the token is a word spelled `w` in any ASCII case. -/
def isWord (t : Token) (w : Text) : Bool :=
  t.kind == .word && Text.lower t.text == Text.lower w

def isGapChar (c : Char) : Bool :=
  c == ' ' || c == '\t' || c == '\n' || c == '\x0c' || c == '\r'

def isNameStart (c : Char) : Bool :=
  c.isAlpha || c == '_'

def isNameChar (c : Char) : Bool :=
  c.isAlphanum || c == '_'

/-- The fixed spellings, each before those it starts with, so the first that fits is
the longest. -/
def signs : List (Text × Kind) :=
  [(['=', '='], .doubleEquals), (['='], .equals), (['!', '='], .bangEquals),
   (['<', '>'], .notEquals), (['<', '='], .lessEquals), (['<'], .less),
   (['>', '='], .greaterEquals), (['>'], .greater),
   (['('], .parenLeft), ([')'], .parenRight), ([','], .comma), (['.'], .dot), (['-'], .minus)]

def sign? (s : Text) : Option (Token × Text) :=
  signs.findSome? fun (spelling, kind) => (Text.after? spelling s).map (⟨kind, spelling⟩, ·)

/-- Reads a quoted body up to and with its closing `quote`; a doubled quote does not
close it. None if nothing closes it. -/
def body? (quote : Char) : Text → Option (Text × Text)
  | [] => none
  | [c] => if c = quote then some ([c], []) else none
  | c :: d :: r =>
    if c = quote then
      if d = quote then (body? quote r).map fun (b, rest) => (c :: d :: b, rest)
      else some ([c], d :: r)
    else (body? quote (d :: r)).map fun (b, rest) => (c :: b, rest)

/-- Digits, and a fraction if a digit follows the dot. -/
def number (s : Text) : Text × Text :=
  let whole := s.takeWhile Char.isDigit
  match s.dropWhile Char.isDigit with
  | '.' :: d :: r =>
    if d.isDigit then (whole ++ '.' :: d :: r.takeWhile Char.isDigit, r.dropWhile Char.isDigit)
    else (whole, '.' :: d :: r)
  | rest => (whole, rest)

/-- The longest token at the front of `c :: r`, and what follows it. None if `c` opens a
quote that is never closed. -/
def read? (c : Char) (r : Text) : Option (Token × Text) :=
  match sign? (c :: r) with
  | some found => some found
  | none =>
    if c = '\'' then (body? c r).map fun (b, rest) => (⟨.literal, c :: b⟩, rest)
    else if c = '"' then (body? c r).map fun (b, rest) => (⟨.quoted, c :: b⟩, rest)
    else if isNameStart c then
      some (⟨.word, c :: r.takeWhile isNameChar⟩, r.dropWhile isNameChar)
    else if c.isDigit then
      let (text, rest) := number (c :: r)
      some (⟨.number, text⟩, rest)
    else some (⟨.other, [c]⟩, r)

theorem sign?_text {s rest : Text} {t : Token} (h : sign? s = some (t, rest)) :
    s = t.text ++ rest ∧ (t.text, t.kind) ∈ signs := by
  obtain ⟨⟨spelling, kind⟩, hm, hs⟩ := List.exists_of_findSome?_eq_some h
  simp only [Option.map_eq_some_iff, Prod.mk.injEq] at hs
  obtain ⟨r, hr, rfl, rfl⟩ := hs
  exact ⟨Text.after?_eq_some.mp hr, hm⟩

theorem body?_text {quote : Char} {s b rest : Text} (h : body? quote s = some (b, rest)) :
    s = b ++ rest := by
  fun_induction body? quote s generalizing b with
  | case1 => cases h
  | case2 => simp only [Option.some.injEq, Prod.mk.injEq] at h; simp [← h.1, ← h.2]
  | case3 => cases h
  | case4 r ih =>
    simp only [Option.map_eq_some_iff, Prod.exists, Prod.mk.injEq] at h
    obtain ⟨b', _, hb, rfl, rfl⟩ := h
    simp [ih hb]
  | case5 => simp only [Option.some.injEq, Prod.mk.injEq] at h; simp [← h.1, ← h.2]
  | case6 c d r hc ih =>
    simp only [Option.map_eq_some_iff, Prod.exists, Prod.mk.injEq] at h
    obtain ⟨b', _, hb, rfl, rfl⟩ := h
    simp [ih hb]

theorem number_text (s : Text) : (number s).1 ++ (number s).2 = s := by
  have hs := List.takeWhile_append_dropWhile (p := Char.isDigit) (l := s)
  unfold number
  split
  · next d r hd =>
    rw [hd] at hs
    split <;> simp [List.takeWhile_append_dropWhile, hs]
  · exact hs

theorem number_ne_nil {c : Char} (hc : c.isDigit) (r : Text) : (number (c :: r)).1 ≠ [] := by
  unfold number
  split
  · split <;> simp [hc]
  · simp [hc]

theorem read?_text {c : Char} {r rest : Text} {t : Token} (h : read? c r = some (t, rest)) :
    c :: r = t.text ++ rest := by
  unfold read? at h
  split at h
  · next hs =>
    simp only [Option.some.injEq] at h
    subst h
    exact (sign?_text hs).1
  · split at h
    · simp only [Option.map_eq_some_iff, Prod.exists, Prod.mk.injEq] at h
      obtain ⟨b, _, hb, rfl, rfl⟩ := h
      simp [body?_text hb]
    · split at h
      · simp only [Option.map_eq_some_iff, Prod.exists, Prod.mk.injEq] at h
        obtain ⟨b, _, hb, rfl, rfl⟩ := h
        simp [body?_text hb]
      · split at h
        · simp only [Option.some.injEq, Prod.mk.injEq] at h
          obtain ⟨rfl, rfl⟩ := h
          simp [List.takeWhile_append_dropWhile]
        · split at h
          · simp only [Option.some.injEq, Prod.mk.injEq] at h
            obtain ⟨rfl, rfl⟩ := h
            exact (number_text _).symm
          · simp only [Option.some.injEq, Prod.mk.injEq] at h
            obtain ⟨rfl, rfl⟩ := h
            rfl

theorem read?_ne_nil {c : Char} {r rest : Text} {t : Token} (h : read? c r = some (t, rest)) :
    t.text ≠ [] := by
  unfold read? at h
  split at h
  · next hs =>
    simp only [Option.some.injEq] at h
    subst h
    have hm := (sign?_text hs).2
    intro he
    rw [he] at hm
    simp [signs] at hm
  · split at h
    · simp only [Option.map_eq_some_iff, Prod.exists, Prod.mk.injEq] at h
      obtain ⟨b, _, _, rfl, rfl⟩ := h
      simp
    · split at h
      · simp only [Option.map_eq_some_iff, Prod.exists, Prod.mk.injEq] at h
        obtain ⟨b, _, _, rfl, rfl⟩ := h
        simp
      · split at h
        · simp only [Option.some.injEq, Prod.mk.injEq] at h
          simp [← h.1]
        · split at h
          · next hd =>
            simp only [Option.some.injEq, Prod.mk.injEq] at h
            rw [← h.1]
            exact number_ne_nil hd r
          · simp only [Option.some.injEq, Prod.mk.injEq] at h
            simp [← h.1]

end Token

end WhereFilter
