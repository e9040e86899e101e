import WhereFilter.Bytewise.Scan
import WhereFilter.Bytewise.Slice
import WhereFilter.Rule.Translate

namespace WhereFilter

namespace Bytewise

/-! Passes that copy a text and write something else for what they find. `copied` is where the
text that is still to be copied starts. -/

def source? (s : Text) (m : Mark) : Option Text :=
  s.slice? m.start m.stop

/-- The text of a token less the quotes around it. -/
def contents? (s : Text) (m : Mark) : Option Text := do
  let t ← source? s m
  match m.kind with
  | .literal | .quoted =>
    let last ← minus? t.size 1
    t.slice? 1 last
  | _ => return t

def isWord? (s : Text) (m : Mark) (w : Text) : Option Bool :=
  if m.kind == .word then (source? s m).map fun t => Text.lower t == Text.lower w
  else some false

/-- What `p` finds, with the offsets at which it starts and stops; `offset` is that of the text
and `covered` characters belong to the last hit. -/
def placesFrom (p : Pattern Char β) (back : Option Char) (offset covered : Nat) :
    Text → List (β × Nat × Nat)
  | [] => []
  | c :: r =>
    match covered with
    | covered + 1 => placesFrom p (some c) (offset + c.utf8Size) covered r
    | 0 =>
      match p back (c :: r) with
      | some (b, rest) =>
        (b, offset, offset + (Text.size (c :: r) - Text.size rest)) ::
          placesFrom p (some c) (offset + c.utf8Size) (r.length - rest.length) r
      | none => placesFrom p (some c) (offset + c.utf8Size) 0 r

def places (p : Pattern Char β) (s : Text) : List (β × Nat × Nat) :=
  placesFrom p none 0 0 s

def spliceFrom (hit : β → Text) (s : Text) : List (β × Nat × Nat) → Nat → Text → Option Text
  | [], copied, out => do
    let rest ← s.slice? copied s.size
    return out ++ rest
  | (b, start, stop) :: found, copied, out => do
    let before ← s.slice? copied start
    spliceFrom hit s found stop (out ++ before ++ hit b)

/-- Writes `hit b` for each hit of `p`. -/
def splice (p : Pattern Char β) (hit : β → Text) (s : Text) : Option Text :=
  spliceFrom hit s (places p s) 0 []

/-- Reads on from token `i`. -/
def dropQualifiersFrom (s : Text) (ms : List Mark) (i copied : Nat) (out : Text) :
    Option Text := do
  if i + 2 < ms.length then
    let table ← ms[i]?
    let dot ← ms[i + 1]?
    let column ← ms[i + 2]?
    if table.kind == .word && dot.kind == .dot && column.kind == .word &&
        table.stop == dot.start && dot.stop == column.start then
      let before ← s.slice? copied table.start
      dropQualifiersFrom s ms (i + 3) column.start (out ++ before)
    else dropQualifiersFrom s ms (i + 1) copied out
  else
    let rest ← s.slice? copied s.size
    return out ++ rest
termination_by ms.length - i

def dropQualifiers (s : Text) : Option (Except Unclosed Text) := do
  match ← marks s.bytes 0 with
  | .error e => return .error e
  | .ok ms =>
    let t ← dropQualifiersFrom s ms 0 0 []
    return .ok t

/-- Writes tokens anew that `spelling` has a text for; `i` is where the next token is read. -/
def respellFrom (spelling : Text → Mark → Option (Option Text)) (s : Text) (i copied : Nat)
    (out : Text) : Option (Except Unclosed Text) :=
  match _ : next s.bytes i with
  | none => none
  | some (.unclosed start) => some (.error ⟨start⟩)
  | some .done => do
    let rest ← s.slice? copied s.size
    return .ok (out ++ rest)
  | some (.mark m) => do
    match ← spelling s m with
    | some t =>
      let before ← s.slice? copied m.start
      respellFrom spelling s m.stop m.stop (out ++ before ++ t)
    | none => respellFrom spelling s m.stop copied out
termination_by s.bytes.length - i
decreasing_by all_goals
  have := lt_of_next ‹_›
  omega

theorem respellFrom_unfold (spelling : Text → Mark → Option (Option Text)) (s : Text)
    (i copied : Nat) (out : Text) : respellFrom spelling s i copied out = (do
    match ← next s.bytes i with
    | .unclosed start => return .error ⟨start⟩
    | .done =>
      let rest ← s.slice? copied s.size
      return .ok (out ++ rest)
    | .mark m =>
      match ← spelling s m with
      | some t =>
        let before ← s.slice? copied m.start
        respellFrom spelling s m.stop m.stop (out ++ before ++ t)
      | none => respellFrom spelling s m.stop copied out) := by
  rw [respellFrom]
  rcases next s.bytes i with _ | _ | _ | _ <;> rfl

def respell (spelling : Text → Mark → Option (Option Text)) (s : Text) :
    Option (Except Unclosed Text) :=
  respellFrom spelling s 0 0 []

def unequalSpelling (_ : Text) (m : Mark) : Option (Option Text) :=
  match m.kind with
  | .notEquals | .bangEquals => some (some " neq ".toList)
  | _ => some none

def equalSpelling (_ : Text) (m : Mark) : Option (Option Text) :=
  match m.kind with
  | .equals | .doubleEquals => some (some " eq ".toList)
  | _ => some none

def connectiveSpelling (s : Text) (m : Mark) : Option (Option Text) := do
  if ← isWord? s m "AND".toList then return some "and".toList
  else if ← isWord? s m "OR".toList then return some "or".toList
  else return none

/-- Puts a value in place of each placeholder that is bound. -/
def fill (b : Bindings) (render : Value → Text) (s : Text) : Option Text :=
  splice Placeholder.pattern (fun p => match b.lookup? p.name with
    | some v => render v
    | none => p.text) s

def fillPlaceholdersFrom (b : Bindings) (s : Text) (i copied : Nat) (out : Text) :
    Option (Except Unclosed Text) :=
  match _ : next s.bytes i with
  | none => none
  | some (.unclosed start) => some (.error ⟨start⟩)
  | some .done => do
    let rest ← s.slice? copied s.size
    let rest ← fill b Value.operand rest
    return .ok (out ++ rest)
  | some (.mark m) => do
    if m.kind == .literal then
      let before ← s.slice? copied m.start
      let before ← fill b Value.operand before
      let inner ← contents? s m
      let inner ← fill b Value.inLiteral inner
      fillPlaceholdersFrom b s m.stop m.stop (out ++ before ++ '\'' :: inner ++ ['\''])
    else fillPlaceholdersFrom b s m.stop copied out
termination_by s.bytes.length - i
decreasing_by all_goals
  have := lt_of_next ‹_›
  omega

theorem fillPlaceholdersFrom_unfold (b : Bindings) (s : Text) (i copied : Nat) (out : Text) :
    fillPlaceholdersFrom b s i copied out = (do
    match ← next s.bytes i with
    | .unclosed start => return .error ⟨start⟩
    | .done =>
      let rest ← s.slice? copied s.size
      let rest ← fill b Value.operand rest
      return .ok (out ++ rest)
    | .mark m =>
      if m.kind == .literal then
        let before ← s.slice? copied m.start
        let before ← fill b Value.operand before
        let inner ← contents? s m
        let inner ← fill b Value.inLiteral inner
        fillPlaceholdersFrom b s m.stop m.stop (out ++ before ++ '\'' :: inner ++ ['\''])
      else fillPlaceholdersFrom b s m.stop copied out) := by
  rw [fillPlaceholdersFrom]
  rcases next s.bytes i with _ | _ | _ | _ <;> rfl

def fillPlaceholders (b : Bindings) (s : Text) : Option (Except Unclosed Text) :=
  fillPlaceholdersFrom b s 0 0 []

/-- Reads list items up to the closing parenthesis, whose place is given too. The tokens start
with token `i`, and an item has been read from `first` to `last`. -/
def itemsFrom (s : Text) : List Mark → (i : Nat) → (first : Option Nat) → (last : Nat) →
    List Text → Option (Option (List Text × Nat))
  | [], _, _, _, _ => some none
  | m :: ms, i, first, last, items =>
    match m.kind with
    | .parenLeft => some none
    | .comma =>
      match first with
      | none => some none
      | some start => do
        let item ← s.slice? start last
        itemsFrom s ms (i + 1) none last (items ++ [Text.trim item])
    | .parenRight =>
      match first with
      | none => some none
      | some start => do
        let item ← s.slice? start last
        return some (items ++ [Text.trim item], i)
    | _ => itemsFrom s ms (i + 1) (some (first.getD m.start)) m.stop items

/-- Whether there is a token `i`, spelled `w`. -/
def wordAt? (s : Text) (ms : List Mark) (i : Nat) (w : Text) : Option Bool :=
  match ms[i]? with
  | some m => isWord? s m w
  | none => some false

/-- The items of the list that the word `i` opens, and where they close. -/
def itemsAt? (s : Text) (ms : List Mark) (i : Nat) : Option (Option (List Text × Nat)) := do
  let listed ← wordAt? s ms i "IN".toList
  if listed && ms[i + 1]?.any (·.kind == .parenLeft) then
    itemsFrom s (ms.drop (i + 2)) (i + 2) none 0 []
  else return none

/-- The items behind the column `i`, and where they close. -/
def listAt? (s : Text) (ms : List Mark) (i : Nat) : Option (Option (Bool × List Text × Nat)) := do
  let negated ← wordAt? s ms (i + 1) "NOT".toList
  let found ← itemsAt? s ms (if negated then i + 2 else i + 1)
  return found.map (negated, ·)

section

variable {s : Text} {ms : List Mark} {i last close : Nat} {first : Option Nat} {negated : Bool}
  {items found : List Text}

theorem le_of_itemsFrom (h : itemsFrom s ms i first last items = some (some (found, close))) :
    i ≤ close := by
  induction ms generalizing i first last items with
  | nil => cases h
  | cons m ms ih =>
    simp only [itemsFrom, Option.bind_eq_bind, Option.pure_def] at h
    split at h
    · cases h
    · split at h
      · cases h
      · obtain ⟨item, -, h⟩ := Option.bind_eq_some_iff.mp h
        exact Nat.le_of_succ_le (ih h)
    · split at h
      · cases h
      · obtain ⟨item, -, h⟩ := Option.bind_eq_some_iff.mp h
        cases h
        exact Nat.le_refl _
    · exact Nat.le_of_succ_le (ih h)

theorem le_of_itemsAt? (h : itemsAt? s ms i = some (some (items, close))) : i ≤ close := by
  rw [itemsAt?] at h
  obtain ⟨listed, -, h⟩ := Option.bind_eq_some_iff.mp h
  split at h
  · have := le_of_itemsFrom h
    omega
  · cases h

/-- A list closes behind its column. -/
theorem le_of_listAt? (h : listAt? s ms i = some (some (negated, items, close))) : i ≤ close := by
  rw [listAt?] at h
  obtain ⟨negation, -, h⟩ := Option.bind_eq_some_iff.mp h
  obtain ⟨_ | ⟨items, close⟩, hitems, h⟩ := Option.bind_eq_some_iff.mp h <;> cases h
  have := le_of_itemsAt? hitems
  split at this <;> omega

end

def expandListsFrom (s : Text) (ms : List Mark) (i copied : Nat) (out : Text) :
    Option Text := do
  if i < ms.length then
    let column ← ms[i]?
    let negation ← isWord? s column "NOT".toList
    if column.kind != .word || negation then expandListsFrom s ms (i + 1) copied out
    else
      match _ : listAt? s ms i with
      | none => none
      | some none => expandListsFrom s ms (i + 1) copied out
      | some (some (negated, items, close)) =>
        let name ← source? s column
        let before ← s.slice? copied column.start
        let closing ← ms[close]?
        expandListsFrom s ms (close + 1) closing.stop
          (out ++ before ++ (⟨[], name, negated, items⟩ : Membership).text)
  else
    let rest ← s.slice? copied s.size
    return out ++ rest
termination_by ms.length - i
decreasing_by
  · omega
  · omega
  · have := le_of_listAt? ‹_›
    omega

theorem expandListsFrom_unfold (s : Text) (ms : List Mark) (i copied : Nat) (out : Text) :
    expandListsFrom s ms i copied out = (do
    if i < ms.length then
      let column ← ms[i]?
      let negation ← isWord? s column "NOT".toList
      if column.kind != .word || negation then expandListsFrom s ms (i + 1) copied out
      else
        match ← listAt? s ms i with
        | none => expandListsFrom s ms (i + 1) copied out
        | some (negated, items, close) =>
          let name ← source? s column
          let before ← s.slice? copied column.start
          let closing ← ms[close]?
          expandListsFrom s ms (close + 1) closing.stop
            (out ++ before ++ (⟨[], name, negated, items⟩ : Membership).text)
    else
      let rest ← s.slice? copied s.size
      return out ++ rest) := by
  rw [expandListsFrom]
  rcases listAt? s ms i with _ | _ | ⟨_, _, _⟩ <;> rfl

def expandLists (s : Text) : Option (Except Unclosed Text) := do
  match ← marks s.bytes 0 with
  | .error e => return .error e
  | .ok ms =>
    let t ← expandListsFrom s ms 0 0 []
    return .ok t

end Bytewise

end WhereFilter
