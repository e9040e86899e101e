import WhereFilter.Proofs.Reading.Parts

namespace WhereFilter

/-- The lexeme without the gap before it. -/
def Lexeme.bare (l : Lexeme) : Lexeme :=
  { l with gap := [] }

/-- Whether `f` keeps all that a reading looks at: kinds, and the words and numbers it knows. -/
structure Lexeme.Unread (f : Lexeme → Lexeme) : Prop where
  is (l : Lexeme) (k : Kind) : (f l).is k = l.is k
  isWord (l : Lexeme) {w : Text} : w ∈ ["or".toList, "and".toList, "eq".toList] →
    (f l).isWord w = l.isWord w
  digit (l : Lexeme) {c : Char} : c ∈ ['0', '1'] →
    ((f l).token.text == [c]) = (l.token.text == [c])

theorem Lexeme.unread_bare : Lexeme.Unread Lexeme.bare where
  is _ _ := rfl
  isWord _ _ _ := rfl
  digit _ _ _ := rfl

theorem consFirst_map (f : α → β) (a : α) (ps : List (List α)) :
    consFirst (f a) (ps.map (List.map f)) = (consFirst a ps).map (List.map f) := by
  cases ps <;> rfl

section Unread

variable {f : Lexeme → Lexeme}

/-- Where a list is cut does not depend on what is not read. -/
theorem parts_map (hf : Lexeme.Unread f) {w : Text}
    (hw : w ∈ ["or".toList, "and".toList, "eq".toList]) (d : Nat) (ls : List Lexeme) :
    parts w d (ls.map f) = (parts w d ls).map (List.map f) := by
  induction ls generalizing d with
  | nil => rfl
  | cons l ls ih =>
    simp only [List.map_cons, parts, hf.is, hf.isWord l hw, ih, consFirst_map]
    split
    · rfl
    · split
      · rfl
      · split <;> rfl

theorem heightAfter?_map (hf : Lexeme.Unread f) (h : Nat) (ls : List Lexeme) :
    heightAfter? h (ls.map f) = heightAfter? h ls := by
  induction ls generalizing h with
  | nil => rfl
  | cons l ls ih => cases h <;> simp only [List.map_cons, heightAfter?, hf.is, ih]

theorem depthAfter_map (hf : Lexeme.Unread f) (d : Nat) (ls : List Lexeme) :
    depthAfter d (ls.map f) = depthAfter d ls := by
  induction ls generalizing d with
  | nil => rfl
  | cons l ls ih => simp only [List.map_cons, depthAfter, hf.is, ih]

theorem untilClose?_map (hf : Lexeme.Unread f) (h : Nat) (ls : List Lexeme) :
    untilClose? h (ls.map f) = (untilClose? h ls).map (List.map f) := by
  induction ls generalizing h with
  | nil => rfl
  | cons l ls ih =>
    rcases l.paren_cases with hl | ⟨hl, hr⟩ | ⟨hl, hr⟩
    · simp [untilClose?, hf.is, hl, ih, Function.comp_def]
    · cases h with
      | zero => cases ls <;> simp [untilClose?, hf.is, hl, hr]
      | succ h => simp [untilClose?, hf.is, hl, hr, ih, Function.comp_def]
    · simp [untilClose?, hf.is, hl, hr, ih, Function.comp_def]

theorem inside?_map (hf : Lexeme.Unread f) (ls : List Lexeme) :
    inside? (ls.map f) = (inside? ls).map (List.map f) := by
  cases ls with
  | nil => rfl
  | cons l ls =>
    simp only [List.map_cons, inside?, hf.is, untilClose?_map hf]
    split <;> rfl

theorem marker?_map (hf : Lexeme.Unread f) (ls : List Lexeme) :
    marker? (ls.map f) = marker? ls := by
  match ls with
  | [] | [_] | [_, _] | _ :: _ :: _ :: _ :: _ => rfl
  | [one, eq, other] =>
    simp only [marker?, List.map_cons, List.map_nil, hf.is, hf.isWord eq (w := "eq".toList) (by simp),
      hf.digit one (c := '1') (by simp), hf.digit other (c := '1') (by simp),
      hf.digit other (c := '0') (by simp)]

end Unread

theorem map_attach {l : List α} {f : {x // x ∈ l} → β} {g : α → β} (h : ∀ x hx, f ⟨x, hx⟩ = g x) :
    l.attach.map f = l.map g := by
  have hg : l.map g = l.attach.map fun x => g x.val := by
    conv => lhs; rw [← List.attach_map_subtype_val l]
    rw [List.map_map]
    rfl
  rw [hg]
  exact List.map_congr_left fun ⟨x, hx⟩ _ => h x hx

namespace Reading

/-- A piece is a group, a marker or an atom. -/
def ofPiece (piece : List Lexeme) : Reading :=
  match inside? piece with
  | some inner => .group (ofLexemes inner)
  | none =>
    match marker? piece with
    | some holds => .marker holds
    | none => .atom piece

def ofPart (part : List Lexeme) : Reading :=
  chain .both ((parts "and".toList 0 part).map ofPiece)

theorem ofLexemes_eq (ls : List Lexeme) :
    ofLexemes ls = chain .either ((parts "or".toList 0 ls).map ofPart) := by
  rw [ofLexemes]
  congr 1
  apply map_attach
  intro part hpart
  unfold ofPart
  dsimp only
  congr 1
  apply map_attach
  intro piece hpiece
  unfold ofPiece
  dsimp only
  split
  · next h => rw [h]
  · next h => cases hm : marker? piece <;> simp [h]

theorem chain_cons (join : Reading → Reading → Reading) (r : Reading) {rs : List Reading}
    (h : rs ≠ []) : chain join (r :: rs) = join r (chain join rs) := by
  cases rs with
  | nil => exact absurd rfl h
  | cons s rs => rfl

/-- A reading with other lexemes in its atoms. -/
def map (f : Lexeme → Lexeme) : Reading → Reading
  | .atom ls => .atom (ls.map f)
  | .marker holds => .marker holds
  | .group r => .group (r.map f)
  | .either l r => .either (l.map f) (r.map f)
  | .both l r => .both (l.map f) (r.map f)

theorem map_chain (f : Lexeme → Lexeme) (join : Reading → Reading → Reading)
    (hj : ∀ l r, (join l r).map f = join (l.map f) (r.map f)) (rs : List Reading) :
    (chain join rs).map f = chain join (rs.map (map f)) := by
  induction rs with
  | nil => rfl
  | cons r rs ih =>
    cases rs with
    | nil => rfl
    | cons s rs =>
      rw [List.map_cons, chain_cons join r (List.cons_ne_nil s rs), hj, ih,
        chain_cons join (r.map f) (by simp)]

/-- What is not read has no part in how lexemes are read. -/
theorem ofLexemes_map {f : Lexeme → Lexeme} (hf : Lexeme.Unread f) (ls : List Lexeme) :
    ofLexemes (ls.map f) = (ofLexemes ls).map f := by
  rw [ofLexemes_eq, ofLexemes_eq, map_chain f .either (fun _ _ => rfl), parts_map hf (by simp),
    List.map_map, List.map_map]
  congr 1
  apply List.map_congr_left
  intro part hpart
  have hpl := length_of_mem_parts part hpart
  simp only [Function.comp_apply, ofPart]
  rw [map_chain f .both (fun _ _ => rfl), parts_map hf (by simp), List.map_map, List.map_map]
  congr 1
  apply List.map_congr_left
  intro piece hpiece
  have hpl' := length_of_mem_parts piece hpiece
  simp only [Function.comp_apply, ofPiece, inside?_map hf, marker?_map hf]
  cases hi : inside? piece with
  | some inner =>
    have := inside?_length hi
    simp [map, ofLexemes_map hf inner]
  | none => cases marker? piece <;> rfl
termination_by ls.length

/-- A reading whose atoms have no gaps. -/
def bare : Reading → Reading
  | .atom ls => .atom (ls.map Lexeme.bare)
  | .marker holds => .marker holds
  | .group r => .group r.bare
  | .either l r => .either l.bare r.bare
  | .both l r => .both l.bare r.bare

/-- A reading with other lexemes for those of each atom. -/
def mapAtoms (f : List Lexeme → List Lexeme) : Reading → Reading
  | .atom ls => .atom (f ls)
  | .marker holds => .marker holds
  | .group r => .group (r.mapAtoms f)
  | .either l r => .either (l.mapAtoms f) (r.mapAtoms f)
  | .both l r => .both (l.mapAtoms f) (r.mapAtoms f)

theorem mapAtoms_bare (r : Reading) : r.mapAtoms (List.map Lexeme.bare) = r.bare := by
  induction r with
  | atom | marker => rfl
  | group r ih => simp [mapAtoms, bare, ih]
  | either l r ihl ihr => simp [mapAtoms, bare, ihl, ihr]
  | both l r ihl ihr => simp [mapAtoms, bare, ihl, ihr]

/-- The tokens of a reading, as a text of it has them. -/
def tokens : Reading → List Token
  | .atom ls => ls.map Lexeme.token
  | .marker holds =>
    [⟨.number, ['1']⟩, ⟨.word, "eq".toList⟩, ⟨.number, [if holds then '1' else '0']⟩]
  | .group r => ⟨.parenLeft, ['(']⟩ :: r.tokens ++ [⟨.parenRight, [')']⟩]
  | .either l r => l.tokens ++ ⟨.word, "or".toList⟩ :: r.tokens
  | .both l r => l.tokens ++ ⟨.word, "and".toList⟩ :: r.tokens

/-- The lists of lexemes that are read as atoms. -/
structure IsAtom (ls : List Lexeme) : Prop where
  no_or : parts "or".toList 0 ls = [ls]
  no_and : parts "and".toList 0 ls = [ls]
  no_group : inside? ls = none
  no_marker : marker? ls = none

/-- What lexemes must do with parentheses: inside a group they close what they open, before
a connective they leave none open, and at the end of a text they are free. -/
inductive Place
  | inner | before | last

namespace Place

def Admits : Place → List Lexeme → Prop
  | .inner, ls => heightAfter? 0 ls = some 0
  | .before, ls => depthAfter 0 ls = 0
  | .last, _ => True

/-- The place of what stands before a connective at this place. -/
def left : Place → Place
  | .inner => .inner
  | _ => .before

end Place

/-- A piece stands between connectives, a part between those of the weaker kind. -/
inductive Rank
  | piece | part | whole

/-- Readings that a text of their tokens is read as. -/
inductive Printed : Place → Rank → Reading → Prop
  | atom {p : Place} {ls : List Lexeme} (ha : IsAtom ls) (hp : p.Admits ls) :
    Printed p .piece (.atom ls)
  | marker {p : Place} {holds : Bool} : Printed p .piece (.marker holds)
  | group {p : Place} {r : Reading} (h : Printed .inner .whole r) : Printed p .piece (.group r)
  | both {p : Place} {l r : Reading} (hl : Printed p.left .piece l) (hr : Printed p .part r) :
    Printed p .part (.both l r)
  | either {p : Place} {l r : Reading} (hl : Printed p.left .part l) (hr : Printed p .whole r) :
    Printed p .whole (.either l r)
  | part {p : Place} {r : Reading} (h : Printed p .piece r) : Printed p .part r
  | whole {p : Place} {r : Reading} (h : Printed p .part r) : Printed p .whole r

/-- Tokens with no gaps between them. -/
def unspaced (ts : List Token) : List Lexeme :=
  ts.map fun t => ⟨[], t⟩

@[simp] theorem unspaced_cons (t : Token) (ts : List Token) :
    unspaced (t :: ts) = ⟨[], t⟩ :: unspaced ts := rfl

theorem unspaced_map_token (ls : List Lexeme) :
    unspaced (ls.map Lexeme.token) = ls.map Lexeme.bare := by
  simp [unspaced, Lexeme.bare, Function.comp_def]

section OfTokens

variable {ls ms : List Lexeme} (h : ls.map Lexeme.token = ms.map Lexeme.token)
include h

theorem map_bare_of_tokens : ls.map Lexeme.bare = ms.map Lexeme.bare := by
  rw [← unspaced_map_token, h, unspaced_map_token]

theorem parts_of_tokens {w : Text} (hw : w ∈ ["or".toList, "and".toList, "eq".toList]) {d : Nat}
    (hp : parts w d ms = [ms]) : parts w d ls = [ls] := by
  have hbare : (parts w d ls).map (List.map Lexeme.bare) = [ms.map Lexeme.bare] := by
    rw [← parts_map Lexeme.unread_bare hw, map_bare_of_tokens h, parts_map Lexeme.unread_bare hw,
      hp, List.map_singleton]
  rcases parts_cases w d ls with hps | ⟨p, c, rest, -, -, -, -, -, -, hps⟩
  · exact hps
  · rw [hps, List.map_cons] at hbare
    have hrest : parts w 0 rest = [] := List.map_eq_nil_iff.mp (List.cons.inj hbare).2
    exact absurd hrest (parts_ne_nil w 0 rest)

theorem inside?_of_tokens (hi : inside? ms = none) : inside? ls = none := by
  have hbare := inside?_map Lexeme.unread_bare ls
  rw [map_bare_of_tokens h, inside?_map Lexeme.unread_bare, hi, Option.map_none] at hbare
  exact Option.map_eq_none_iff.mp hbare.symm

theorem marker?_of_tokens : marker? ls = marker? ms := by
  rw [← marker?_map Lexeme.unread_bare, map_bare_of_tokens h, marker?_map Lexeme.unread_bare]

theorem IsAtom.of_tokens (ha : IsAtom ms) : IsAtom ls where
  no_or := parts_of_tokens h (by simp) ha.no_or
  no_and := parts_of_tokens h (by simp) ha.no_and
  no_group := inside?_of_tokens h ha.no_group
  no_marker := (marker?_of_tokens h).trans ha.no_marker

theorem Place.admits_of_tokens {p : Place} (hp : p.Admits ms) : p.Admits ls := by
  have hbare := map_bare_of_tokens h
  cases p with
  | inner =>
    change heightAfter? 0 ls = some 0
    rw [← heightAfter?_map Lexeme.unread_bare, hbare, heightAfter?_map Lexeme.unread_bare]
    exact hp
  | before =>
    change depthAfter 0 ls = 0
    rw [← depthAfter_map Lexeme.unread_bare, hbare, depthAfter_map Lexeme.unread_bare]
    exact hp
  | last => trivial

end OfTokens

theorem Place.depth_of_left {p : Place} {xs : List Lexeme} (h : p.left.Admits xs) :
    depthAfter 0 xs = 0 := by
  cases p with
  | inner => exact depthAfter_of_height h
  | before => exact h
  | last => exact h

theorem Place.admits_append {p : Place} {xs ys : List Lexeme} {c : Lexeme}
    (hl : c.is .parenLeft = false) (hr : c.is .parenRight = false)
    (hx : p.left.Admits xs) (hy : p.Admits ys) : p.Admits (xs ++ c :: ys) := by
  cases p with
  | inner =>
    have hx : heightAfter? 0 xs = some 0 := hx
    have hy : heightAfter? 0 ys = some 0 := hy
    change heightAfter? 0 (xs ++ c :: ys) = some 0
    simp [heightAfter?_append, hx, heightAfter?, hl, hr, hy]
  | before =>
    have hx : depthAfter 0 xs = 0 := hx
    have hy : depthAfter 0 ys = 0 := hy
    change depthAfter 0 (xs ++ c :: ys) = 0
    simp [depthAfter_append, hx, depthAfter, hl, hr, hy]
  | last => trivial

theorem Place.admits_group {p : Place} {xs : List Lexeme} {o c : Lexeme}
    (ho : o.is .parenLeft = true) (hl : c.is .parenLeft = false) (hr : c.is .parenRight = true)
    (hx : heightAfter? 0 xs = some 0) : p.Admits (o :: xs ++ [c]) := by
  have hh : heightAfter? 0 (o :: xs ++ [c]) = some 0 := by
    have h1 := heightAfter?_add hx 1
    simp only [Nat.zero_add] at h1
    simp [heightAfter?, ho, heightAfter?_append, h1, hl, hr]
  cases p with
  | inner => exact hh
  | before => exact depthAfter_of_height hh
  | last => trivial

theorem parts_group {xs : List Lexeme} {o c : Lexeme} (w : Text)
    (ho : o.is .parenLeft = true) (hl : c.is .parenLeft = false) (hr : c.is .parenRight = true)
    (hx : heightAfter? 0 xs = some 0) : parts w 0 (o :: xs ++ [c]) = [o :: xs ++ [c]] := by
  have h : parts w 1 (xs ++ [c]) = [xs ++ [c]] := by
    rw [parts_append_of_height hx]
    simp [parts, hl, hr, consFirst, foldr_consFirst]
  simp [parts, ho, h, consFirst]

/-- A part goes on behind a connective that does not cut it. -/
theorem parts_append_of_ne {w : Text} {xs ys : List Lexeme} {c : Lexeme}
    (hl : c.is .parenLeft = false) (hr : c.is .parenRight = false) (hw : c.isWord w = false)
    (hx : parts w 0 xs = [xs]) (hd : depthAfter 0 xs = 0) (hy : parts w 0 ys = [ys]) :
    parts w 0 (xs ++ c :: ys) = [xs ++ c :: ys] := by
  rw [parts_append hx, hd]
  simp [parts, hl, hr, hw, hy, consFirst, foldr_consFirst]

theorem parts_append_of_eq {w : Text} {xs ys : List Lexeme} {c : Lexeme}
    (hl : c.is .parenLeft = false) (hr : c.is .parenRight = false) (hw : c.isWord w = true)
    (hx : parts w 0 xs = [xs]) (hd : depthAfter 0 xs = 0) :
    parts w 0 (xs ++ c :: ys) = xs :: parts w 0 ys := by
  rw [parts_append hx, hd]
  simp [parts, hl, hr, hw, foldr_consFirst]

/-- `ls` is read as `r` where the rank says what it stands between. -/
def Parses : Rank → List Lexeme → Reading → Prop
  | .piece, ls, r => parts "or".toList 0 ls = [ls] ∧ parts "and".toList 0 ls = [ls] ∧ ofPiece ls = r
  | .part, ls, r => parts "or".toList 0 ls = [ls] ∧ ofPart ls = r
  | .whole, ls, r => ofLexemes ls = r

theorem ofPiece_of_inside? {ls inner : List Lexeme} (h : inside? ls = some inner) :
    ofPiece ls = .group (ofLexemes inner) := by
  simp [ofPiece, h]

theorem ofPart_of_piece {ls : List Lexeme} (h : parts "and".toList 0 ls = [ls]) :
    ofPart ls = ofPiece ls := by
  rw [ofPart, h]
  rfl

theorem ofLexemes_of_part {ls : List Lexeme} (h : parts "or".toList 0 ls = [ls]) :
    ofLexemes ls = ofPart ls := by
  rw [ofLexemes_eq, h]
  rfl

/-- Lexemes that a reading is written with: its tokens, and of its atoms at least what `f`
makes of them. -/
inductive Writes (f : List Lexeme → List Lexeme) : Reading → List Lexeme → Prop
  | atom {as ls : List Lexeme} (h : f ls = f as) : Writes f (.atom as) ls
  | marker {holds : Bool} {ls : List Lexeme} (h : ls.map Lexeme.token = (marker holds).tokens) :
    Writes f (.marker holds) ls
  | group {r : Reading} {ls : List Lexeme} {o c : Lexeme} (ho : o.token = ⟨.parenLeft, ['(']⟩)
    (h : Writes f r ls) (hc : c.token = ⟨.parenRight, [')']⟩) : Writes f (.group r) (o :: ls ++ [c])
  | either {l r : Reading} {xs ys : List Lexeme} {c : Lexeme} (hl : Writes f l xs)
    (hc : c.token = ⟨.word, "or".toList⟩) (hr : Writes f r ys) : Writes f (.either l r) (xs ++ c :: ys)
  | both {l r : Reading} {xs ys : List Lexeme} {c : Lexeme} (hl : Writes f l xs)
    (hc : c.token = ⟨.word, "and".toList⟩) (hr : Writes f r ys) : Writes f (.both l r) (xs ++ c :: ys)

theorem writes_of_tokens {r : Reading} {ls : List Lexeme} (h : ls.map Lexeme.token = r.tokens) :
    Writes (List.map Lexeme.bare) r ls := by
  have joined {ls : List Lexeme} {ts us : List Token} {t : Token}
      (h : ls.map Lexeme.token = ts ++ t :: us) :
      ∃ xs c ys, ls = xs ++ c :: ys ∧ xs.map Lexeme.token = ts ∧ c.token = t ∧
        ys.map Lexeme.token = us := by
    obtain ⟨xs, rest, rfl, hx, hrest⟩ := List.map_eq_append_iff.mp h
    obtain ⟨c, ys, rfl, hc, hy⟩ := List.map_eq_cons_iff.mp hrest
    exact ⟨xs, c, ys, rfl, hx, hc, hy⟩
  induction r generalizing ls with
  | atom as => exact .atom (map_bare_of_tokens h)
  | marker holds => exact .marker h
  | group r ih =>
    obtain ⟨o, rest, rfl, ho, hrest⟩ := List.map_eq_cons_iff.mp h
    obtain ⟨xs, c, ys, rfl, hx, hc, hy⟩ := joined hrest
    obtain rfl : ys = [] := List.map_eq_nil_iff.mp hy
    exact .group ho (ih hx) hc
  | either l r ihl ihr =>
    obtain ⟨xs, c, ys, rfl, hx, hc, hy⟩ := joined h
    exact .either (ihl hx) hc (ihr hy)
  | both l r ihl ihr =>
    obtain ⟨xs, c, ys, rfl, hx, hc, hy⟩ := joined h
    exact .both (ihl hx) hc (ihr hy)

/-- The three tokens of a marker are read as a marker. -/
theorem parses_marker {p : Place} {holds : Bool} {ls : List Lexeme}
    (h : ls.map Lexeme.token = (marker holds).tokens) :
    p.Admits ls ∧ Parses .piece ls (.marker holds) := by
  have ht : ls.map Lexeme.token = (unspaced (marker holds).tokens).map Lexeme.token := by
    simpa [unspaced, Function.comp_def] using h
  have hor : parts "or".toList 0 (unspaced (marker holds).tokens) =
      [unspaced (marker holds).tokens] := by
    cases holds <;> rfl
  have hand : parts "and".toList 0 (unspaced (marker holds).tokens) =
      [unspaced (marker holds).tokens] := by
    cases holds <;> rfl
  have hinside : inside? (unspaced (marker holds).tokens) = none := by
    cases holds <;> rfl
  have hmarker : marker? (unspaced (marker holds).tokens) = some holds := by
    cases holds <;> rfl
  have hadmits : p.Admits (unspaced (marker holds).tokens) := by
    cases p <;> cases holds <;> first | rfl | trivial
  refine ⟨Place.admits_of_tokens ht hadmits, parts_of_tokens ht (by simp) hor,
    parts_of_tokens ht (by simp) hand, ?_⟩
  simp only [ofPiece, inside?_of_tokens ht hinside, marker?_of_tokens ht, hmarker]

section

variable {xs ys : List Lexeme} {l r : Reading}

theorem parses_group {o c : Lexeme} (ho : o.is .parenLeft = true) (hl : c.is .parenLeft = false)
    (hr : c.is .parenRight = true) (hh : heightAfter? 0 xs = some 0) (h : Parses .whole xs r) :
    Parses .piece (o :: xs ++ [c]) (.group r) := by
  have hi : inside? (o :: xs ++ [c]) = some xs :=
    inside?_eq_some_iff.mpr ⟨o, c, rfl, ho, hl, hr, hh⟩
  exact ⟨parts_group _ ho hl hr hh, parts_group _ ho hl hr hh,
    (ofPiece_of_inside? hi).trans (congrArg Reading.group h)⟩

theorem connective_word {c : Lexeme} {w : Text} (hc : c.token = ⟨.word, w⟩) :
    c.is .parenLeft = false ∧ c.is .parenRight = false ∧
      ∀ v, c.isWord v = (Text.lower w == Text.lower v) := by
  simp [Lexeme.is, Lexeme.isWord, Token.isWord, hc]

theorem parses_both {c : Lexeme} (hc : c.token = ⟨.word, "and".toList⟩)
    (hd : depthAfter 0 xs = 0) (hl : Parses .piece xs l) (hr : Parses .part ys r) :
    Parses .part (xs ++ c :: ys) (.both l r) := by
  obtain ⟨hxor, hxand, hx⟩ := hl
  obtain ⟨hyor, hy⟩ := hr
  obtain ⟨hcl, hcr, hcw⟩ := connective_word hc
  have hor : c.isWord "or".toList = false := hcw _
  have hand : c.isWord "and".toList = true := hcw _
  refine ⟨parts_append_of_ne hcl hcr hor hxor hd hyor, ?_⟩
  rw [ofPart, parts_append_of_eq hcl hcr hand hxand hd, List.map_cons,
    chain_cons _ _ (by simp [parts_ne_nil]), hx, ← hy, ofPart]

theorem parses_either {c : Lexeme} (hc : c.token = ⟨.word, "or".toList⟩)
    (hd : depthAfter 0 xs = 0) (hl : Parses .part xs l) (hr : Parses .whole ys r) :
    Parses .whole (xs ++ c :: ys) (.either l r) := by
  obtain ⟨hxor, hx⟩ := hl
  obtain ⟨hcl, hcr, hcw⟩ := connective_word hc
  have hor : c.isWord "or".toList = true := hcw _
  have hy : ofLexemes ys = r := hr
  rw [Parses, ofLexemes_eq, parts_append_of_eq hcl hcr hor hxor hd, List.map_cons,
    chain_cons _ _ (by simp [parts_ne_nil]), hx, ← ofLexemes_eq, hy]

end

/-- What a printed reading is written with is read as that reading, as far as `f` tells atoms
apart. -/
theorem Printed.parses {f : List Lexeme → List Lexeme}
    (hf : ∀ ls ms, f ls = f ms → ls.map Lexeme.token = ms.map Lexeme.token) {p : Place} {k : Rank}
    {r : Reading} (h : Printed p k r) {ls : List Lexeme} (hw : Writes f r ls) :
    p.Admits ls ∧ ∃ r', Parses k ls r' ∧ r'.mapAtoms f = r.mapAtoms f := by
  induction h generalizing ls with
  | @atom p as ha hp =>
    cases hw with
    | atom hs =>
      have ht := hf _ _ hs
      have hatom := ha.of_tokens ht
      refine ⟨Place.admits_of_tokens ht hp, .atom ls, ⟨hatom.no_or, hatom.no_and, ?_⟩,
        congrArg Reading.atom hs⟩
      simp only [ofPiece, hatom.no_group, hatom.no_marker]
  | @marker p holds =>
    cases hw with
    | marker ht =>
      obtain ⟨hadmits, hparses⟩ := parses_marker (p := p) ht
      exact ⟨hadmits, .marker holds, hparses, rfl⟩
  | @group p r h ih =>
    cases hw with
    | @group _ inner o c ho hin hc =>
      obtain ⟨hh, r', hr', hs⟩ := ih hin
      have hol : o.is .parenLeft = true := by simp [Lexeme.is, ho]
      have hcl : c.is .parenLeft = false := by simp [Lexeme.is, hc]
      have hcr : c.is .parenRight = true := by simp [Lexeme.is, hc]
      exact ⟨Place.admits_group hol hcl hcr hh, .group r', parses_group hol hcl hcr hh hr',
        congrArg Reading.group hs⟩
  | @both p l r _ _ ihl ihr =>
    cases hw with
    | @both _ _ xs ys c hl hc hr =>
      obtain ⟨hla, l', hl', hls⟩ := ihl hl
      obtain ⟨hra, r', hr', hrs⟩ := ihr hr
      obtain ⟨hcl, hcr, -⟩ := connective_word hc
      exact ⟨Place.admits_append hcl hcr hla hra, .both l' r',
        parses_both hc (Place.depth_of_left hla) hl' hr', congrArg₂ Reading.both hls hrs⟩
  | @either p l r _ _ ihl ihr =>
    cases hw with
    | @either _ _ xs ys c hl hc hr =>
      obtain ⟨hla, l', hl', hls⟩ := ihl hl
      obtain ⟨hra, r', hr', hrs⟩ := ihr hr
      obtain ⟨hcl, hcr, -⟩ := connective_word hc
      exact ⟨Place.admits_append hcl hcr hla hra, .either l' r',
        parses_either hc (Place.depth_of_left hla) hl' hr', congrArg₂ Reading.either hls hrs⟩
  | part _ ih =>
    obtain ⟨ha, r', ⟨hor, hand, hp⟩, hs⟩ := ih hw
    exact ⟨ha, r', ⟨hor, (ofPart_of_piece hand).trans hp⟩, hs⟩
  | whole _ ih =>
    obtain ⟨ha, r', ⟨hor, hp⟩, hs⟩ := ih hw
    exact ⟨ha, r', (ofLexemes_of_part hor).trans hp, hs⟩

theorem Printed.mapAtoms_ofLexemes {f : List Lexeme → List Lexeme}
    (hf : ∀ ls ms, f ls = f ms → ls.map Lexeme.token = ms.map Lexeme.token) {p : Place}
    {r : Reading} (h : Printed p .whole r) {ls : List Lexeme} (hw : Writes f r ls) :
    (ofLexemes ls).mapAtoms f = r.mapAtoms f := by
  obtain ⟨-, r', hp, hs⟩ := h.parses hf hw
  have hr' : ofLexemes ls = r' := hp
  rw [hr', hs]

/-- A text that has the tokens of a printed reading is read as that reading. -/
theorem Printed.bare_ofLexemes {p : Place} {r : Reading} (h : Printed p .whole r)
    {ls : List Lexeme} (hl : ls.map Lexeme.token = r.tokens) : (ofLexemes ls).bare = r.bare := by
  rw [← mapAtoms_bare, ← mapAtoms_bare]
  apply h.mapAtoms_ofLexemes _ (writes_of_tokens hl)
  intro ls ms hbare
  have htoken : Lexeme.token ∘ Lexeme.bare = Lexeme.token := rfl
  rw [← htoken, ← List.map_map, hbare, List.map_map]

theorem Place.admits_of_append {p : Place} {xs ys : List Lexeme} {c : Lexeme}
    (hl : c.is .parenLeft = false) (hr : c.is .parenRight = false) (hd : depthAfter 0 xs = 0)
    (h : p.Admits (xs ++ c :: ys)) : p.left.Admits xs ∧ p.Admits ys := by
  cases p with
  | inner =>
    have h : heightAfter? 0 (xs ++ c :: ys) = some 0 := h
    rw [heightAfter?_append] at h
    obtain ⟨k, hk, hy⟩ := Option.bind_eq_some_iff.mp h
    have hk0 : k = 0 := (depthAfter_of_height hk).symm.trans hd
    subst hk0
    simp only [heightAfter?, hl, hr, Bool.false_eq_true, if_false] at hy
    exact ⟨hk, hy⟩
  | before =>
    have h : depthAfter 0 (xs ++ c :: ys) = 0 := h
    simp only [depthAfter_append, hd, depthAfter, hl, hr, Bool.false_eq_true, if_false] at h
    exact ⟨hd, h⟩
  | last => exact ⟨hd, trivial⟩

theorem parts_of_append_ne {w : Text} {xs ys : List Lexeme} {c : Lexeme}
    (hl : c.is .parenLeft = false) (hr : c.is .parenRight = false) (hd : depthAfter 0 xs = 0)
    (h : parts w 0 (xs ++ c :: ys) = [xs ++ c :: ys]) :
    parts w 0 xs = [xs] ∧ parts w 0 ys = [ys] := by
  obtain ⟨hx, hy⟩ := parts_of_append h
  refine ⟨hx, ?_⟩
  simp only [hd, parts, hl, hr, Bool.false_eq_true, if_false] at hy
  split at hy
  · cases hy
  · exact consFirst_eq_singleton (parts_ne_nil w 0 ys) hy

theorem printed_ofPiece {p : Place} {ls : List Lexeme} (hor : parts "or".toList 0 ls = [ls])
    (hand : parts "and".toList 0 ls = [ls]) (ha : p.Admits ls)
    (ih : ∀ inner, inner.length < ls.length → Place.inner.Admits inner →
      Printed .inner .whole (ofLexemes inner)) : Printed p .piece (ofPiece ls) := by
  unfold ofPiece
  split
  · next inner hi =>
    obtain ⟨o, c, -, -, -, -, hh⟩ := inside?_eq_some_iff.mp hi
    exact .group (ih inner (inside?_length hi) hh)
  · next hg =>
    split
    · exact .marker
    · next hm => exact .atom ⟨hor, hand, hg, hm⟩ ha

theorem printed_ofPart {p : Place} {ls : List Lexeme} (hor : parts "or".toList 0 ls = [ls])
    (ha : p.Admits ls)
    (ih : ∀ inner, inner.length < ls.length → Place.inner.Admits inner →
      Printed .inner .whole (ofLexemes inner)) : Printed p .part (ofPart ls) := by
  rcases parts_cases "and".toList 0 ls with hand | ⟨x, c, ys, rfl, hl, hr, hw, hx, hd, hps⟩
  · rw [ofPart_of_piece hand]
    exact .part (printed_ofPiece hor hand ha ih)
  · obtain ⟨hxa, hya⟩ := Place.admits_of_append hl hr hd ha
    obtain ⟨hxor, hyor⟩ := parts_of_append_ne hl hr hd hor
    have hlx : x.length < (x ++ c :: ys).length := by simp
    have hly : ys.length < (x ++ c :: ys).length := by simp; omega
    rw [ofPart, hps, List.map_cons, chain_cons _ _ (by simp [parts_ne_nil])]
    refine .both (printed_ofPiece hxor hx hxa ?_) (printed_ofPart hyor hya ?_)
    · exact fun inner hi => ih inner (Nat.lt_trans hi hlx)
    · exact fun inner hi => ih inner (Nat.lt_trans hi hly)
termination_by ls.length

/-- Whatever a text is read as, a text of the same tokens is read as. -/
theorem printed_ofLexemes {p : Place} {ls : List Lexeme} (ha : p.Admits ls) :
    Printed p .whole (ofLexemes ls) := by
  have ih (inner : List Lexeme) (hi : inner.length < ls.length) (hin : Place.inner.Admits inner) :
      Printed .inner .whole (ofLexemes inner) := printed_ofLexemes hin
  rcases parts_cases "or".toList 0 ls with hor | ⟨x, c, ys, rfl, hl, hr, hw, hx, hd, hps⟩
  · rw [ofLexemes_of_part hor]
    exact .whole (printed_ofPart hor ha ih)
  · obtain ⟨hxa, hya⟩ := Place.admits_of_append hl hr hd ha
    have hlx : x.length < (x ++ c :: ys).length := by simp
    have hly : ys.length < (x ++ c :: ys).length := by simp; omega
    rw [ofLexemes_eq, hps, List.map_cons, chain_cons _ _ (by simp [parts_ne_nil]), ← ofLexemes_eq]
    refine .either (printed_ofPart hx hxa ?_) (printed_ofLexemes hya)
    exact fun inner hi => ih inner (Nat.lt_trans hi hlx)
termination_by ls.length

end Reading

end WhereFilter
