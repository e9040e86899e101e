import WhereFilter.Proofs.Layout.Reads

namespace WhereFilter

open Text

namespace Token

def squash (t : Token) : Token :=
  { t with text := t.text.squash }

theorem blind_isDigit : Blind Char.isDigit :=
  fun _ => of_isGapChar Char.isDigit rfl

theorem blind_isNameChar : Blind isNameChar :=
  fun _ => of_isGapChar isNameChar rfl

/-- The first characters alone decide where a number stops. -/
theorem Stops.number_of_head {n rest rest' : Text} (h : Stops ⟨.number, n⟩ rest)
    (hhead : rest'.head?.any Char.isDigit = rest.head?.any Char.isDigit)
    (hdot : ∀ r', rest' = '.' :: r' →
      ∃ r, rest = '.' :: r ∧ r'.head?.any Char.isDigit = r.head?.any Char.isDigit) :
    Stops ⟨.number, n⟩ rest' := by
  refine ⟨hhead.trans h.1, h.2.imp_right ?_⟩
  intro hd d r' he
  obtain ⟨r, rfl, hr⟩ := hdot _ he
  cases r with
  | nil => simpa using hr
  | cons a r => simpa [hd a r rfl] using hr

theorem solid_numeral {n : Text} (h : Numeral n) : ∀ c ∈ n, isGapChar c = false := by
  intro c hc
  rcases Language.mem_numeral h hc with hd | rfl
  · exact blind_isDigit.solid rfl (u := [c]) (by simpa using hd) c (by simp)
  · rfl

theorem number_squash {c : Char} (hc : c.isDigit = true) (r : Text) :
    number (c :: Text.squash r) = Prod.map id Text.squash (number (c :: r)) := by
  obtain ⟨⟨n, rest⟩, hn⟩ : ∃ found, number (c :: r) = found := ⟨_, rfl⟩
  obtain ⟨hform, hstop⟩ := numeral_number hc hn
  have htext := number_text (c :: r)
  rw [hn] at htext
  have hc : isGapChar c = false := blind_isDigit.solid rfl (u := [c]) (by simpa using hc) c (by simp)
  rw [← squash_solid hc, ← htext, squash_append_of_solid (solid_numeral hform), htext, hn]
  refine number_append hform (hstop.number_of_head (head?_squash_any blind_isDigit rest) ?_)
  intro r' he
  cases rest with
  | nil => cases he
  | cons a rest =>
    cases ha : isGapChar a with
    | true => rw [squash_gap ha] at he; cases he
    | false =>
      rw [squash_solid ha] at he
      cases he
      exact ⟨rest, rfl, head?_squash_any blind_isDigit rest⟩

theorem number_pad {c : Char} (hc : c.isDigit = true) (r : Text) :
    number (c :: pad r) = Prod.map id pad (number (c :: r)) := by
  obtain ⟨⟨n, rest⟩, hn⟩ : ∃ found, number (c :: r) = found := ⟨_, rfl⟩
  obtain ⟨hform, hstop⟩ := numeral_number hc hn
  have htext := number_text (c :: r)
  rw [hn] at htext
  have hhead (t : Text) : (pad t).head?.any Char.isDigit = t.head?.any Char.isDigit := by
    cases t <;> rfl
  rw [← pad_cons, ← htext, pad_append, htext, hn]
  refine number_append hform (hstop.number_of_head (hhead rest) ?_)
  intro r' he
  cases rest with
  | nil => cases he
  | cons a rest =>
    cases he
    exact ⟨rest, rfl, hhead rest⟩

theorem body?_cons {quote c : Char} (hc : c ≠ quote) (s : Text) :
    body? quote (c :: s) = (body? quote s).map fun found => (c :: found.1, found.2) := by
  cases s with
  | nil => simp [body?, hc]
  | cons d s => simp [body?, hc]

theorem body?_run {quote : Char} {g : Text} (hg : quote ∉ g) (s : Text) :
    body? quote (g ++ s) = (body? quote s).map fun found => (g ++ found.1, found.2) := by
  induction g with
  | nil => simp
  | cons c g ih =>
    simp only [List.mem_cons, not_or] at hg
    rw [List.cons_append, body?_cons (Ne.symm hg.1), ih hg.2, Option.map_map]
    rfl

theorem body?_close {quote : Char} {s : Text} (h : s.head? ≠ some quote) :
    body? quote (quote :: s) = some ([quote], s) := by
  cases s with
  | nil => simp [body?]
  | cons d s =>
    have hd : d ≠ quote := by
      rintro rfl
      exact h rfl
    simp [body?, hd]

theorem body?_double (quote : Char) (s : Text) : body? quote (quote :: quote :: s) =
    (body? quote s).map fun found => (quote :: quote :: found.1, found.2) := by
  simp [body?]

theorem head?_squash_ne {a : Char} (ha : isGapChar a = false) {s : Text} (h : s.head? ≠ some a) :
    (Text.squash s).head? ≠ some a := by
  cases s with
  | nil => simp
  | cons c s =>
    cases hc : isGapChar c with
    | false => simpa [squash_solid hc] using h
    | true =>
      rw [squash_gap hc]
      intro he
      cases he
      cases ha

/-- What is read before a run of gaps and the run itself are squashed side by side. -/
theorem squash_run_body {quote : Char} {g s : Text} (hg : IsGap g) (hn : g ≠ [])
    (hs : s.head?.any isGapChar = false) {b rest : Text} (h : body? quote s = some (b, rest)) :
    Text.squash (g ++ b) = ' ' :: Text.squash b := by
  refine squash_run hg hn ?_
  cases b with
  | nil => rfl
  | cons c b =>
    rw [body?_text h] at hs
    simpa using hs

theorem body?_squash {quote : Char} (hq : isGapChar quote = false) (s : Text) :
    body? quote (Text.squash s) = (body? quote s).map (Prod.map Text.squash Text.squash) := by
  -- a doubled quote is read in one step, so the claim is carried for what follows it too
  suffices h : body? quote (Text.squash s) = (body? quote s).map (Prod.map Text.squash Text.squash) ∧
      ∀ r, s = quote :: r →
        body? quote (Text.squash r) = (body? quote r).map (Prod.map Text.squash Text.squash) from h.1
  induction s using squash_induction with
  | nil => exact ⟨rfl, by simp⟩
  | solid c s hc ih =>
    refine ⟨?_, fun r he => by cases he; exact ih.1⟩
    rw [squash_solid hc]
    by_cases hcq : c = quote
    · subst hcq
      by_cases hs : s.head? = some c
      · obtain ⟨r, rfl⟩ := List.head?_eq_some_iff.mp hs
        rw [squash_solid hc, body?_double, body?_double, ih.2 r rfl, Option.map_map, Option.map_map]
        refine Option.map_congr fun found _ => ?_
        simp [Prod.map, squash_solid hc]
      · rw [body?_close hs, body?_close (head?_squash_ne hc hs)]
        simp [Prod.map, squash_solid hc]
    · rw [body?_cons hcq, body?_cons hcq, ih.1, Option.map_map, Option.map_map]
      refine Option.map_congr fun found _ => ?_
      simp [Prod.map, squash_solid hc]
  | gap g s hg hn hs ih =>
    have hquote : quote ∉ g := by
      intro hm
      rw [hg quote hm] at hq
      cases hq
    have hspace : ' ' ≠ quote := by
      rintro rfl
      cases hq
    constructor
    · rw [squash_run hg hn hs, body?_cons hspace, body?_run hquote, ih.1, Option.map_map,
        Option.map_map]
      refine Option.map_congr fun found hfound => ?_
      simp [Prod.map, squash_run_body hg hn hs hfound]
    · intro r he
      cases g with
      | nil => exact absurd rfl hn
      | cons a g =>
        cases he
        simp at hquote

theorem body?_pad {quote : Char} (hq : quote ≠ ' ') (s : Text) :
    body? quote (pad s) = (body? quote s).map (Prod.map id pad) := by
  fun_induction body? quote s with
  | case1 => simp [pad, body?, Ne.symm hq]
  | case2 => simp [pad, body?, Ne.symm hq]
  | case3 c hc => simp [pad, body?, hc, Ne.symm hq]
  | case4 r ih =>
    rw [pad_cons, pad_cons, body?_double, ih, Option.map_map, Option.map_map]
    rfl
  | case5 d r hd =>
    have hhead : (pad (d :: r)).head? ≠ some quote := by simpa using hd
    rw [pad_cons, body?_close hhead]
    rfl
  | case6 c d r hc ih =>
    rw [pad_cons, body?_cons hc, ih, Option.map_map, Option.map_map]
    rfl

theorem solid_sign {spelling : Text} {kind : Kind} (h : (spelling, kind) ∈ signs) :
    ∀ c ∈ spelling, isGapChar c = false := by
  have hall : signs.all (fun row => !row.1.any isGapChar) = true := by decide
  have hrow := List.all_eq_true.mp hall _ h
  exact solid_of_any (by simpa using hrow)

theorem sign?_squash (s : Text) : sign? (Text.squash s) = (sign? s).map (Prod.map squash Text.squash) := by
  refine findSome?_map_eq fun row hrow => ?_
  obtain ⟨spelling, kind⟩ := row
  have hsolid := solid_sign hrow
  dsimp only
  rw [after?_squash hsolid, Option.map_map, Option.map_map]
  refine Option.map_congr fun rest _ => ?_
  simp [Prod.map, squash, squash_of_solid hsolid]

theorem sign?_pad (s : Text) : sign? (pad s) = (sign? s).map (Prod.map id pad) := by
  refine findSome?_map_eq fun row hrow => ?_
  obtain ⟨spelling, kind⟩ := row
  have hsolid := solid_sign hrow
  dsimp only
  rw [after?_pad hsolid, Option.map_map, Option.map_map]
  rfl

theorem read?_squash {c : Char} (hc : isGapChar c = false) (r : Text) :
    read? c (Text.squash r) = (read? c r).map (Prod.map squash Text.squash) := by
  have hsign := sign?_squash (c :: r)
  rw [squash_solid hc] at hsign
  rw [read?, read?, hsign]
  cases sign? (c :: r) with
  | some found => rfl
  | none =>
    simp only [Option.map_none]
    split
    · rw [body?_squash hc, Option.map_map, Option.map_map]
      refine Option.map_congr fun found _ => ?_
      simp [Prod.map, squash, squash_solid hc]
    · split
      · rw [body?_squash hc, Option.map_map, Option.map_map]
        refine Option.map_congr fun found _ => ?_
        simp [Prod.map, squash, squash_solid hc]
      · split
        · have hname := blind_isNameChar.solid rfl (holds_of_mem_takeWhile (l := r))
          rw [takeWhile_squash_of_solid blind_isNameChar rfl, dropWhile_squash blind_isNameChar]
          simp [Prod.map, squash, squash_solid hc, squash_of_solid hname]
        · split
          · next hd =>
            have hform := (numeral_number (r := r) hd Prod.mk.eta.symm).1
            rw [number_squash hd]
            simp [Prod.map, squash, squash_of_solid (solid_numeral hform)]
          · simp [Prod.map, squash, squash_solid hc]

theorem read?_pad {c : Char} (hc : isGapChar c = false) (r : Text) :
    read? c (pad r) = (read? c r).map (Prod.map id pad) := by
  have hsign := sign?_pad (c :: r)
  have hspace : c ≠ ' ' := by
    rintro rfl
    cases hc
  rw [pad_cons] at hsign
  rw [read?, read?, hsign]
  cases sign? (c :: r) with
  | some found => rfl
  | none =>
    simp only [Option.map_none]
    split
    · rw [body?_pad hspace, Option.map_map, Option.map_map]
      rfl
    · split
      · rw [body?_pad hspace, Option.map_map, Option.map_map]
        rfl
      · split
        · obtain ⟨htake, hdrop⟩ := run_of_append isNameChar r (s := [' ']) rfl
          rw [pad, htake, hdrop]
          rfl
        · split
          · next hd =>
            rw [number_pad hd]
            rfl
          · rfl

end Token

namespace Lexeme

def squash (l : Lexeme) : Lexeme :=
  ⟨l.gap.squash, l.token.squash⟩

/-- One more space before the token. -/
def indent (l : Lexeme) : Lexeme :=
  { l with gap := ' ' :: l.gap }

end Lexeme

namespace Scan

def squash (found : Scan) : Scan :=
  ⟨found.lexemes.map Lexeme.squash, found.tail.squash⟩

def pad (found : Scan) : Scan :=
  { found with tail := found.tail.pad }

/-- One more space before the first token. -/
def indent (found : Scan) : Scan :=
  match found.lexemes with
  | [] => { found with tail := ' ' :: found.tail }
  | l :: ls => { found with lexemes := l.indent :: ls }

end Scan

/-- How a text starts when it is squashed. -/
def Step.squash : Step → Step
  | .done gap => .done gap.squash
  | .unclosed gap => .unclosed gap.squash
  | .lexeme l rest => .lexeme l.squash rest.squash

theorem step_squash (s : Text) : step s.squash = (step s).squash := by
  have hblind : Blind Token.isGapChar := fun c hc => by rw [hc]; rfl
  unfold step
  rw [takeWhile_squash hblind, dropWhile_squash hblind]
  cases hrest : s.dropWhile Token.isGapChar with
  | nil => rfl
  | cons c r =>
    have hc : Token.isGapChar c = false := by
      have hh := head?_dropWhile Token.isGapChar s
      rw [hrest] at hh
      simpa using hh
    simp only [squash_solid hc, Token.read?_squash hc]
    cases Token.read? c r <;> rfl

/-- How a text starts when a gap is added behind it. -/
def Step.pad : Step → Step
  | .done gap => .done gap.pad
  | .unclosed gap => .unclosed gap
  | .lexeme l rest => .lexeme l rest.pad

theorem step_pad (s : Text) : step s.pad = (step s).pad := by
  have hgap : ∀ a ∈ s.takeWhile Token.isGapChar, Token.isGapChar a = true := holds_of_mem_takeWhile
  have hs := List.takeWhile_append_dropWhile (p := Token.isGapChar) (l := s)
  cases hrest : s.dropWhile Token.isGapChar with
  | nil =>
    rw [hrest, List.append_nil] at hs
    rw [hs] at hgap
    rw [step_gap hgap, Text.pad, step_gap (IsGap.append hgap isGap_space)]
    rfl
  | cons c r =>
    have hc : Token.isGapChar c = false := by
      have hh := head?_dropWhile Token.isGapChar s
      rw [hrest] at hh
      simpa using hh
    obtain ⟨htake, hdrop⟩ := run_append (r := c :: Text.pad r) hgap (by simpa using hc)
    have hpad : s.pad = s.takeWhile Token.isGapChar ++ c :: Text.pad r := by
      rw [← pad_cons, ← pad_append, ← hrest, hs]
    unfold step
    rw [hpad, htake, hdrop, hrest]
    simp only [Token.read?_pad hc]
    cases Token.read? c r <;> rfl

/-- How a text starts when a space is added before it. -/
def Step.indent : Step → Step
  | .done gap => .done (' ' :: gap)
  | .unclosed gap => .unclosed (' ' :: gap)
  | .lexeme l rest => .lexeme l.indent rest

theorem step_indent (s : Text) : step (' ' :: s) = (step s).indent := by
  have hspace : Token.isGapChar ' ' = true := rfl
  unfold step
  rw [List.takeWhile_cons_of_pos hspace, List.dropWhile_cons_of_pos hspace]
  cases s.dropWhile Token.isGapChar with
  | nil => rfl
  | cons c r =>
    simp only
    cases Token.read? c r <;> rfl

theorem toOption_of_unclosed {s gap : Text} (h : step s = .unclosed gap) :
    (scan s).toOption = none := by
  rw [scan]
  split
  · next hs => rw [hs] at h; cases h
  · rfl
  · next hs => rw [hs] at h; cases h

theorem toOption_of_lexeme {s rest : Text} {l : Lexeme} (h : step s = .lexeme l rest) :
    (scan s).toOption = (scan rest).toOption.map (Scan.cons l) := by
  rw [scan_of_lexeme h]
  cases scan rest <;> rfl

/-- Where each step goes the same way, so does the whole scan. -/
theorem toOption_scan_eq {G T : Text → Text} {L : Lexeme → Lexeme}
    (hdone : ∀ s gap, step s = .done gap → step (G s) = .done (T gap))
    (hunclosed : ∀ s gap, step s = .unclosed gap → ∃ gap', step (G s) = .unclosed gap')
    (hlexeme : ∀ s l rest, step s = .lexeme l rest → step (G s) = .lexeme (L l) (G rest))
    (s : Text) : (scan (G s)).toOption =
      (scan s).toOption.map fun found => ⟨found.lexemes.map L, T found.tail⟩ := by
  induction hn : s.length using Nat.strongRecOn generalizing s with
  | ind n ih =>
    cases hs : step s with
    | done gap =>
      rw [scan_of_done hs, scan_of_done (hdone s gap hs)]
      rfl
    | unclosed gap =>
      obtain ⟨gap', hs'⟩ := hunclosed s gap hs
      rw [toOption_of_unclosed hs, toOption_of_unclosed hs']
      rfl
    | lexeme l rest =>
      rw [toOption_of_lexeme hs, toOption_of_lexeme (hlexeme s l rest hs),
        ih rest.length (hn ▸ step_shorter hs) rest rfl, Option.map_map, Option.map_map]
      rfl

theorem scan_squash (s : Text) : (scan s.squash).toOption = (scan s).toOption.map Scan.squash := by
  refine toOption_scan_eq (fun s gap h => ?_) (fun s gap h => ⟨gap.squash, ?_⟩)
    (fun s l rest h => ?_) s
  all_goals
    rw [step_squash, h]
    rfl

theorem scan_pad (s : Text) : (scan s.pad).toOption = (scan s).toOption.map Scan.pad := by
  have h := toOption_scan_eq (G := Text.pad) (T := Text.pad) (L := id)
    (fun s gap h => by rw [step_pad, h]; rfl) (fun s gap h => ⟨gap, by rw [step_pad, h]; rfl⟩)
    (fun s l rest h => by rw [step_pad, h]; rfl) s
  simp only [List.map_id] at h
  exact h

theorem scan_indent (s : Text) :
    (scan (' ' :: s)).toOption = (scan s).toOption.map Scan.indent := by
  have hstep := step_indent s
  cases hs : step s with
  | done gap =>
    rw [hs] at hstep
    rw [scan_of_done hs, scan_of_done hstep]
    rfl
  | unclosed gap =>
    rw [hs] at hstep
    rw [toOption_of_unclosed hs, toOption_of_unclosed hstep]
    rfl
  | lexeme l rest =>
    rw [hs] at hstep
    rw [toOption_of_lexeme hs, toOption_of_lexeme hstep, Option.map_map]
    rfl

end WhereFilter
