import WhereFilter.Proofs.Rule.Filled

namespace WhereFilter

open Token Placeholder

/-- The contents of the double quotes, in order, of a text without a literal. -/
inductive Quotes : List Text → Text → Prop
  | nil : Quotes [] []
  | plain {c : Char} {xs : List Text} {s : Text} (hc : isQuote c = false) (h : Quotes xs s) :
      Quotes xs (c :: s)
  | quoted {x : Text} {xs : List Text} {s : Text} (hx : Paired '"' x) (h : Quotes xs s) :
      Quotes (x :: xs) ('"' :: x ++ '"' :: s)

theorem Quotes.of_plain {s : Text} (h : ∀ c ∈ s, isQuote c = false) : Quotes [] s := by
  induction s with
  | nil => exact .nil
  | cons c s ih => exact .plain (h c (by simp)) (ih fun a ha => h a (List.mem_cons_of_mem c ha))

theorem Quotes.append {xs ys : List Text} {s t : Text} (hs : Quotes xs s) (ht : Quotes ys t) :
    Quotes (xs ++ ys) (s ++ t) := by
  induction hs with
  | nil => exact ht
  | plain hc _ ih => exact .plain hc ih
  | quoted hx _ ih =>
    have h := Quotes.quoted hx ih
    simpa using h

/-- The contents of the double quotes of a text taken apart at its literals. -/
inductive Laid : List Text → Stretches → Prop
  | lead {xs : List Text} {w : Text} (h : Quotes xs w) : Laid xs ⟨w, []⟩
  | literal {xs ys : List Text} {w x after : Text} {rest : List (Text × Text)} (h : Quotes xs w)
      (hx : Paired '\'' x) (hr : Laid ys ⟨after, rest⟩) : Laid (xs ++ ys) ⟨w, (x, after) :: rest⟩

theorem Laid.lengthen {xs ys : List Text} {w : Text} {st : Stretches} (hw : Quotes xs w)
    (h : Laid ys st) : Laid (xs ++ ys) { st with lead := w ++ st.lead } := by
  cases h with
  | lead h => exact .lead (hw.append h)
  | literal h hx hr =>
    have hl := Laid.literal (hw.append h) hx hr
    rwa [List.append_assoc] at hl

def quotedContents (ls : List Lexeme) : List Text :=
  (ls.filter (·.is .quoted)).map (·.token.contents)

theorem quotes_of_formed {l : Lexeme} (hg : IsGap l.gap) (hf : l.token.Formed)
    (hl : l.is .literal = false) : Quotes (quotedContents [l]) l.text := by
  have hgap := Quotes.of_plain hg.not_isQuote
  obtain ⟨gap, kind, text⟩ := l
  by_cases hk : kind = .quoted
  · subst hk
    obtain ⟨x, hx, rfl⟩ := hf
    have hq := hgap.append (.quoted hx .nil)
    simpa [quotedContents, Lexeme.is, contents, Lexeme.text] using hq
  · have hcontents : quotedContents [⟨gap, kind, text⟩] = [] := by
      simp [quotedContents, Lexeme.is, hk]
    rw [hcontents]
    have hlit : kind ≠ .literal := by simpa [Lexeme.is] using hl
    have htext : ∀ c ∈ text, isQuote c = false := Token.isQuote_of_formed hf hlit hk
    have hq := hgap.append (.of_plain htext)
    simpa [Lexeme.text] using hq

theorem laid_ofLexemes {ls : List Lexeme} {tail : Text} (hf : Fit ls tail) (ht : IsGap tail) :
    Laid (quotedContents ls) (Stretches.ofLexemes tail ls) := by
  induction ls with
  | nil => exact .lead (.of_plain ht.not_isQuote)
  | cons l ls ih =>
    obtain ⟨hg, hform, -, hrest⟩ := hf
    have hlaid := ih hrest
    have hcons : quotedContents (l :: ls) = quotedContents [l] ++ quotedContents ls := by
      rw [quotedContents, quotedContents, quotedContents, ← List.map_append, ← List.filter_append]
      rfl
    rw [hcons, Stretches.ofLexemes]
    cases hl : l.is .literal with
    | true =>
      obtain ⟨gap, kind, text⟩ := l
      simp only [Lexeme.is, beq_iff_eq] at hl
      subst hl
      obtain ⟨x, hx, rfl⟩ := hform
      have hlit := Laid.literal (.of_plain hg.not_isQuote) hx hlaid
      simpa [quotedContents, Lexeme.is, contents] using hlit
    | false => exact hlaid.lengthen (quotes_of_formed hg hform hl)

section

variable {b c : Bindings} (hb : b.AllText) (hc : c.AllText) (hs : b.SameNames c)

include hb hc hs

/-- A placeholder has a value in both bindings or in neither. -/
theorem lookup?_cases (n : Text) :
    (∃ t u, b.lookup? n = some (.text t) ∧ c.lookup? n = some (.text u)) ∨
      b.lookup? n = none ∧ c.lookup? n = none := by
  have hbinds := hs.binds n
  simp only [Bindings.binds] at hbinds
  cases hbn : b.lookup? n with
  | none =>
    rw [hbn] at hbinds
    exact .inr ⟨rfl, by simpa using hbinds.symm⟩
  | some v =>
    rw [hbn] at hbinds
    obtain ⟨w, hcn⟩ := Option.isSome_iff_exists.mp hbinds.symm
    obtain ⟨t, rfl⟩ := hb.lookup hbn
    obtain ⟨u, rfl⟩ := hc.lookup hcn
    exact .inl ⟨t, u, rfl, hcn⟩

theorem alike_fill_plain {u : Text} (hu : ∀ a ∈ u, isQuote a = false) :
    Alike 0 (fill b Value.operand u) (fill c Value.operand u) := by
  rw [fill_eq_write, fill_eq_write]
  induction hl : u.length using Nat.strongRecOn generalizing u with
  | _ n ih =>
    subst hl
    rcases segments_cases u with rfl | ⟨a, r, rfl, -, hg⟩ | ⟨p, r, rfl, -, hg⟩
    · exact .nil
    · rw [hg]
      exact .plain (hu a (by simp)) (ih _ (by simp) (fun a ha => hu a (by simp [ha])) rfl)
    · have hlen := List.length_pos_iff.mpr (text_ne_nil p)
      have hrest := ih _ (by simp; omega) (u := r) (fun a ha => hu a (by simp [ha])) rfl
      have hhead : Alike 0 (written b Value.operand p) (written c Value.operand p) := by
        rcases lookup?_cases hb hc hs p.name with ⟨t, v, ht, hv⟩ | ⟨ht, hv⟩
        · simp only [written, ht, hv]
          exact .unit rfl (Value.paired_doubleQuotes t) (Value.paired_doubleQuotes v) .nil
        · simp only [written, ht, hv]
          exact .refl fun a ha => hu a (by simp [ha])
      rw [hg]
      exact hhead.append hrest

theorem alike_fill_quotes (cost : Text → Nat) {xs : List Text} {w : Text} (hw : Quotes xs w)
    (hx : ∀ x ∈ xs, Alike (cost x) ('"' :: fill b Value.operand x ++ ['"'])
      ('"' :: fill c Value.operand x ++ ['"'])) :
    Alike (xs.map cost).sum (fill b Value.operand w) (fill c Value.operand w) := by
  -- a placeholder may start in the characters before a quote
  suffices hall : ∀ u, (∀ a ∈ u, isQuote a = false) →
      Alike (xs.map cost).sum (fill b Value.operand (u ++ w)) (fill c Value.operand (u ++ w)) from
    hall [] (by simp)
  induction hw with
  | nil =>
    intro u hu
    rw [List.append_nil]
    exact alike_fill_plain hb hc hs hu
  | @plain a xs s ha _ ih =>
    intro u hu
    have hua : ∀ d ∈ u ++ [a], isQuote d = false := by
      intro d hd
      rcases List.mem_append.mp hd with hd | hd
      · exact hu d hd
      · rw [List.mem_singleton.mp hd]
        exact ha
    have h := ih hx (u ++ [a]) hua
    rwa [List.append_assoc] at h
  | @quoted x xs s _ _ ih =>
    intro u hu
    have hfill (d : Bindings) : fill d Value.operand (u ++ ('"' :: x ++ '"' :: s)) =
        fill d Value.operand u ++ (('"' :: fill d Value.operand x ++ ['"']) ++
          fill d Value.operand s) := by
      rw [List.cons_append, fill_barrier d _ u _ rfl, fill_barrier d _ x s rfl]
      simp
    have hrest := ih (fun y hy => hx y (List.mem_cons_of_mem x hy)) [] (by simp)
    have h := (alike_fill_plain hb hc hs hu).append ((hx x (by simp)).append hrest)
    rw [hfill, hfill]
    simpa using h

theorem alike_fill (cost : Text → Nat) {xs : List Text} {st : Stretches} (hl : Laid xs st)
    (hx : ∀ x ∈ xs, Alike (cost x) ('"' :: fill b Value.operand x ++ ['"'])
      ('"' :: fill c Value.operand x ++ ['"'])) :
    Alike (xs.map cost).sum (st.fill b) (st.fill c) := by
  induction hl with
  | lead hw =>
    have h := alike_fill_quotes hb hc hs cost hw hx
    simpa [Stretches.fill] using h
  | @literal xs ys w x after rest hw hp _ ih =>
    have hlead := alike_fill_quotes hb hc hs cost hw fun y hy => hx y (List.mem_append_left ys hy)
    have hrest := ih fun y hy => hx y (List.mem_append_right xs hy)
    have hunit : Alike _ _ _ :=
      .unit (q := '\'') rfl (paired_fill_inLiteral b hp) (paired_fill_inLiteral c hp) hrest
    have h := hlead.append hunit
    simpa [Stretches.fill] using h

end

/-- A value with a double quote in it closes the double quotes that its placeholder stands in. -/
theorem alike_split (b : Bindings) {ss : List (Segment Char Placeholder)} (h : Woven '"' ss)
    {z z' : Text} (hz : Paired '"' z) (hz' : Paired '"' z') :
    Alike (boundIn b ss)
      ('"' :: z ++ (write (b.withValue (.text [])) Value.operand ss ++ ['"']))
      ('"' :: z' ++ (write (b.withValue (.text ['"', ' ', '"'])) Value.operand ss ++ ['"'])) := by
  induction h generalizing z z' with
  | nil => exact .unit rfl hz hz' .nil
  | pair _ ih =>
    have h := ih (hz.append (.pair .nil)) (hz'.append (.pair .nil))
    simpa [write, boundIn] using h
  | @plain c ss hc _ ih =>
    have h := ih (hz.append (.plain hc .nil)) (hz'.append (.plain hc .nil))
    simpa [write, boundIn] using h
  | @hit p ss hp _ ih =>
    cases hb : b.lookup? p.name with
    | none =>
      have h := ih (hz.append (.of_not_mem hp)) (hz'.append (.of_not_mem hp))
      simpa [write, written, Bindings.lookup?_withValue, boundIn, Bindings.binds, hb] using h
    | some w =>
      have hquote : Paired '"' ['\''] := .of_not_mem (by decide)
      have h := ih (hz.append (hquote.append hquote)) hquote
      have hsplit := Alike.split (hz'.append hquote) h
      simpa [write, written, Bindings.lookup?_withValue, boundIn, Bindings.binds, hb,
        Value.operand, Value.inLiteral, Value.doubleQuotes, Nat.add_comm] using hsplit

/-- The kinds of the tokens that `s` has once it is filled. -/
def filledKinds (b : Bindings) (s : Text) : Except Unclosed (List Kind) :=
  (fillPlaceholders b s).bind fun t => (tokensOf t).map fun ts => ts.map Token.kind

/-- Both fillings can be read, as tokens of the same kinds. -/
def SameKinds (b c : Bindings) (s : Text) : Prop :=
  ∃ ks, filledKinds b s = .ok ks ∧ filledKinds c s = .ok ks

theorem paired_of_mem_quotedContents {ls : List Lexeme} {tail x : Text} (hf : Fit ls tail)
    (hx : x ∈ quotedContents ls) : Paired '"' x := by
  simp only [quotedContents, List.mem_map, List.mem_filter] at hx
  obtain ⟨l, ⟨hl, hk⟩, rfl⟩ := hx
  have hq := hf.formed_of_mem hl
  obtain ⟨gap, kind, text⟩ := l
  simp only [Lexeme.is, beq_iff_eq] at hk
  subst hk
  obtain ⟨b, hb, rfl⟩ := hq
  simpa [contents] using hb

theorem filledKinds_of_scan {s : Text} {b : Bindings} {found : Scan} {ts : List Token}
    (hs : scan s = .ok found)
    (ht : tokensOf ((Stretches.ofLexemes found.tail found.lexemes).fill b) = .ok ts) :
    filledKinds b s = .ok (ts.map Token.kind) := by
  simp [filledKinds, fillPlaceholders, hs, Except.map, Except.bind, ht]

/-- Values with their double quotes in pairs leave the kinds of the tokens alone. -/
theorem sameKinds_of_paired {s : Text} {found : Scan} (hs : scan s = .ok found) {b c : Bindings}
    (hb : b.AllText) (hc : c.AllText) (hbc : b.SameNames c)
    (hp : ∀ x ∈ quotedContents found.lexemes, ∀ n ∈ names x, ∀ t,
      b.lookup? n = some (.text t) ∨ c.lookup? n = some (.text t) → Paired '"' t) :
    SameKinds b c s := by
  obtain ⟨_, hf, ht⟩ := scan_eq_ok_iff.mp hs
  have hunit (d : Bindings) (hd : d.AllText) (x : Text) (hx : x ∈ quotedContents found.lexemes)
      (hv : ∀ n ∈ names x, ∀ t, d.lookup? n = some (.text t) → Paired '"' t) :
      Paired '"' (fill d Value.operand x) := by
    rw [fill_eq_write]
    refine (woven_segments rfl (paired_of_mem_quotedContents hf hx)).paired_write ?_
    intro p v hmem hl
    obtain ⟨t, rfl⟩ := hd.lookup hl
    have hquote : Paired '"' ['\''] := .of_not_mem (by decide)
    have hmid := Value.paired_doubleQuotes_of_paired (hv p.name (mem_names.mpr ⟨p, hmem, rfl⟩) t hl)
    exact hquote.append (hmid.append hquote)
  have hsame := alike_fill hb hc hbc (fun _ => 0) (laid_ofLexemes hf ht) fun x hx =>
    .unit rfl (hunit b hb x hx fun n hn t h => hp x hx n hn t (.inl h))
      (hunit c hc x hx fun n hn t h => hp x hx n hn t (.inr h)) .nil
  obtain ⟨ss, ts, hss, hts, -, hkind⟩ := hsame.tokensOf
  refine ⟨ss.map Token.kind, filledKinds_of_scan hs hss, ?_⟩
  rw [← hkind (List.sum_eq_zero_iff_forall_eq_nat.mpr (by simp))]
  exact filledKinds_of_scan hs hts

/-- A text keeps the kinds of its tokens under all values of some names exactly if none of the
names stands as a variable between double quotes. There a value is set in single quotes, so
that only its double quotes, which nothing doubles, could end the token. -/
theorem fillPlaceholders_keeps_kinds_iff {s : Text} {found : Scan} (hs : scan s = .ok found)
    (bound : Bindings) :
    ((∀ b c : Bindings, b.AllText → c.AllText → b.SameNames bound → c.SameNames bound →
        SameKinds b c s) ↔
      ∀ x ∈ quotedContents found.lexemes, ∀ n ∈ names x, bound.binds n = false) ∧
    ∀ b c : Bindings, b.AllText → c.AllText → b.SameNames c →
      (∀ x ∈ quotedContents found.lexemes, ∀ n ∈ names x, ∀ t,
        b.lookup? n = some (.text t) ∨ c.lookup? n = some (.text t) → Paired '"' t) →
      SameKinds b c s := by
  refine ⟨⟨?_, ?_⟩, fun b c hb hc hbc hp => sameKinds_of_paired hs hb hc hbc hp⟩
  · intro hall x hx n hn
    cases hbind : bound.binds n with
    | false => rfl
    | true =>
      exfalso
      obtain ⟨_, hf, ht⟩ := scan_eq_ok_iff.mp hs
      let b := bound.withValue (.text [])
      let c := bound.withValue (.text ['"', ' ', '"'])
      have hb : b.AllText := bound.allText_withValue []
      have hc : c.AllText := bound.allText_withValue ['"', ' ', '"']
      have hbn : b.SameNames bound := bound.sameNames_withValue _
      have hcn : c.SameNames bound := bound.sameNames_withValue _
      have hunit : ∀ y ∈ quotedContents found.lexemes,
          Alike (boundIn bound (pattern.segments y)) ('"' :: fill b Value.operand y ++ ['"'])
            ('"' :: fill c Value.operand y ++ ['"']) := by
        intro y hy
        have hw : Woven '"' (pattern.segments y) :=
          woven_segments rfl (paired_of_mem_quotedContents hf hy)
        have h := alike_split bound hw .nil .nil
        simpa [fill_eq_write] using h
      have hmore := alike_fill hb hc (fun n => (hbn n).trans (hcn n).symm)
        (fun y => boundIn bound (pattern.segments y)) (laid_ofLexemes hf ht) hunit
      obtain ⟨ss, ts, hss, hts, hlen, -⟩ := hmore.tokensOf
      obtain ⟨ks, hkb, hkc⟩ := hall b c hb hc hbn hcn
      rw [filledKinds_of_scan hs hss] at hkb
      rw [filledKinds_of_scan hs hts] at hkc
      have hkinds : ss.map Token.kind = ts.map Token.kind := Except.ok.inj (hkb.trans hkc.symm)
      have hlens : ss.length = ts.length := by simpa using congrArg List.length hkinds
      obtain ⟨p, hp, rfl⟩ := mem_names.mp hn
      have hpos := boundIn_pos hp hbind
      have hsum : 0 < ((quotedContents found.lexemes).map
          fun y => boundIn bound (pattern.segments y)).sum :=
        List.sum_pos_iff_exists_pos_nat.mpr ⟨_, List.mem_map_of_mem hx, hpos⟩
      rw [hlens] at hlen
      exact Nat.ne_of_gt hsum (Nat.left_eq_add.mp hlen)
  · intro hnone b c hb hc hbn hcn
    refine sameKinds_of_paired hs hb hc (fun n => (hbn n).trans (hcn n).symm) ?_
    intro x hx n hn t hl
    exfalso
    have hbind := hnone x hx n hn
    rcases hl with hl | hl
    · rw [← hbn.binds n, Bindings.binds, hl] at hbind
      cases hbind
    · rw [← hcn.binds n, Bindings.binds, hl] at hbind
      cases hbind

theorem fillPlaceholders_keeps_kinds_iff_quoted :
    scan ['"', '@', 'X', '@', '"'] = .ok ⟨[⟨[], .quoted, ['"', '@', 'X', '@', '"']⟩], []⟩ ∧
      ¬∀ b c : Bindings, b.AllText → c.AllText →
        b.SameNames (Keyed.ofList [(['X'], .yesNo true)]) →
        c.SameNames (Keyed.ofList [(['X'], .yesNo true)]) →
        SameKinds b c ['"', '@', 'X', '@', '"'] := by
  have hs : scan ['"', '@', 'X', '@', '"'] =
      .ok ⟨[⟨[], .quoted, ['"', '@', 'X', '@', '"']⟩], []⟩ := by cbv
  refine ⟨hs, ?_⟩
  rw [(fillPlaceholders_keeps_kinds_iff hs _).1]
  intro hall
  have hn : ['X'] ∈ names ['@', 'X', '@'] := by decide
  have hfalse := hall ['@', 'X', '@'] (by decide) ['X'] hn
  exact absurd hfalse (by decide)

end WhereFilter
