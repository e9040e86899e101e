import WhereFilter.Proofs.Language.Subjects

namespace WhereFilter

namespace Language

open Pattern Reading

theorem isAlpha_of_foldCase {a : Char} (h : foldCase a = 'c') :
    a.isAlpha = true ∧ a.toLower = 'c' := by
  unfold foldCase at h
  split at h
  · exact absurd h (by decide)
  · split at h
    · exact absurd h (by decide)
    · refine ⟨?_, h⟩
      rw [← Char.isAlpha_toLower_eq_isAlpha, h]
      rfl

theorem coalesce_of_ne {a : Char} (h : foldCase a ≠ 'c') (back : Option Char) (r : Text) :
    coalesce back (a :: r) = none := by
  have hfold : Text.folded? "COALESCE".toList (a :: r) = none := by
    change (if foldCase 'C' = foldCase a then _ else none) = none
    rw [if_neg]
    intro he
    exact h he.symm
  simp only [coalesce, hfold, Option.bind_eq_bind, Option.bind_none]

/-- No letter of the text starts the name of the call. -/
def CallFree (u : Text) : Prop :=
  ∀ a ∈ u, foldCase a ≠ 'c'

theorem CallFree.still {u : Text} (h : CallFree u) (s : Text) : coalesce.Still u s :=
  still_of_heads fun a ha back r => coalesce_of_ne (h a ha) back r

theorem callFree_of_not_alpha {u : Text} (h : ∀ a ∈ u, a.isAlpha = false) : CallFree u := by
  intro a ha hf
  have halpha := (isAlpha_of_foldCase hf).1
  rw [h a ha] at halpha
  cases halpha

theorem not_alpha_of_gap {g : Text} (hg : IsGap g) : ∀ a ∈ g, a.isAlpha = false :=
  fun a ha => of_isGapChar Char.isAlpha rfl (hg a ha)

theorem callFree_gap {g : Text} (hg : IsGap g) : CallFree g :=
  callFree_of_not_alpha (not_alpha_of_gap hg)

theorem CallFree.append {u v : Text} (hu : CallFree u) (hv : CallFree v) : CallFree (u ++ v) := by
  intro a ha
  rcases List.mem_append.mp ha with ha | ha
  · exact hu a ha
  · exact hv a ha

/-- The characters of a number are digits and a point. -/
theorem mem_numeral {n : Text} (h : Token.Numeral n) {a : Char} (ha : a ∈ n) :
    a.isDigit = true ∨ a = '.' := by
  cases h with
  | whole _ hw => exact .inl (hw a ha)
  | fraction _ hw _ hf =>
    rcases List.mem_append.mp ha with ha | ha
    · exact .inl (hw a ha)
    · rcases List.mem_cons.mp ha with rfl | ha
      · exact .inr rfl
      · exact .inl (hf a ha)

theorem not_mem_numeral {n : Text} (h : Token.Numeral n) {a : Char} (ha : a.isDigit = false)
    (hd : a ≠ '.') : a ∉ n := by
  intro hm
  rcases mem_numeral h hm with hn | rfl
  · rw [ha] at hn
    cases hn
  · exact hd rfl

theorem not_alpha_of_digit {a : Char} (h : a.isDigit = true) : a.isAlpha = false := by
  have hstart := Token.digit_not_nameStart h
  simp only [Token.isNameStart, Bool.or_eq_false_iff] at hstart
  exact hstart.1

theorem callFree_numeral {n : Text} (h : Token.Numeral n) : CallFree n := by
  apply callFree_of_not_alpha
  intro a ha
  rcases mem_numeral h ha with hd | rfl
  · exact not_alpha_of_digit hd
  · rfl

theorem Spells.callFree {w s : Text} (h : Spells w s) (hw : 'c' ∉ Text.lower w) : CallFree s := by
  intro a ha hf
  have hm : a.toLower ∈ Text.lower s := List.mem_map_of_mem ha
  rw [h, (isAlpha_of_foldCase hf).2] at hm
  exact hw hm

theorem callFree_relation (r : Relation) : CallFree r.token.text := by
  cases r <;> exact List.forall_iff_forall_mem.mp (by simp [Relation.token, word]; decide)

theorem mem_fold {word : Text} (h : word.map foldCase = "coalesce".toList) {a : Char}
    (ha : a ∈ word) : foldCase a ∈ "coalesce".toList := by
  rw [← h]
  exact List.mem_map_of_mem ha

/-- Where a call starts in front of its parenthesis, only its name and blanks stand between. -/
theorem opens_of_coalesce {back : Option Char} {v s : Text} {hit : Text × Text} (hv : '(' ∉ v)
    (h : coalesce back (v ++ s) = some hit) :
    ∃ word b x r, word ++ b = v ++ x ∧ s = x ++ '(' :: r ∧
      word.map foldCase = "coalesce".toList ∧ ∀ c ∈ b, isBlank c = true := by
  obtain ⟨word, b, b₂, b₃, m, he, hword, hb, -⟩ := of_coalesce h
  rw [← List.append_assoc] at he
  rcases List.append_eq_append_iff.mp he with ⟨x, hx, hs⟩ | ⟨x, hx, hs⟩
  · exact ⟨word, b, x, _, hx, hs, hword, hb⟩
  · cases x with
    | nil =>
      rw [List.append_nil] at hx
      exact ⟨word, b, [], _, by rw [hx, List.append_nil], hs.symm, hword, hb⟩
    | cons c x =>
      have hc : '(' = c := (List.cons.inj hs).1
      rw [hx, hc] at hv
      exact absurd (List.mem_append_right _ List.mem_cons_self) hv

/-- What ends in a quote and has no parenthesis in it starts no call. -/
theorem still_closed {u : Text} (hopen : '(' ∉ u) {quote : Char} (hq : quote ∈ ['\'', '"'])
    (hlast : u.getLast? = some quote) (s : Text) : coalesce.Still u s := by
  intro back v hv hsuffix
  cases h : coalesce back (v ++ s) with
  | none => rfl
  | some hit =>
    obtain ⟨word, b, x, r, hx, -, hword, hb⟩ :=
      opens_of_coalesce (fun hm => hopen (hsuffix.subset hm)) h
    have hquote : quote ∈ v := by
      obtain ⟨t, rfl⟩ := hsuffix
      rw [List.getLast?_append_of_ne_nil _ hv] at hlast
      exact List.mem_of_getLast? hlast
    have hm : quote ∈ word ++ b := by
      rw [hx]
      exact List.mem_append_left _ hquote
    simp only [List.mem_cons, List.not_mem_nil, or_false] at hq
    rcases List.mem_append.mp hm with hm | hm
    · have hfold := mem_fold hword hm
      rcases hq with rfl | rfl <;> exact absurd hfold (by decide)
    · have hblank := hb _ hm
      rcases hq with rfl | rfl <;> cases hblank

theorem isBlank_of_isGapChar {c : Char} (h : Token.isGapChar c = true) : isBlank c = true :=
  of_isGapChar isBlank rfl h

theorem skipBlanks_append {b r : Text} (hb : ∀ c ∈ b, isBlank c = true)
    (hr : r.head?.any isBlank = false) : Text.skipBlanks (b ++ r) = r :=
  (run_append hb hr).2

theorem skipBlanks_gap {g : Text} (hg : IsGap g) {c : Char} (hc : isBlank c = false) (r : Text) :
    Text.skipBlanks (g ++ c :: r) = c :: r :=
  skipBlanks_append (fun a ha => isBlank_of_isGapChar (hg a ha)) (by simpa using hc)

/-- A name that no parenthesis follows starts no call. -/
theorem still_name {n s : Text} (hn : '(' ∉ n) (hs : Firm s)
    (hopen : (Text.skipBlanks s).head? ≠ some '(') : coalesce.Still n s := by
  intro back v hv hsuffix
  cases h : coalesce back (v ++ s) with
  | none => rfl
  | some hit =>
    obtain ⟨word, b, x, r, hx, rfl, hword, hb⟩ :=
      opens_of_coalesce (fun hm => hn (hsuffix.subset hm)) h
    have hblank (hx : ∀ c ∈ x, isBlank c = true) : False := by
      rw [skipBlanks_append hx rfl] at hopen
      exact hopen rfl
    rcases List.append_eq_append_iff.mp hx with ⟨y, -, hy⟩ | ⟨y, hy, rfl⟩
    · exact (hblank fun c hc => hb c (by rw [hy]; exact List.mem_append_right _ hc)).elim
    · cases y with
      | nil => exact (hblank hb).elim
      | cons c y =>
        have hfold : foldCase c ∈ "coalesce".toList := mem_fold hword (by rw [hy]; simp)
        have hfirm : c ∈ firmChars := hs c rfl
        have hnone : firmChars.all (fun c => !("coalesce".toList.contains (foldCase c))) = true := rfl
        have hc := List.all_eq_true.mp hnone c hfirm
        simp only [Bool.not_eq_true', List.contains_eq_mem, decide_eq_false_iff_not] at hc
        exact absurd hfold hc

theorem open_not_mem_plain {t : Text} (h : Plain t) : '(' ∉ t := by
  intro hm
  cases h _ hm

theorem IsName.still {n s : Text} (hn : IsName n) (hs : Firm s)
    (hopen : (Text.skipBlanks s).head? ≠ some '(') : coalesce.Still n s :=
  still_name (hn.not_mem rfl) hs hopen

theorem still_literal {c : Text} (hc : '(' ∉ c) (s : Text) : coalesce.Still (literal c).text s := by
  refine still_closed ?_ (List.mem_cons_self (a := '\'')) ?_ s
  · simp [literal, hc]
  · rw [literal, List.getLast?_append_of_ne_nil _ (by simp)]
    rfl

theorem Item.still {i : Item} (hi : i.Formed) (s : Text) : coalesce.Still i.text s := by
  have hat : CallFree ['@'] := callFree_of_not_alpha (by simp)
  have hname {n : Text} (hn : IsName n) : coalesce.Still (n ++ ['@']) s :=
    Still.append (hn.still (firm_cons.mpr (by decide)) (by simp [Text.skipBlanks, isBlank]))
      (hat.still s)
  match i with
  | .number true digits =>
    have hminus : CallFree ['-'] := callFree_of_not_alpha (by simp)
    simpa [text, tokens, minus] using (hminus.append (callFree_numeral hi)).still s
  | .number false digits => simpa [text, tokens] using (callFree_numeral hi).still s
  | .literal contents => simpa [text, tokens] using still_literal (open_not_mem_plain hi) s
  | .placeholder true p =>
    have hopen : '(' ∉ p.text := by
      have hn : '(' ∉ p.name := IsName.not_mem hi rfl
      cases hh : p.hashed <;> simp [Placeholder.text, hh, hn]
    simpa [text, tokens] using still_literal hopen s
  | .placeholder false ⟨true, name⟩ =>
    have hhash : CallFree ['@', '#'] := callFree_of_not_alpha (by simp)
    have h := (hhash.still ((name ++ ['@']) ++ s)).append (hname hi)
    simpa [text, tokens, other, word] using h
  | .placeholder false ⟨false, name⟩ =>
    have h := (hat.still ((name ++ ['@']) ++ s)).append (hname hi)
    simpa [text, tokens, other, word] using h
  | .truth true =>
    have h : CallFree "true".toList := by simp [CallFree]; decide
    simpa [text, tokens, word, truthWord] using h.still s
  | .truth false =>
    have h : CallFree "false".toList := by simp [CallFree]; decide
    simpa [text, tokens, word, truthWord] using h.still s

/-- How lexemes are written where calls are dropped. -/
abbrev DropsCalls (tail : Text) (u s u' : List Lexeme) : Prop :=
  coalesce.Turns (fun c => [c]) id (u.flatMap Lexeme.text) (s.flatMap Lexeme.text ++ tail)
    (u'.flatMap Lexeme.text)

theorem turns_of_still {p : Pattern Char β} (hit : β → Text) {u s : Text} (h : p.Still u s) :
    p.Turns (fun c => [c]) hit u s u := by
  have ht : p.Turns (fun c => [c]) hit u s (u.flatMap fun c => [c]) := Turns.of_still h
  rwa [List.flatMap_singleton'] at ht

/-- Behind `g`, where no hit starts, all of `u` is one. -/
theorem turns_of_hit {p : Pattern Char β} (hit : β → Text) {g u s : Text} {b : β}
    (hg : p.Still g (u ++ s)) (hu : u ≠ [])
    (h : ∀ back, p (g.getLast?.or back) (u ++ s) = some (b, s)) :
    p.Turns (fun c => [c]) hit (g ++ u) s (g ++ hit b) := by
  have ht : p.Turns (fun c => [c]) hit (g ++ u) s (g.flatMap (fun c => [c]) ++ hit b) :=
    Turns.of_hit_behind hg hu h
  rwa [List.flatMap_singleton'] at ht

theorem Item.still_spaced {i : Item} (hi : i.Formed) {g : Text} (hg : IsGap g) (s : Text) :
    coalesce.Still ((spaced g i.tokens).flatMap Lexeme.text) s := by
  rw [text_spaced g i.tokens_ne_nil]
  exact ((callFree_gap hg).still _).append (i.still hi s)

theorem still_entries {e : Entry} {es : List Entry} (h : ∀ f ∈ e :: es, f.Formed) (s : Text) :
    coalesce.Still ((entries e es).flatMap Lexeme.text) s := by
  have sign {g : Text} (hg : IsGap g) (c : Char) (hc : c.isAlpha = false) (s : Text) :
      coalesce.Still (g ++ [c]) s :=
    ((callFree_gap hg).append (callFree_of_not_alpha (by simpa using hc))).still s
  induction es generalizing e with
  | nil =>
    have he := h e (by simp)
    have hitem := e.item.still_spaced he.item he.gap (e.behind ++ [')'] ++ s)
    simpa [entries, Lexeme.text, closing] using hitem.append (sign he.behind ')' rfl s)
  | cons f es ih =>
    have he := h e (by simp)
    have hrest := ih fun f hf => h f (List.mem_cons_of_mem e hf)
    have hsign := (sign he.behind ',' rfl _).append hrest
    have hitem := (e.item.still_spaced he.item he.gap _).append hsign
    simpa [entries, Lexeme.text, comma] using hitem

theorem foldCase_of_toLower {c : Char} (h : c.toLower.isAlpha = true) :
    foldCase c = c.toLower := by
  unfold foldCase
  split
  · next hc =>
    rw [hc] at h
    cases h
  · split
    · next hc =>
      rw [hc] at h
      cases h
    · rfl

theorem folded?_of_spells {w s : Text} (h : Spells w s) (hw : ∀ c ∈ w, c.isAlpha = true)
    (r : Text) : Text.folded? w (s ++ r) = some (s, r) := by
  induction w generalizing s with
  | nil =>
    have hs : s = [] := by simpa [Spells, Text.lower] using h
    rw [hs]
    rfl
  | cons a w ih =>
    cases s with
    | nil => simp [Spells, Text.lower] at h
    | cons c s =>
      simp only [Spells, Text.lower, List.map_cons, List.cons.injEq] at h
      simp only [List.mem_cons, forall_eq_or_imp] at hw
      have ha : a.toLower.isAlpha = true := by rw [Char.isAlpha_toLower_eq_isAlpha, hw.1]
      have hfold : foldCase a = foldCase c := by
        rw [foldCase_of_toLower ha, foldCase_of_toLower (h.1 ▸ ha), h.1]
      simp [Text.folded?, hfold, ih h.2 hw.2]

theorem toNat_of_isNameChar {c : Char} (h : Token.isNameChar c = true) :
    48 ≤ c.toNat ∧ c.toNat < 0x80 := by
  simp only [Token.isNameChar, Char.isAlphanum, Char.isAlpha, Char.isUpper, Char.isLower,
    Char.isDigit, Bool.or_eq_true, Bool.and_eq_true, decide_eq_true_eq, beq_iff_eq,
    UInt32.le_iff_toNat_le, ge_iff_le] at h
  have hval : c.toNat = c.val.toNat := rfl
  rcases h with ((h | h) | h) | rfl
  · have : 'Z'.val.toNat = 90 := rfl
    have : 'A'.val.toNat = 65 := rfl
    omega
  · have : 'z'.val.toNat = 122 := rfl
    have : 'a'.val.toNat = 97 := rfl
    omega
  · have : '9'.val.toNat = 57 := rfl
    have : '0'.val.toNat = 48 := rfl
    omega
  · decide

theorem isWordChar_of_isNameChar {c : Char} (h : Token.isNameChar c = true) :
    isWordChar c = true := by
  rw [isWordChar, if_pos (toNat_of_isNameChar h).2]
  exact h

theorem not_blank_of_isNameChar {c : Char} (h : Token.isNameChar c = true) : isBlank c = false := by
  have hc := toNat_of_isNameChar h
  simp only [isBlank, Bool.or_eq_false_iff, Bool.and_eq_false_iff, decide_eq_false_iff_not,
    beq_eq_false_iff_ne]
  omega

theorem IsName.isNameChar {n : Text} (hn : IsName n) {c : Char} (hc : c ∈ n) :
    Token.isNameChar c = true := by
  cases hc' : Token.isNameChar c with
  | true => rfl
  | false => exact absurd hc (hn.not_mem hc')

theorem IsName.ne_nil {n : Text} (hn : IsName n) : n ≠ [] := by
  obtain ⟨c, r, hr, -⟩ := hn.formed
  intro he
  have hr' : n = c :: r := hr
  rw [he] at hr'
  cases hr'

theorem IsName.word? {n s : Text} (hn : IsName n) (hs : Firm s) :
    Text.word? (n ++ s) = some (n, s) :=
  Text.word?_eq_some.mpr
    ⟨rfl, hn.ne_nil, fun _ hc => isWordChar_of_isNameChar (hn.isNameChar hc), hs.head?_any rfl⟩

theorem IsName.skipBlanks {n g : Text} (hn : IsName n) (hg : IsGap g) (s : Text) :
    Text.skipBlanks (g ++ (n ++ s)) = n ++ s := by
  obtain ⟨c, r, rfl⟩ := List.exists_cons_of_ne_nil hn.ne_nil
  exact skipBlanks_gap hg (not_blank_of_isNameChar (hn.isNameChar List.mem_cons_self)) _

/-- A call is hit from its name to the parenthesis that closes it. -/
theorem coalesce_call {k : Call} (hk : k.Formed) {n : Text} (hn : IsName n) (back : Option Char)
    (s : Text) :
    coalesce back (k.spelling ++ (k.beforeOpen ++ '(' :: (k.inside ++ (n ++ (k.beforeComma ++
      ',' :: (k.behindComma ++ '\'' :: (k.contents ++ '\'' :: (k.beforeClose ++
        ')' :: s)))))))) = some (n, s) := by
  have hword (r : Text) := folded?_of_spells hk.spelling (List.all_eq_true.mp rfl) r
  have hopen (r : Text) : Text.skipBlanks (k.beforeOpen ++ '(' :: r) = '(' :: r :=
    skipBlanks_gap hk.beforeOpen rfl r
  have hname (r : Text) : Text.word? (n ++ (k.beforeComma ++ ',' :: r)) =
      some (n, k.beforeComma ++ ',' :: r) :=
    hn.word? (firm_gap hk.beforeComma (firm_cons.mpr (by decide)))
  have hcomma (r : Text) : Text.skipBlanks (k.beforeComma ++ ',' :: r) = ',' :: r :=
    skipBlanks_gap hk.beforeComma rfl r
  have hquote (r : Text) : Text.skipBlanks (k.behindComma ++ '\'' :: r) = '\'' :: r :=
    skipBlanks_gap hk.behindComma rfl r
  have hcontents (r : Text) :
      (k.contents ++ '\'' :: r).dropWhile (fun c => decide (c ≠ '\'')) = '\'' :: r := by
    refine (run_append (fun a ha => ?_) rfl).2
    have hne : a ≠ '\'' := by
      rintro rfl
      exact hk.contents.1 ha
    simpa using hne
  have hclose (r : Text) : Text.skipBlanks (k.beforeClose ++ ')' :: r) = ')' :: r :=
    skipBlanks_gap hk.beforeClose rfl r
  simp only [coalesce, hword, Option.bind_eq_bind, Option.bind_some, hopen, Text.after?,
    hn.skipBlanks hk.inside, hname, hcomma, hquote, hcontents, hclose, if_true]

/-- What goes on behind a name, without a parenthesis that opens. -/
structure Behind (s : Text) : Prop where
  firm : Firm s
  no_open : (Text.skipBlanks s).head? ≠ some '('

theorem Subject.dropsCalls {x : Subject} (hx : x.Formed) (ht : x.table = none) {g : Text}
    (hg : IsGap g) {s : Text} (hs : Behind s) :
    coalesce.Turns (fun c => [c]) id ((x.lexemes g).flatMap Lexeme.text) s
      ((x.uncalled.lexemes g).flatMap Lexeme.text) := by
  have hafter : (x.uncalled.lexemes g).flatMap Lexeme.text = g ++ x.column := by
    simp [uncalled, lexemes, name, ht, Lexeme.text, word]
  rw [hafter]
  cases hk : x.call with
  | none =>
    have hbefore : (x.lexemes g).flatMap Lexeme.text = g ++ x.column := by
      simp [lexemes, hk, name, ht, Lexeme.text, word]
    rw [hbefore]
    exact turns_of_still id (((callFree_gap hg).still _).append (hx.column.still hs.firm hs.no_open))
  | some k =>
    have hcall := hx.call k hk
    have hit (back : Option Char) := coalesce_call hcall hx.column back s
    have hturn := turns_of_hit id (b := x.column) (s := s) (g := g) (u := k.spelling ++ (k.beforeOpen ++ '(' :: (k.inside ++ (x.column ++
        (k.beforeComma ++ ',' :: (k.behindComma ++ '\'' :: (k.contents ++ '\'' ::
          (k.beforeClose ++ [')']))))))))
      ((callFree_gap hg).still _) (by simp) (by simpa using fun back => hit _)
    simpa [lexemes, hk, name, ht, Lexeme.text, word, opening, comma, literal, closing] using hturn

theorem skipBlanks_word {w v g : Text} (h : Spells w v) (hn : w ≠ [])
    (hw : w.all Char.isAlpha = true) (hg : IsGap g) (s : Text) :
    Text.skipBlanks (g ++ (v ++ s)) = v ++ s := by
  obtain ⟨c, r, he, hc, -⟩ := h.formed hn hw
  have he' : v = c :: r := he
  have hname : Token.isNameChar c = true := by
    simp only [Token.isNameStart, Bool.or_eq_true] at hc
    simp only [Token.isNameChar, Char.isAlphanum, Bool.or_eq_true]
    exact hc.imp_left .inl
  rw [he']
  exact skipBlanks_gap hg (not_blank_of_isNameChar hname) _

theorem Spelling.Of.behind {w : Text} {n : Spelling} (h : n.Of w) (hn : w ≠ [])
    (hw : w.all Char.isAlpha = true) (ls : List Lexeme) (s : Text) :
    Behind ((n.lexeme :: ls).flatMap Lexeme.text ++ s) := by
  refine ⟨h.firm, ?_⟩
  have hskip := skipBlanks_word h.spells hn hw h.gap (ls.flatMap Lexeme.text ++ s)
  have htext : (n.lexeme :: ls).flatMap Lexeme.text ++ s =
      n.gap ++ (n.text ++ (ls.flatMap Lexeme.text ++ s)) := by
    simp [Lexeme.text, Spelling.lexeme, word]
  obtain ⟨c, r, he, hc, -⟩ := h.spells.formed hn hw
  have he' : n.text = c :: r := he
  rw [htext, hskip, he']
  intro hh
  have hopen : c = '(' := by simpa using hh
  rw [hopen] at hc
  cases hc

theorem Relation.behind (r : Relation) {g : Text} (hg : IsGap g)
    (hw : r.isSpelled = true → g ≠ []) (ls : List Lexeme) (s : Text) :
    Behind ((⟨g, r.token⟩ :: ls : List Lexeme).flatMap Lexeme.text ++ s) := by
  refine ⟨r.firm hg hw, ?_⟩
  have htext : (⟨g, r.token⟩ :: ls : List Lexeme).flatMap Lexeme.text ++ s =
      g ++ (r.token.text ++ (ls.flatMap Lexeme.text ++ s)) := by simp [Lexeme.text]
  obtain ⟨c, t, ht, hblank, hopen⟩ : ∃ c t, r.token.text = c :: t ∧ isBlank c = false ∧ c ≠ '(' := by
    cases r <;> exact ⟨_, _, rfl, rfl, by decide⟩
  rw [htext, ht, List.cons_append, skipBlanks_gap hg hblank]
  simpa using hopen

theorem Spelling.Of.callFree {w : Text} {n : Spelling} (h : n.Of w) (hw : 'c' ∉ Text.lower w) :
    CallFree n.lexeme.text :=
  (callFree_gap h.gap).append (h.spells.callFree hw)

theorem Clause.dropsCalls {c : Clause} (hc : c.Formed)
    (ht : ∀ x, c.subject? = some x → x.table = none) {g : Text} (hg : IsGap g) (s : List Lexeme)
    (tail : Text) : DropsCalls tail (c.lexemes g) s ((c.mapSubject Subject.uncalled).lexemes g) := by
  have item_text (u v : List Lexeme) : (u ++ v).flatMap Lexeme.text =
      u.flatMap Lexeme.text ++ v.flatMap Lexeme.text := List.flatMap_append
  match c with
  | .compare left before relation behind right =>
    obtain ⟨hl, hb, hb', hr, hw⟩ := hc
    have hsign : CallFree (⟨before, relation.token⟩ : Lexeme).text :=
      (callFree_gap hb).append (callFree_relation relation)
    have hrest := Still.append (hsign.still _) (right.still_spaced hr hb' (s.flatMap Lexeme.text ++ tail))
    rw [← List.flatMap_cons] at hrest
    cases left with
    | subject x =>
      have hbehind := relation.behind hb (fun h => (hw h).1) (spaced behind right.tokens)
        (s.flatMap Lexeme.text ++ tail)
      have hturn := (x.dropsCalls hl (ht x rfl) hg hbehind).append (turns_of_still id hrest)
      simpa only [DropsCalls, mapSubject, lexemes, Side.lexemes, item_text] using hturn
    | item i =>
      have hturn := turns_of_still id ((i.still_spaced hl hg _).append hrest)
      simpa only [DropsCalls, mapSubject, lexemes, Side.lexemes, item_text] using hturn
  | .member x negation membership beforeOpen first rest =>
    obtain ⟨hx, hn, hm, ho, he⟩ := hc
    have hopen : CallFree (⟨beforeOpen, opening⟩ : Lexeme).text :=
      (callFree_gap ho).append (callFree_of_not_alpha (by simp [opening]))
    have hentries := still_entries he (s.flatMap Lexeme.text ++ tail)
    have hlist := Still.append ((hm.callFree (by decide)).still _)
      (Still.append (hopen.still _) hentries)
    rw [← List.flatMap_cons, ← List.flatMap_cons] at hlist
    cases negation with
    | none =>
      have hbehind := hm.behind (by decide) (by decide)
        (⟨beforeOpen, opening⟩ :: entries first rest) (s.flatMap Lexeme.text ++ tail)
      have hturn := (x.dropsCalls hx (ht x rfl) hg hbehind).append (turns_of_still id hlist)
      simpa only [DropsCalls, mapSubject, lexemes, Option.toList_none, List.map_nil,
        List.nil_append, item_text] using hturn
    | some n =>
      have hn := hn n rfl
      have hbehind := hn.behind (by decide) (by decide)
        (membership.lexeme :: ⟨beforeOpen, opening⟩ :: entries first rest)
        (s.flatMap Lexeme.text ++ tail)
      have hnegated := Still.append ((hn.callFree (by decide)).still _) hlist
      rw [← List.flatMap_cons] at hnegated
      have hturn := (x.dropsCalls hx (ht x rfl) hg hbehind).append (turns_of_still id hnegated)
      simpa only [DropsCalls, mapSubject, lexemes, Option.toList_some, List.map_cons, List.map_nil,
        List.cons_append, List.nil_append, item_text] using hturn

/-- No column stands behind a table name. -/
def Clause.Untabled (c : Clause) : Prop :=
  ∀ x, c.subject? = some x → x.table = none

theorem Clause.untabled_mapSubject (c : Clause) :
    (c.mapSubject Subject.unqualified).Untabled := by
  intro x hx
  match c with
  | .compare (.subject _) _ _ _ _ | .member _ _ _ _ _ _ => cases hx; rfl

theorem carries_dropsCalls (tail : Text) :
    Carries (DropsCalls tail) id (fun c => .clause (c.mapSubject Subject.uncalled))
      (fun c => c.Formed ∧ c.Untabled) := by
  have free {l : Lexeme} (h : CallFree l.text) (s : List Lexeme) : DropsCalls tail [l] s [l] := by
    have hl : [l].flatMap Lexeme.text = l.text := by simp
    rw [DropsCalls, hl]
    exact turns_of_still id (h.still _)
  refine ⟨?_, ?_, ?_, ?_, ?_⟩
  · intro u v s u' v' hu hv
    simp only [DropsCalls, List.flatMap_append, List.append_assoc] at hu hv ⊢
    exact hu.append hv
  · intro g s hg
    exact free ((callFree_gap hg).append (callFree_of_not_alpha (by simp [opening]))) s
  · intro g s hg
    exact free ((callFree_gap hg).append (callFree_of_not_alpha (by simp [closing]))) s
  · intro j w s hj hw _
    have hword : CallFree j.text := by
      rcases hw with rfl | rfl
      · exact hj.spells.callFree (by decide)
      · exact hj.spells.callFree (by decide)
    exact free (l := ⟨j.before, word j.text⟩) ((callFree_gap hj.before).append hword) s
  · intro c g s hc hg _
    exact c.dropsCalls hc.1 hc.2 hg s tail

/-- The second pass drops the calls of a rule around its columns. -/
theorem dropCoalesce_text {r : Rule k} (hr : r.Formed fun c => c.Formed ∧ c.Untabled)
    {lead tail : Text} (hlead : IsGap lead) (htail : IsGap tail) :
    dropCoalesce (r.text lead tail) =
      (r.rebuild id fun c => .clause (c.mapSubject Subject.uncalled)).text lead tail := by
  have hturn := (carries_dropsCalls tail).rule (fun _ h => h.1) hr hlead .nil
  have htail' := turns_of_still id ((callFree_gap htail).still [])
  simp only [DropsCalls, List.flatMap_nil, List.nil_append] at hturn
  have hall := Turns.append (v := tail) (s := []) (by simpa using hturn) htail'
  exact hall.render

end Language

end WhereFilter
