import WhereFilter.Proofs.Language.Truths
import WhereFilter.Rule.Gate

namespace WhereFilter

namespace Pattern

variable {p : Pattern α β}

/-- No hit starts in `u`, which stands between `back` and `s`. -/
def Silent (p : Pattern α β) : Option α → List α → List α → Prop
  | _, [], _ => True
  | back, a :: u, s => p back (a :: (u ++ s)) = none ∧ p.Silent (some a) u s

theorem silent_append {back : Option α} {u v s : List α} :
    p.Silent back (u ++ v) s ↔
      p.Silent back u (v ++ s) ∧ p.Silent (u.getLast?.or back) v s := by
  induction u generalizing back with
  | nil => simp [Silent]
  | cons a u ih =>
    have hlast : (a :: u).getLast?.or back = u.getLast?.or (some a) := by
      rw [List.getLast?_cons]
      cases u.getLast? <;> rfl
    rw [List.cons_append, Silent, Silent, ih, List.append_assoc, hlast, and_assoc]

theorem Still.silent {u s : List α} (h : p.Still u s) (back : Option α) : p.Silent back u s := by
  induction u generalizing back with
  | nil => trivial
  | cons a u ih =>
    obtain ⟨ha, hu⟩ := still_cons.mp h
    exact ⟨ha back, ih hu (some a)⟩

theorem hits_eq_nil {l : List α} : p.hits l = [] ↔ p.Silent none l [] := by
  have hfrom (back : Option α) :
      (∀ x ∈ segmentsFrom p back 0 l, ∃ a, x = .item a) ↔ p.Silent back l [] := by
    induction l generalizing back with
    | nil => simp [segmentsFrom, Silent]
    | cons a l ih =>
      rw [segmentsFrom, Silent, List.append_nil]
      cases h : p back (a :: l) with
      | none => simpa using ih (some a)
      | some hit => simp
  rw [← hfrom none, hits, List.filterMap_eq_nil_iff]
  refine forall₂_congr fun x _ => ?_
  cases x with
  | item a => exact ⟨fun _ => ⟨a, rfl⟩, fun _ => rfl⟩
  | hit b =>
    constructor
    · intro h
      cases h
    · rintro ⟨a, ha⟩
      cases ha

end Pattern

theorem checkSupported_eq_ok_iff {rule : Text} :
    checkSupported rule = .ok () ↔ Phrase.unsupported.Silent none rule [] := by
  rw [← Pattern.hits_eq_nil, checkSupported]
  cases Phrase.unsupported.hits rule <;> simp

/-- A word read in any case is as long as the word. -/
theorem folded?_eq_some {p t w rest : Text} :
    Text.folded? p t = some (w, rest) ↔ t = w ++ rest ∧ w.map foldCase = p.map foldCase := by
  induction p generalizing t w with
  | nil =>
    simp only [Text.folded?, Option.some.injEq, Prod.mk.injEq, List.map_nil, List.map_eq_nil_iff]
    constructor
    · rintro ⟨rfl, rfl⟩
      exact ⟨rfl, rfl⟩
    · rintro ⟨rfl, rfl⟩
      exact ⟨rfl, rfl⟩
  | cons a p ih =>
    cases t with
    | nil =>
      simp only [Text.folded?, reduceCtorEq, false_iff, not_and]
      intro h
      simp [(List.append_eq_nil_iff.mp h.symm).1]
    | cons c t =>
      simp only [Text.folded?]
      split
      · next hac =>
        simp only [Option.map_eq_some_iff, Prod.exists, Prod.mk.injEq]
        constructor
        · rintro ⟨w', rest', h, rfl, rfl⟩
          obtain ⟨rfl, hw⟩ := ih.mp h
          exact ⟨rfl, by simp [hw, hac]⟩
        · rintro ⟨ht, hw⟩
          cases w with
          | nil => cases hw
          | cons d w =>
            obtain ⟨rfl, rfl⟩ := List.cons.inj ht
            exact ⟨w, rest, ih.mpr ⟨rfl, (List.cons.inj hw).2⟩, rfl, rfl⟩
      · next hac =>
        simp only [reduceCtorEq, false_iff, not_and]
        intro ht hw
        cases w with
        | nil => cases hw
        | cons d w =>
          obtain ⟨rfl, rfl⟩ := List.cons.inj ht
          exact hac (List.cons.inj hw).1.symm

namespace Phrase

theorem ne_nil_of_mem {ws : List Text} (hws : ws ∈ unsupportedPhrases) : ws ≠ [] := by
  rintro rfl
  exact absurd hws (by decide)

/-- A hit is some phrase read with no word across its ends. -/
theorem of_unsupported {back : Option Char} {s : Text} {hit : Text × Text}
    (h : unsupported back s = some hit) :
    back.any isWordChar = false ∧ hit.2.head?.any isWordChar = false ∧
      ∃ ws ∈ unsupportedPhrases, read? ws s = some hit := by
  unfold unsupported at h
  split at h
  · cases h
  · next hback =>
    obtain ⟨ws, hws, h⟩ := List.exists_of_findSome?_eq_some h
    split at h
    · next hread =>
      split at h
      · cases h
      · next hrest =>
        cases h
        exact ⟨by simpa using hback, by simpa using hrest, ws, hws, hread⟩
    · cases h

theorem unsupported_ne_none {back : Option Char} {s m rest : Text} {ws : List Text}
    (hback : back.any isWordChar = false) (hrest : rest.head?.any isWordChar = false)
    (hws : ws ∈ unsupportedPhrases) (hread : read? ws s = some (m, rest)) :
    unsupported back s ≠ none := by
  intro h
  rw [unsupported, hback, if_neg (by simp), List.findSome?_eq_none_iff] at h
  have hnone := h ws hws
  simp [hread, hrest] at hnone

end Phrase

namespace Language

open Reading (Rank)

/-- A character that counts as a letter of the phrases. -/
def isPhraseChar (c : Char) : Bool :=
  (foldCase c).isAlpha

theorem isWordChar_of_isPhraseChar {c : Char} (h : isPhraseChar c = true) :
    isWordChar c = true := by
  unfold isPhraseChar foldCase at h
  split at h
  · next hc =>
    rw [hc]
    decide +kernel
  · split at h
    · next hc =>
      rw [hc]
      decide +kernel
    · rw [Char.isAlpha_toLower_eq_isAlpha] at h
      exact isWordChar_of_isNameChar (by simp [Token.isNameChar, Char.isAlphanum, h])

/-- The code points of blanks. -/
def blankPoints : List Nat :=
  [9, 10, 11, 12, 13, 32, 0x85, 0xa0, 0x1680, 0x2000, 0x2001, 0x2002, 0x2003, 0x2004, 0x2005,
   0x2006, 0x2007, 0x2008, 0x2009, 0x200a, 0x2028, 0x2029, 0x202f, 0x205f, 0x3000]

theorem not_isWordChar_of_isBlank {c : Char} (h : isBlank c = true) : isWordChar c = false := by
  have hall : blankPoints.all (fun n => !isWordChar (Char.ofNat n)) = true := by
    decide +kernel
  have hm : c.toNat ∈ blankPoints := by
    simp only [isBlank, Bool.or_eq_true, Bool.and_eq_true, decide_eq_true_eq, beq_iff_eq] at h
    simp only [blankPoints, List.mem_cons, List.not_mem_nil, or_false]
    omega
  simpa [Char.ofNat_toNat] using List.all_eq_true.mp hall _ hm

theorem not_isWordChar_of_blanks {s g t : Text} (h : Text.blanks? s = some (g, t)) :
    s.head?.any isWordChar = false := by
  cases s with
  | nil => rfl
  | cons c s =>
    cases hc : isBlank c with
    | true => simpa using not_isWordChar_of_isBlank hc
    | false => simp [Text.blanks?, hc] at h

theorem isPhraseChar_of_folded {w p : Text} (hp : ∀ c ∈ p, isPhraseChar c = true)
    (h : w.map foldCase = p.map foldCase) : ∀ c ∈ w, isPhraseChar c = true := by
  intro c hc
  have hm : foldCase c ∈ p.map foldCase := h ▸ List.mem_map_of_mem hc
  obtain ⟨a, ha, he⟩ := List.mem_map.mp hm
  have hchar := hp a ha
  rwa [isPhraseChar, he] at hchar

/-- `w` spells `p`, a word of a phrase. -/
theorem isPhraseChar_of_fold {w p : Text} {ws : List Text} (hws : ws ∈ unsupportedPhrases)
    (hp : p ∈ ws) (h : w.map foldCase = p.map foldCase) : ∀ c ∈ w, isPhraseChar c = true := by
  have hall : unsupportedPhrases.all (fun ws => ws.all fun p => p.all isPhraseChar) = true := by
    decide
  simp only [List.all_eq_true] at hall
  exact isPhraseChar_of_folded (hall ws hws p hp) h

theorem ne_nil_of_fold {w p : Text} {ws : List Text} (hws : ws ∈ unsupportedPhrases)
    (hp : p ∈ ws) (h : w.map foldCase = p.map foldCase) : w ≠ [] := by
  have hall : unsupportedPhrases.all (fun ws => ws.all fun p => !p.isEmpty) = true := by
    decide
  have hne := List.all_eq_true.mp (List.all_eq_true.mp hall ws hws) p hp
  rintro rfl
  cases p with
  | nil => cases hne
  | cons a p => cases h

/-- A hit reads a whole word in front of its rest or of blanks. -/
theorem unsupported_eq_some {back : Option Char} {s : Text} {hit : Text × Text}
    (h : Phrase.unsupported back s = some hit) :
    back.any isWordChar = false ∧ ∃ p ps w rest, p :: ps ∈ unsupportedPhrases ∧
      s = w ++ rest ∧ w.map foldCase = p.map foldCase ∧ rest.head?.any isWordChar = false ∧
      (ps ≠ [] → ∃ g t, Text.blanks? rest = some (g, t) ∧ (Phrase.read? ps t).isSome = true) := by
  obtain ⟨hback, hrest, ws, hws, hread⟩ := Phrase.of_unsupported h
  refine ⟨hback, ?_⟩
  match ws, hws, hread with
  | [], hws, _ => exact absurd rfl (Phrase.ne_nil_of_mem hws)
  | [p], hws, hread =>
    obtain ⟨hs, hfold⟩ := folded?_eq_some.mp hread
    exact ⟨p, [], hit.1, hit.2, hws, hs, hfold, hrest, fun h => absurd rfl h⟩
  | p :: q :: qs, hws, hread =>
    simp only [Phrase.read?, Option.bind_eq_bind, Option.bind_eq_some_iff] at hread
    obtain ⟨⟨w, t⟩, hfold, ⟨g, u⟩, hblanks, ⟨more, v⟩, hmore, -⟩ := hread
    obtain ⟨hs, hfold⟩ := folded?_eq_some.mp hfold
    exact ⟨p, q :: qs, w, t, hws, hs, hfold, not_isWordChar_of_blanks hblanks,
      fun _ => ⟨g, u, hblanks, by simp [hmore]⟩⟩

/-- Nothing that starts with another character is a phrase. -/
theorem unsupported_cons {c : Char} (hc : isPhraseChar c = false) (back : Option Char) (s : Text) :
    Phrase.unsupported back (c :: s) = none := by
  by_contra hne
  obtain ⟨hit, h⟩ := Option.ne_none_iff_exists'.mp hne
  obtain ⟨-, p, ps, w, rest, hws, hs, hfold, -⟩ := unsupported_eq_some h
  cases w with
  | nil => exact ne_nil_of_fold hws (by simp) hfold rfl
  | cons d w =>
    obtain ⟨rfl, -⟩ := List.cons.inj hs
    have hd := isPhraseChar_of_fold hws (by simp) hfold c (by simp)
    rw [hc] at hd
    cases hd

theorem still_unsupported {u : Text} (hu : ∀ c ∈ u, isPhraseChar c = false) (s : Text) :
    Phrase.unsupported.Still u s :=
  Pattern.still_of_heads fun c hc back r => unsupported_cons (hu c hc) back r

/-- `w` is a phrase of one word. -/
def IsPhrase (w : Text) : Prop :=
  ∃ p, [p] ∈ unsupportedPhrases ∧ w.map foldCase = p.map foldCase

/-- A word is the first of a phrase in front of blanks and the words that follow. -/
theorem unsupported_word {back : Option Char} {w s : Text} {hit : Text × Text}
    (hw : ∀ c ∈ w, isWordChar c = true) (hs : s.head?.any isWordChar = false)
    (h : Phrase.unsupported back (w ++ s) = some hit) :
    ∃ p ps, p :: ps ∈ unsupportedPhrases ∧ w.map foldCase = p.map foldCase ∧
      (ps ≠ [] → ∃ g t, Text.blanks? s = some (g, t) ∧ (Phrase.read? ps t).isSome = true) := by
  obtain ⟨-, p, ps, w', rest, hws, htext, hfold, hrest, hmore⟩ := unsupported_eq_some h
  have hw' : ∀ c ∈ w', isWordChar c = true := fun c hc =>
    isWordChar_of_isPhraseChar (isPhraseChar_of_fold hws (by simp) hfold c hc)
  obtain ⟨htake, hdrop⟩ := run_append hw hs
  obtain ⟨htake', hdrop'⟩ := run_append hw' hrest
  rw [htext, htake'] at htake
  rw [htext, hdrop'] at hdrop
  exact ⟨p, ps, hws, htake ▸ hfold, hdrop ▸ hmore⟩

theorem unsupported_of_isPhrase {back : Option Char} {w s : Text}
    (hback : back.any isWordChar = false) (hs : s.head?.any isWordChar = false)
    (hw : IsPhrase w) : Phrase.unsupported back (w ++ s) ≠ none := by
  obtain ⟨p, hp, hfold⟩ := hw
  have hread : Phrase.read? [p] (w ++ s) = some (w, s) := folded?_eq_some.mpr ⟨rfl, hfold⟩
  exact Phrase.unsupported_ne_none hback hs hp hread

theorem silent_word {w s : Text} (hw : ∀ c ∈ w, isWordChar c = true) {back : Option Char}
    (h : Phrase.unsupported back (w ++ s) = none) : Phrase.unsupported.Silent back w s := by
  have hinside {c : Char} (hc : isWordChar c = true) (t : Text) :
      Phrase.unsupported (some c) t = none := by
    simp [Phrase.unsupported, hc]
  induction w generalizing back with
  | nil => trivial
  | cons c w ih =>
    simp only [List.mem_cons, forall_eq_or_imp] at hw
    exact ⟨h, ih hw.2 (hinside hw.1 _)⟩

/-- A word that no phrase starts with. -/
def StartsNone (w : Text) : Prop :=
  ∀ p ps, p :: ps ∈ unsupportedPhrases → w.map foldCase ≠ p.map foldCase

instance (w : Text) : Decidable (StartsNone w) :=
  decidable_of_iff
    (unsupportedPhrases.all (fun ws => ws.head?.all fun p => w.map foldCase != p.map foldCase) =
      true) <| by
    simp only [List.all_eq_true, StartsNone]
    constructor
    · intro h p ps hps
      simpa using h _ hps
    · intro h ws hws
      cases ws with
      | nil => rfl
      | cons p ps => simpa using h p ps hws

theorem silent_of_startsNone {w s : Text} (hw : ∀ c ∈ w, isWordChar c = true)
    (hs : s.head?.any isWordChar = false) (h : StartsNone w) (back : Option Char) :
    Phrase.unsupported.Silent back w s := by
  apply silent_word hw
  by_contra hne
  obtain ⟨hit, hhit⟩ := Option.ne_none_iff_exists'.mp hne
  obtain ⟨p, ps, hps, hfold, -⟩ := unsupported_word hw hs hhit
  exact h p ps hps hfold

/-- What stands in a literal without blanks has its phrases in it, whatever follows. -/
theorem unsupported_quoted {back : Option Char} {t s s' : Text}
    (ht : ∀ c ∈ t, isBlank c = false)
    (h : Phrase.unsupported back (t ++ '\'' :: s) = none) :
    Phrase.unsupported back (t ++ '\'' :: s') = none := by
  by_contra hne
  obtain ⟨hit, hhit⟩ := Option.ne_none_iff_exists'.mp hne
  obtain ⟨hback, p, ps, w, rest, hws, htext, hfold, hrest, hmore⟩ := unsupported_eq_some hhit
  have hw := isPhraseChar_of_fold hws (by simp) hfold
  -- a phrase has no quote, so it ends in the literal
  obtain ⟨u, rfl, hu⟩ : ∃ u, t = w ++ u ∧ rest = u ++ '\'' :: s' := by
    rcases List.append_eq_append_iff.mp htext with ⟨v, hv, hr⟩ | ⟨u, hu, hr⟩
    · cases v with
      | nil => exact ⟨[], by simpa using hv.symm, by simpa using hr.symm⟩
      | cons c v =>
        obtain ⟨rfl, -⟩ := List.cons.inj hr
        cases hw '\'' (by simp [hv])
    · exact ⟨u, hu, hr⟩
  have hword : ps = [] := by
    by_contra hps
    obtain ⟨g, v, hblanks, -⟩ := hmore hps
    rw [hu] at hblanks
    cases u with
    | nil => cases hblanks
    | cons c u =>
      have hc := ht c (by simp)
      simp [Text.blanks?, hc] at hblanks
  subst hword
  refine unsupported_of_isPhrase hback ?_ ⟨p, hws, hfold⟩ (by simpa using h)
  rw [hu] at hrest
  cases u with
  | nil => rfl
  | cons c u => exact hrest

theorem silent_quoted {back : Option Char} {t s : Text} (s' : Text)
    (ht : ∀ c ∈ t, isBlank c = false)
    (h : Phrase.unsupported.Silent back t ('\'' :: s)) :
    Phrase.unsupported.Silent back t ('\'' :: s') := by
  induction t generalizing back with
  | nil => trivial
  | cons c t ih =>
    exact ⟨unsupported_quoted (t := c :: t) ht h.1,
      ih (fun a ha => ht a (List.mem_cons_of_mem c ha)) h.2⟩

/-! ### Clauses without phrases -/

def Item.Supported : Item → Prop
  | .literal contents => Phrase.unsupported.Silent (some '\'') contents ['\'']
  | _ => True

/-- No phrase is the column, and none stands in a literal. -/
structure Clause.Supported (c : Clause) : Prop where
  column : ∀ x, c.subject? = some x → ¬IsPhrase x.column
  items : c.ForItems Item.Supported

theorem not_blank_of_plain {t : Text} (ht : Plain t) : ∀ c ∈ t, isBlank c = false := by
  intro c hc
  have hp := ht c hc
  simp only [isPlainChar, Bool.not_eq_true', Bool.or_eq_false_iff] at hp
  exact hp.1

theorem Item.supported_of_silent {i : Item} (hi : i.Formed) {ls : List Lexeme} {g : Text}
    (hl : ∀ l ∈ spaced g i.tokens, l ∈ ls) {back : Option Char} {s : Text}
    (h : Phrase.unsupported.Silent back (ls.flatMap Lexeme.text) s) : i.Supported := by
  match i with
  | .number _ _ | .placeholder _ _ | .truth _ => trivial
  | .literal contents =>
    obtain ⟨a, b, rfl⟩ := List.append_of_mem (hl ⟨g, Language.literal contents⟩ (by simp [spaced, tokens]))
    have htext : (a ++ ⟨g, Language.literal contents⟩ :: b).flatMap Lexeme.text =
        (a.flatMap Lexeme.text ++ g ++ ['\'']) ++ (contents ++ '\'' :: b.flatMap Lexeme.text) := by
      simp [Lexeme.text, Language.literal]
    have hlast : (a.flatMap Lexeme.text ++ g ++ ['\'']).getLast?.or back = some '\'' := by simp
    rw [htext, Pattern.silent_append, hlast, Pattern.silent_append (u := contents)] at h
    exact silent_quoted [] (not_blank_of_plain hi) h.2.1

theorem Subject.not_isPhrase {x : Subject} (hx : x.Formed) (hcall : x.call = none) {g : Text}
    {back : Option Char} (hback : (g.getLast?.or back).any isWordChar = false)
    {ls : List Lexeme} {s : Text} (hfirm : Firm (ls.flatMap Lexeme.text ++ s))
    (h : Phrase.unsupported.Silent back ((x.lexemes g ++ ls).flatMap Lexeme.text) s) :
    ¬IsPhrase x.column := by
  obtain ⟨pre, hpre, htext⟩ : ∃ pre : Text,
      ((g ++ pre).getLast?.or back).any isWordChar = false ∧
      (x.lexemes g).flatMap Lexeme.text = (g ++ pre) ++ x.column := by
    unfold lexemes name
    rw [hcall]
    cases x.table with
    | none => exact ⟨[], by simpa using hback, by simp [Lexeme.text, word]⟩
    | some t => exact ⟨t ++ ['.'], by simp [isWordChar], by simp [Lexeme.text, word, dot]⟩
  rw [List.flatMap_append, htext, List.append_assoc, Pattern.silent_append] at h
  intro hphrase
  refine unsupported_of_isPhrase hpre (hfirm.head?_any rfl) hphrase ?_
  have hcolumn := h.2
  obtain ⟨c, w, hw⟩ := List.exists_cons_of_ne_nil hx.column.ne_nil
  rw [hw, List.cons_append, Pattern.Silent] at hcolumn
  simpa [hw] using hcolumn.1

theorem spaced_subset_entries {e f : Entry} {es : List Entry} (h : f ∈ e :: es) :
    ∀ l ∈ spaced f.gap f.item.tokens, l ∈ entries e es := by
  intro l hl
  induction es generalizing e with
  | nil =>
    rw [List.mem_singleton.mp h] at hl
    exact List.mem_append_left _ hl
  | cons a es ih =>
    rcases List.mem_cons.mp h with rfl | h
    · exact List.mem_append_left _ hl
    · exact List.mem_append_right _ (List.mem_cons_of_mem _ (ih h))

/-- A clause past the gate has no phrase. -/
theorem Clause.supported_of_silent {c : Clause} (hc : c.Formed)
    (hcall : ∃ x, c.subject? = some x ∧ x.call = none) {g : Text} {back : Option Char}
    (hback : (g.getLast?.or back).any isWordChar = false) {s : Text}
    (h : Phrase.unsupported.Silent back ((c.lexemes g).flatMap Lexeme.text) s) :
    c.Supported := by
  match c with
  | .compare (.item i) before relation behind right =>
    obtain ⟨x, hx, -⟩ := hcall
    cases hx
  | .compare (.subject x) before relation behind right =>
    obtain ⟨hx, hbefore, hbehind, hr, hapart⟩ := hc
    obtain ⟨y, hy, hnone⟩ := hcall
    cases hy
    refine ⟨fun y hy => ?_, ?_⟩
    · cases hy
      exact x.not_isPhrase hx hnone hback (relation.firm hbefore fun h => (hapart h).1) h
    · refine right.supported_of_silent hr (g := behind) (fun l hl => ?_) h
      exact List.mem_append_right _ (List.mem_cons_of_mem _ hl)
  | .member x negation membership beforeOpen first rest =>
    obtain ⟨hx, hn, hm, ho, he⟩ := hc
    obtain ⟨y, hy, hnone⟩ := hcall
    cases hy
    refine ⟨fun y hy => ?_, fun e hmem => ?_⟩
    · cases hy
      refine x.not_isPhrase hx hnone hback ?_ h
      cases negation with
      | none => exact hm.firm
      | some n => exact (hn n rfl).firm
    · refine e.item.supported_of_silent (he e hmem).item (g := e.gap) (fun l hl => ?_) h
      exact List.mem_append_right _ (List.mem_append_right _
        (List.mem_cons_of_mem _ (List.mem_cons_of_mem _ (spaced_subset_entries hmem l hl))))

/-- A rule past the gate has no phrase in its clauses. -/
theorem Rule.supported_of_silent {P : Clause → Prop}
    (hP : ∀ c, P c → c.Formed ∧ ∃ x, c.subject? = some x ∧ x.call = none) {r : Rule k}
    (hr : r.Formed P) {g : Text} (hg : IsGap g) {back : Option Char}
    (hback : (g.getLast?.or back).any isWordChar = false) {s : Text}
    (h : Phrase.unsupported.Silent back ((r.lexemes g).flatMap Lexeme.text) s) :
    r.Formed fun c => P c ∧ c.Supported := by
  have joined {k m : Rank} {l : Rule k} {r : Rule m} {w : Text} {j : Joint} (hj : j.Of w)
      {back : Option Char} {g s : Text} (h : Phrase.unsupported.Silent back
        ((l.lexemes g ++ ⟨j.before, word j.text⟩ :: r.lexemes j.behind).flatMap Lexeme.text) s) :
      (∃ s', Phrase.unsupported.Silent back ((l.lexemes g).flatMap Lexeme.text) s') ∧
        ∃ back', (j.behind.getLast?.or back').any isWordChar = false ∧
          Phrase.unsupported.Silent back' ((r.lexemes j.behind).flatMap Lexeme.text) s := by
    rw [List.flatMap_append, List.flatMap_cons, Pattern.silent_append, Pattern.silent_append] at h
    exact ⟨⟨_, h.1⟩, _, not_wordChar_of_gap hj.behind hj.apart_behind _, h.2.2⟩
  induction r generalizing g back s with
  | clause c =>
    obtain ⟨hc, hcall⟩ := hP c hr
    exact ⟨hr, c.supported_of_silent hc hcall hback h⟩
  | group inside r before ih =>
    have htext : ((group inside r before).lexemes g).flatMap Lexeme.text =
        (g ++ ['(']) ++ ((r.lexemes inside).flatMap Lexeme.text ++ (before ++ [')'])) := by
      simp [lexemes, Lexeme.text, opening, closing]
    have hopen : (g ++ ['(']).getLast?.or back = some '(' := by simp
    rw [htext, Pattern.silent_append, hopen] at h
    refine ⟨hr.1, ih hr.2.1 hr.1 ?_ (Pattern.silent_append.mp h.2).1, hr.2.2⟩
    by_cases hn : inside = []
    · rw [hn]
      rfl
    · exact not_wordChar_of_gap hr.1 hn _
  | part r ih => exact ih hr hg hback h
  | whole r ih => exact ih hr hg hback h
  | both l j r ihl ihr =>
    obtain ⟨⟨s', hl⟩, back', hback', hright⟩ := joined hr.2.1 h
    exact ⟨ihl hr.1 hg hback hl, hr.2.1, ihr hr.2.2 hr.2.1.behind hback' hright⟩
  | either l j r ihl ihr =>
    obtain ⟨⟨s', hl⟩, back', hback', hright⟩ := joined hr.2.1 h
    exact ⟨ihl hr.1 hg hback hl, hr.2.1, ihr hr.2.2 hr.2.1.behind hback' hright⟩

/-- No phrase starts in lexemes `u` with `s` behind them. -/
def Quiets (tail : Text) (u s _u' : List Lexeme) : Prop :=
  ∀ back, Phrase.unsupported.Silent back (u.flatMap Lexeme.text) (s.flatMap Lexeme.text ++ tail)

theorem Quiets.append {tail : Text} {u v s u' v' : List Lexeme}
    (hu : Quiets tail u (v ++ s) u') (hv : Quiets tail v s v') :
    Quiets tail (u ++ v) s (u' ++ v') := by
  intro back
  rw [List.flatMap_append, Pattern.silent_append]
  refine ⟨?_, hv _⟩
  have h := hu back
  rwa [List.flatMap_append, List.append_assoc] at h

theorem quiets_single {tail : Text} {g : Text} (hg : IsGap g) {t : Token} {s u' : List Lexeme}
    (h : ∀ back, Phrase.unsupported.Silent back t.text (s.flatMap Lexeme.text ++ tail)) :
    Quiets tail [⟨g, t⟩] s u' := by
  have hgap : ∀ c ∈ g, isPhraseChar c = false :=
    fun c hc => of_isGapChar isPhraseChar rfl (hg c hc)
  intro back
  rw [List.flatMap_singleton, Lexeme.text, Pattern.silent_append]
  exact ⟨(still_unsupported hgap _).silent _, h _⟩

theorem quiets_sign {tail : Text} {g : Text} (hg : IsGap g) {t : Token}
    (ht : t.text.any isPhraseChar = false) {s u' : List Lexeme} :
    Quiets tail [⟨g, t⟩] s u' := by
  refine quiets_single hg fun back => (still_unsupported (fun c hc => ?_) _).silent back
  simpa using List.any_eq_false.mp ht c hc

theorem quiets_word {tail : Text} {g : Text} (hg : IsGap g) {w : Text}
    (hw : ∀ c ∈ w, isWordChar c = true) (h : StartsNone w) {s u' : List Lexeme}
    (hs : Firm (s.flatMap Lexeme.text ++ tail)) : Quiets tail [⟨g, word w⟩] s u' :=
  quiets_single hg (silent_of_startsNone hw (hs.head?_any rfl) h)

theorem Joint.Of.quiets {tail : Text} {w : Text} {j : Joint} (hj : j.Of w) (hw : IsConnective w)
    {s u' : List Lexeme} (hs : Firm (s.flatMap Lexeme.text ++ tail)) :
    Quiets tail [⟨j.before, word j.text⟩] s u' := by
  have hlower : Text.lower j.text = Text.lower w := hj.spells
  have hfold : j.text.map foldCase = Text.lower w := by
    rw [← hlower]
    refine List.map_congr_left fun c hc => foldCase_of_toLower ?_
    have hm : c.toLower ∈ Text.lower w := hlower ▸ List.mem_map_of_mem hc
    have hall : (Text.lower w).all Char.isAlpha = true := by rcases hw with rfl | rfl <;> decide
    exact List.all_eq_true.mp hall _ hm
  refine quiets_word hj.before (fun c hc => ?_) ?_ hs
  · by_contra hne
    have hname : Token.isNameChar c = false := by
      by_contra h
      exact hne (isWordChar_of_isNameChar (Bool.not_eq_false _ ▸ h))
    rcases hw with rfl | rfl <;> exact hj.spells.not_mem (by decide) (by decide) hname hc
  · intro p ps hps
    rw [hfold]
    have hstart : StartsNone (Text.lower w) := by rcases hw with rfl | rfl <;> decide
    have hsame : (Text.lower w).map foldCase = Text.lower w := by
      rcases hw with rfl | rfl <;> decide
    exact hsame ▸ hstart p ps hps

/-- No phrase goes on with the word or the sign of a comparison. -/
theorem Relation.read?_text (r : Relation) {p : Text} {ps : List Text}
    (hp : p :: ps ∈ unsupportedPhrases) (hps : ps ≠ []) (s : Text) :
    Phrase.read? ps (r.token.text ++ s) = none := by
  have htails : ps = ["BY".toList] ∨ ps = ["NULL".toList] ∨ ps = ["NOT".toList, "NULL".toList] := by
    simp [unsupportedPhrases] at hp
    tauto
  rcases htails with rfl | rfl | rfl <;> cases r <;> rfl

theorem Relation.blanks?_text (r : Relation) {g : Text} (hg : IsGap g) (s : Text) :
    Text.blanks? (g ++ (r.token.text ++ s)) =
      if g = [] then none else some (g, r.token.text ++ s) := by
  have hhead : (r.token.text ++ s).head?.any isBlank = false := by cases r <;> rfl
  split
  · next hn =>
    rw [hn]
    cases r <;> rfl
  · next hn => exact blanks?_gap hg hn hhead

theorem Relation.quiets (r : Relation) {tail g : Text} (hg : IsGap g) {s u' : List Lexeme}
    (hs : r.isSpelled = true → Firm (s.flatMap Lexeme.text ++ tail)) :
    Quiets tail [⟨g, r.token⟩] s u' := by
  cases r
  case eqWord => exact quiets_word hg (List.all_eq_true.mp rfl) (by decide) (hs rfl)
  case neqWord => exact quiets_word hg (List.all_eq_true.mp rfl) (by decide) (hs rfl)
  all_goals exact quiets_sign hg rfl

theorem not_isPhraseChar_of_numeral {n : Text} (hn : Token.Numeral n) :
    n.any isPhraseChar = false := by
  rw [List.any_eq_false]
  intro c hc
  rcases mem_numeral hn hc with hd | rfl
  · have hfold : foldCase c = c.toLower := by
      unfold foldCase
      split
      · next he =>
        rw [he] at hd
        cases hd
      · split
        · next he =>
          rw [he] at hd
          cases hd
        · rfl
    rw [isPhraseChar, hfold, Char.isAlpha_toLower_eq_isAlpha, not_alpha_of_digit hd]
    simp
  · decide

theorem Item.quiets {i : Item} (hi : i.Formed) (hv : i.Valued) (hi' : i.Supported) {tail g : Text}
    (hg : IsGap g) {s u' : List Lexeme} (hs : Firm (s.flatMap Lexeme.text ++ tail)) :
    Quiets tail (spaced g i.tokens) s u' := by
  match i with
  | .number false n => exact quiets_sign hg (not_isPhraseChar_of_numeral (n := n) hi)
  | .number true n =>
    have hsign : Quiets tail [⟨g, minus⟩] ([⟨[], ⟨.number, n⟩⟩] ++ s) [] := quiets_sign hg rfl
    have hdigits : Quiets tail [⟨[], ⟨.number, n⟩⟩] s u' :=
      quiets_sign isGap_nil (not_isPhraseChar_of_numeral (n := n) hi)
    exact hsign.append hdigits
  | .literal contents =>
    refine quiets_single hg fun back => ?_
    have hquote : isPhraseChar '\'' = false := by decide
    refine ⟨unsupported_cons hquote back _, ?_⟩
    rw [List.append_eq, Pattern.silent_append]
    exact ⟨silent_quoted _ (not_blank_of_plain hi) hi', unsupported_cons hquote _ _, trivial⟩
  | .truth true => exact quiets_word hg (List.all_eq_true.mp rfl) (by decide) hs
  | .truth false => exact quiets_word hg (List.all_eq_true.mp rfl) (by decide) hs

theorem Clause.quiets {left : Side} {before behind : Text} {relation : Relation} {right : Item}
    (hc : (Clause.compare left before relation behind right).Simple)
    (hs' : (Clause.compare left before relation behind right).Supported) {x : Subject}
    (hleft : left = .subject x) {tail g : Text} (hg : IsGap g) {s u' : List Lexeme}
    (hs : Firm (s.flatMap Lexeme.text ++ tail)) :
    Quiets tail ((Clause.compare left before relation behind right).lexemes g) s u' := by
  subst hleft
  obtain ⟨hleft, hb, hb', hr, hapart⟩ := hc.settled.formed
  have hx : x.Formed := hleft
  have hbare := hc.settled.bare x rfl
  have hitem : Quiets tail (spaced behind right.tokens) s u' :=
    right.quiets hr hc.settled.valued hs'.items hb' hs
  have hsign : Quiets tail [⟨before, relation.token⟩] (spaced behind right.tokens ++ s) [] := by
    refine relation.quiets hb fun h => ?_
    rw [List.flatMap_append, text_spaced _ right.tokens_ne_nil, List.append_assoc, List.append_assoc]
    exact firm_of_ne_nil hb' (hapart h).2
  have hfirm : Firm ((⟨before, relation.token⟩ :: (spaced behind right.tokens ++ s) :
      List Lexeme).flatMap Lexeme.text ++ tail) :=
    relation.firm hb fun h => (hapart h).1
  have hname : ∀ c ∈ x.column, isWordChar c = true := fun c hc =>
    isWordChar_of_isNameChar (hx.column.isNameChar hc)
  have hcolumn : Quiets tail [⟨g, word x.column⟩]
      (⟨before, relation.token⟩ :: (spaced behind right.tokens ++ s)) [] := by
    refine quiets_single hg fun back => silent_word hname ?_
    by_contra hne
    obtain ⟨hit, hhit⟩ := Option.ne_none_iff_exists'.mp hne
    obtain ⟨p, ps, hp, hfold, hmore⟩ := unsupported_word hname (hfirm.head?_any rfl) hhit
    by_cases hps : ps = []
    · exact hs'.column x rfl ⟨p, hps ▸ hp, hfold⟩
    · obtain ⟨b, t, hblanks, hread⟩ := hmore hps
      have htext : (⟨before, relation.token⟩ :: (spaced behind right.tokens ++ s) :
          List Lexeme).flatMap Lexeme.text ++ tail = before ++ (relation.token.text ++
            ((spaced behind right.tokens ++ s).flatMap Lexeme.text ++ tail)) := by
        simp [Lexeme.text]
      rw [htext, relation.blanks?_text hb] at hblanks
      split at hblanks
      · cases hblanks
      · cases hblanks
        rw [relation.read?_text hp hps] at hread
        cases hread
  rw [lexemes, Side.lexemes, x.lexemes_of_bare hbare.1 hbare.2]
  exact hcolumn.append (hsign.append hitem)

theorem carries_quiets {tail : Text} (ht : IsGap tail) :
    Carries (Quiets tail) id .clause
      fun c => c.Simple ∧ (c.subject?.isSome = true) ∧ c.Supported := by
  refine ⟨Quiets.append, ?_, ?_, ?_, ?_⟩
  · intro g s hg
    exact quiets_sign hg rfl
  · intro g s hg
    exact quiets_sign hg rfl
  · intro j w s hj hw hs
    obtain ⟨l, ls, rfl, hl, hn, -⟩ := hs
    refine hj.quiets hw ?_
    rw [List.flatMap_cons, Lexeme.text, List.append_assoc, List.append_assoc]
    exact firm_of_ne_nil hl hn
  · intro c g s hc hg hs
    obtain ⟨hsimple, hsubject, hsupported⟩ := hc
    cases c with
    | member => cases hsimple.no_list
    | compare left before relation behind right =>
      cases left with
      | item i => cases hsubject
      | subject x => exact Clause.quiets hsimple hsupported rfl hg (hs.firm ht)

/-- A rule without phrases passes the gate. -/
theorem checkSupported_text {r : Rule k}
    (hr : r.Formed fun c => c.Simple ∧ (c.subject?.isSome = true) ∧ c.Supported)
    {lead tail : Text} (hlead : IsGap lead) (htail : IsGap tail) :
    checkSupported (r.text lead tail) = .ok () := by
  have hall := (carries_quiets htail).rule (fun _ h => h.1.settled.formed) hr hlead .nil
  have hend : Quiets [] [⟨tail, ⟨.other, []⟩⟩] [] [] := quiets_sign htail rfl
  rw [checkSupported_eq_ok_iff, Rule.text, Pattern.silent_append]
  exact ⟨by simpa using hall none, by simpa [Lexeme.text] using hend _⟩

end Language

end WhereFilter
