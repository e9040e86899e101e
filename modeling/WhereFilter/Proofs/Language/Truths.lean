import WhereFilter.Proofs.Language.Signs
import WhereFilter.Rule.YesNo

namespace WhereFilter

namespace Language

open Pattern

theorem of_operand {back : Option Char} {s rest : Text} {op : Text} {holds : Bool}
    (h : YesNo.operand back s = some ((op, holds), rest)) :
    ∃ b, s = op ++ (b ++ ('\'' :: letterText holds ++ '\'' :: rest)) ∧ b ≠ [] ∧
      (∀ c ∈ b, isBlank c = true) ∧ (op = ['e', 'q'] ∨ op = ['n', 'e', 'q']) := by
  simp only [YesNo.operand] at h
  split at h
  · cases h
  · simp only [Option.bind_eq_bind, Option.bind_eq_some_iff, Prod.exists, Option.some.injEq,
      Prod.mk.injEq] at h
    obtain ⟨op', s', hop, b, s'', hb, holds', rest', hl, ⟨rfl, rfl⟩, rfl⟩ := h
    have htext := Text.blanks?_text hb
    have hword : s = op' ++ s' ∧ (op' = ['e', 'q'] ∨ op' = ['n', 'e', 'q']) := by
      unfold YesNo.operator? at hop
      split at hop
      · next t ht =>
        cases hop
        exact ⟨Text.after?_eq_some.mp ht, .inr rfl⟩
      · obtain ⟨t, ht, he⟩ := Option.map_eq_some_iff.mp hop
        cases he
        exact ⟨Text.after?_eq_some.mp ht, .inl rfl⟩
    refine ⟨b, ?_, ?_, ?_, hword.2⟩
    · rw [hword.1, htext, literal?_eq_some.mp hl]
    · unfold Text.blanks? at hb
      split at hb
      · cases hb
      · cases hb
        assumption
    · unfold Text.blanks? at hb
      split at hb
      · cases hb
      · cases hb
        exact holds_of_mem_takeWhile

/-- Where no blank stands in `u`, a letter is compared at most with the word right behind it. -/
theorem still_operand {u s : Text} (hu : ∀ c ∈ u, isBlank c = false) (hs : Firm s)
    (hl : YesNo.literal? (Text.skipBlanks s) = none) : YesNo.operand.Still u s := by
  intro back v hv hsuffix
  cases h : YesNo.operand back (v ++ s) with
  | none => rfl
  | some hit =>
    obtain ⟨⟨op, holds⟩, rest⟩ := hit
    obtain ⟨b, he, hn, hb, hop⟩ := of_operand h
    have hblanks (hs : s = b ++ ('\'' :: letterText holds ++ '\'' :: rest)) : False := by
      rw [hs, skipBlanks_append hb rfl, literal?_eq_some.mpr rfl] at hl
      cases hl
    have hword {c : Char} (hc : c ∈ op) : c ∈ ['n', 'e', 'q'] := by
      rcases hop with rfl | rfl
      · exact List.mem_cons_of_mem 'n' hc
      · exact hc
    rcases List.append_eq_append_iff.mp he with ⟨x, hx, hs'⟩ | ⟨x, hx, hs'⟩
    · cases x with
      | nil => exact (hblanks hs').elim
      | cons c x =>
        have hfirm : ∀ c ∈ firmChars, c ∉ ['n', 'e', 'q'] := by simp [firmChars]
        exact absurd (hword (by rw [hx]; simp)) (hfirm c (hs c (by rw [hs']; rfl)))
    · cases x with
      | nil => exact (hblanks hs'.symm).elim
      | cons c x =>
        obtain ⟨d, b', rfl⟩ := List.exists_cons_of_ne_nil hn
        have hcd : d = c := (List.cons.inj hs').1
        have hblank := hb d (by simp)
        rw [hcd, hu c (hsuffix.subset (by rw [hx]; simp))] at hblank
        cases hblank

theorem operand_of_ne {a : Char} (ha : a ∉ ['e', 'n']) (back : Option Char) (r : Text) :
    YesNo.operand back (a :: r) = none := by
  cases h : YesNo.operand back (a :: r) with
  | none => rfl
  | some hit =>
    obtain ⟨b, he, -, -, hop⟩ := of_operand h
    have hmem : a ∈ ['e', 'n'] := by
      rcases hop with hop | hop
      · rw [hop] at he
        rw [(List.cons.inj he).1]
        simp
      · rw [hop] at he
        rw [(List.cons.inj he).1]
        simp
    exact absurd hmem ha

/-- Neither of the letters that start `eq` and `neq` is in the text. -/
theorem still_operand_of_not_mem {u : Text} (he : 'e' ∉ u) (hn : 'n' ∉ u) (s : Text) :
    YesNo.operand.Still u s := by
  apply still_of_heads
  intro a ha
  apply operand_of_ne
  intro hm
  simp only [List.mem_cons, List.not_mem_nil, or_false] at hm
  rcases hm with rfl | rfl
  · exact he ha
  · exact hn ha

/-- No `q` is in the text, and none comes right behind it. -/
theorem still_operand_of_firm {u s : Text} (hq : 'q' ∉ u) (hs : Firm s) :
    YesNo.operand.Still u s := by
  intro back v hv hsuffix
  cases h : YesNo.operand back (v ++ s) with
  | none => rfl
  | some hit =>
    obtain ⟨b, he, -, -, hop⟩ := of_operand h
    have hmem : 'q' ∈ hit.1.1 := by rcases hop with hop | hop <;> rw [hop] <;> simp
    rcases List.append_eq_append_iff.mp he with ⟨x, hx, hs'⟩ | ⟨x, hx, -⟩
    · cases x with
      | nil =>
        rw [hx, List.append_nil] at hmem
        exact absurd (hsuffix.subset hmem) hq
      | cons c x =>
        have hfirm : ∀ c ∈ firmChars, c ∉ ['n', 'e', 'q'] := by simp [firmChars]
        have hc : c ∈ ['n', 'e', 'q'] := by
          have hin : c ∈ hit.1.1 := by rw [hx]; simp
          rcases hop with hop | hop <;> rw [hop] at hin
          · exact List.mem_cons_of_mem 'n' hin
          · exact hin
        exact absurd hc (hfirm c (hs c (by rw [hs']; rfl)))
    · exact absurd (hsuffix.subset (by rw [hx]; exact List.mem_append_left _ hmem)) hq

theorem still_operand_gap {g : Text} (hg : IsGap g) (s : Text) : YesNo.operand.Still g s := by
  apply still_operand_of_not_mem
  · intro hm
    cases hg _ hm
  · intro hm
    cases hg _ hm

/-- The truth value that a letter stands for. -/
def Item.letter? : Item → Option Bool
  | .literal c =>
    if c = letterText true then some true
    else if c = letterText false then some false
    else none
  | _ => none

theorem Item.letter?_eq_some {i : Item} {holds : Bool} (h : i.letter? = some holds) :
    i = .literal (letterText holds) := by
  unfold letter? at h
  split at h
  · split at h
    · next he => cases h; rw [he]
    · split at h
      · next he => cases h; rw [he]
      · cases h
  · cases h

theorem literal?_append {c s rest : Text} {holds : Bool} (hc : '\'' ∉ c)
    (h : YesNo.literal? ('\'' :: c ++ '\'' :: s) = some (holds, rest)) : c = letterText holds := by
  have he := literal?_eq_some.mp h
  simp only [letterText, List.cons_append, List.nil_append, List.cons.injEq, true_and] at he
  cases c with
  | nil =>
    have hq : '\'' = Value.yesNoLetter holds := (List.cons.inj he).1
    cases holds <;> cases hq
  | cons a c =>
    obtain ⟨ha, htail⟩ := List.cons.inj he
    cases c with
    | nil => rw [ha, letterText]
    | cons a' c =>
      have hq : a' = '\'' := (List.cons.inj htail).1
      rw [hq] at hc
      exact absurd (by simp) hc

theorem Item.quote_not_mem {i : Item} (hi : i.Formed) (hv : i.Valued)
    (hn : ∀ c, i ≠ .literal c) : '\'' ∉ i.text := by
  have numeral {n : Text} (hn : Token.Numeral n) : '\'' ∉ n :=
    not_mem_numeral hn rfl (by decide)
  match i with
  | .literal c => exact absurd rfl (hn c)
  | .number true digits => simpa [text, tokens, minus] using numeral hi
  | .number false digits => simpa [text, tokens] using numeral hi
  | .truth true | .truth false => simp [text, tokens, word, truthWord]

/-- An item that is no letter is read as none. -/
theorem Item.literal?_text {i : Item} (hi : i.Formed) (hv : i.Valued) (hl : i.letter? = none)
    (s : Text) : YesNo.literal? (i.text ++ s) = none := by
  cases h : YesNo.literal? (i.text ++ s) with
  | none => rfl
  | some found =>
    obtain ⟨holds, rest⟩ := found
    by_cases hn : ∃ c, i = .literal c
    · obtain ⟨c, rfl⟩ := hn
      have htext : (Item.literal c).text ++ s = '\'' :: c ++ '\'' :: s := by
        simp [text, tokens, Language.literal]
      rw [htext] at h
      have hc := literal?_append (not_quote_of_plain hi) h
      cases holds <;> simp [letter?, hc, letterText, Value.yesNoLetter] at hl
    · obtain ⟨c, t, ht, -⟩ := i.text_eq_cons hi
      have hquote : '\'' ∈ i.text := by
        have he := literal?_eq_some.mp h
        rw [ht] at he
        rw [ht, (List.cons.inj he).1]
        simp
      exact absurd hquote (i.quote_not_mem hi hv fun c hc => hn ⟨c, hc⟩)

/-- How lexemes are written where letters become truth values. -/
abbrev Validates (tail : Text) (u s u' : List Lexeme) : Prop :=
  YesNo.operand.Turns (fun c => [c])
    (fun (op, b) => op ++ ' ' :: if b then "true".toList else "false".toList)
    (u.flatMap Lexeme.text) (s.flatMap Lexeme.text ++ tail) (u'.flatMap Lexeme.text)

theorem validates_of_still {tail : Text} {u s : List Lexeme}
    (h : YesNo.operand.Still (u.flatMap Lexeme.text) (s.flatMap Lexeme.text ++ tail)) :
    Validates tail u s u :=
  turns_of_still _ h

theorem Validates.append {tail : Text} {u v s u' v' : List Lexeme}
    (hu : Validates tail u (v ++ s) u') (hv : Validates tail v s v') :
    Validates tail (u ++ v) s (u' ++ v') := by
  simp only [Validates, List.flatMap_append, List.append_assoc] at hu hv ⊢
  exact Turns.append hu hv

/-- Letters that a column is compared with by a word become truth values. -/
def Clause.validated : Clause → Clause
  | .compare left before relation behind right =>
    match relation.isSpelled, right.letter? with
    | true, some holds => .compare left before relation [' '] (.truth holds)
    | _, _ => .compare left before relation behind right
  | c => c

/-- A lexeme that is no word has its text read as it is. -/
theorem validates_sign {g : Text} {t : Token} (hg : IsGap g) (he : 'e' ∉ t.text)
    (hn : 'n' ∉ t.text) (tail : Text) (s : List Lexeme) : Validates tail [⟨g, t⟩] s [⟨g, t⟩] := by
  apply validates_of_still
  have hall := (still_operand_gap hg _).append
    (still_operand_of_not_mem he hn (s.flatMap Lexeme.text ++ tail))
  simpa [Lexeme.text] using hall

/-- A lexeme with no blank in its token stands before what is no letter. -/
theorem validates_token {g : Text} {t : Token} (hg : IsGap g)
    (ht : ∀ c ∈ t.text, isBlank c = false) {tail : Text} {s : List Lexeme}
    (hs : Firm (s.flatMap Lexeme.text ++ tail))
    (hl : YesNo.literal? (Text.skipBlanks (s.flatMap Lexeme.text ++ tail)) = none) :
    Validates tail [⟨g, t⟩] s [⟨g, t⟩] := by
  apply validates_of_still
  have hall := (still_operand_gap hg _).append (still_operand ht hs hl)
  simpa [Lexeme.text] using hall

theorem literal?_of_ne {c : Char} (hc : c ≠ '\'') (s : Text) : YesNo.literal? (c :: s) = none := by
  cases h : YesNo.literal? (c :: s) with
  | none => rfl
  | some found =>
    have he := literal?_eq_some.mp h
    exact absurd (List.cons.inj he).1 hc

theorem Item.skipBlanks_text {i : Item} (hi : i.Formed) {g : Text} (hg : IsGap g) (s : Text) :
    Text.skipBlanks (g ++ (i.text ++ s)) = i.text ++ s := by
  obtain ⟨c, t, ht, -⟩ := i.text_eq_cons hi
  have hc := i.no_blank hi c (by rw [ht]; simp)
  rw [ht]
  exact skipBlanks_gap hg hc _

theorem Ends.literal? {s : List Lexeme} (h : Ends s) {tail : Text} (ht : IsGap tail) :
    YesNo.literal? (Text.skipBlanks (s.flatMap Lexeme.text ++ tail)) = none := by
  cases h with
  | nil =>
    have hskip := skipBlanks_append (r := []) (fun a ha => isBlank_of_isGapChar (ht a ha)) rfl
    rw [List.append_nil] at hskip
    rw [List.flatMap_nil, List.nil_append, hskip]
    rfl
  | @closing g ls hg =>
    have htext : (⟨g, Language.closing⟩ :: ls : List Lexeme).flatMap Lexeme.text ++ tail =
        g ++ ')' :: (ls.flatMap Lexeme.text ++ tail) := by
      simp [Lexeme.text, Language.closing]
    rw [htext, skipBlanks_gap hg rfl]
    exact literal?_of_ne (by decide) _
  | @joint j w ls hj hw =>
    have hword : w ≠ [] ∧ w.all Char.isAlpha = true := by
      rcases hw with rfl | rfl <;> exact ⟨by decide, by decide⟩
    have hskip := skipBlanks_word hj.spells hword.1 hword.2 hj.before
      (ls.flatMap Lexeme.text ++ tail)
    have htext : (⟨j.before, word j.text⟩ :: ls : List Lexeme).flatMap Lexeme.text ++ tail =
        j.before ++ (j.text ++ (ls.flatMap Lexeme.text ++ tail)) := by
      simp [Lexeme.text, word]
    obtain ⟨c, r, he, hc, -⟩ := hj.spells.formed hword.1 hword.2
    have he' : j.text = c :: r := he
    rw [htext, hskip, he']
    apply literal?_of_ne
    rintro rfl
    cases hc

theorem Relation.literal?_text (r : Relation) {g : Text} (hg : IsGap g) (s : Text) :
    YesNo.literal? (Text.skipBlanks (g ++ (r.token.text ++ s))) = none := by
  obtain ⟨c, t, ht, hblank, hquote⟩ : ∃ c t, r.token.text = c :: t ∧ isBlank c = false ∧ c ≠ '\'' := by
    cases r <;> exact ⟨_, _, rfl, rfl, by decide⟩
  rw [ht, List.cons_append, skipBlanks_gap hg hblank]
  exact literal?_of_ne hquote _

theorem not_wordChar_of_gap {g : Text} (hg : IsGap g) (hn : g ≠ []) (back : Option Char) :
    (g.getLast?.or back).any isWordChar = false := by
  have hlast : g.getLast? = some (g.getLast hn) := List.getLast?_eq_some_getLast hn
  rw [hlast]
  exact of_isGapChar isWordChar rfl (hg _ (List.getLast_mem hn))

theorem blanks?_gap {g s : Text} (hg : IsGap g) (hn : g ≠ [])
    (hs : s.head?.any isBlank = false) : Text.blanks? (g ++ s) = some (g, s) := by
  obtain ⟨htake, hdrop⟩ := run_append (fun c hc => isBlank_of_isGapChar (hg c hc)) hs
  unfold Text.blanks?
  rw [htake, hdrop]
  split
  · exact absurd rfl hn
  · rfl

/-- A word, blanks and a letter are hit where the word stands apart. -/
theorem operand_letter {op : Text} (hop : op = ['e', 'q'] ∨ op = ['n', 'e', 'q']) {b : Text}
    (hb : IsGap b) (hn : b ≠ []) (holds : Bool) {back : Option Char}
    (hback : back.any isWordChar = false) (s : Text) :
    YesNo.operand back (op ++ (b ++ ('\'' :: letterText holds ++ '\'' :: s))) =
      some ((op, holds), s) := by
  have hoperator (r : Text) : YesNo.operator? (op ++ r) = some (op, r) := by
    rcases hop with rfl | rfl <;> rfl
  have hblanks : Text.blanks? (b ++ ('\'' :: letterText holds ++ '\'' :: s)) =
      some (b, '\'' :: letterText holds ++ '\'' :: s) := blanks?_gap hb hn rfl
  have hletter : YesNo.literal? ('\'' :: letterText holds ++ '\'' :: s) = some (holds, s) :=
    literal?_eq_some.mpr rfl
  simp only [YesNo.operand, hback, Bool.false_eq_true, if_false, hoperator, hblanks, hletter,
    Option.bind_eq_bind, Option.bind_some]

theorem validates_letter {op : Text} (hop : op = ['e', 'q'] ∨ op = ['n', 'e', 'q'])
    {before behind : Text} (hb : IsGap before) (hn : before ≠ []) (hb' : IsGap behind)
    (hn' : behind ≠ []) (holds : Bool) (tail : Text) (s : List Lexeme) :
    Validates tail (⟨before, word op⟩ :: spaced behind (Item.literal (letterText holds)).tokens) s
      (⟨before, word op⟩ :: spaced [' '] (Item.truth holds).tokens) := by
  have hit (back : Option Char) := operand_letter hop hb' hn' holds
    (not_wordChar_of_gap hb hn back) (s.flatMap Lexeme.text ++ tail)
  have hturn := turns_of_hit (p := YesNo.operand)
    (fun (op, b) => op ++ ' ' :: if b then "true".toList else "false".toList) (g := before)
    (u := op ++ (behind ++ ('\'' :: letterText holds ++ ['\''])))
    (s := s.flatMap Lexeme.text ++ tail) (b := (op, holds)) (still_operand_gap hb _)
    (by rcases hop with rfl | rfl <;> simp) (by simpa using hit)
  cases holds <;>
    simpa [Validates, spaced, Item.tokens, Item.truthWord, Lexeme.text, literal, word] using hturn

theorem Item.validates {i : Item} (hi : i.Formed) {g : Text} (hg : IsGap g) {tail : Text}
    (ht : IsGap tail) {s : List Lexeme} (hs : Ends s) :
    Validates tail (spaced g i.tokens) s (spaced g i.tokens) := by
  apply validates_of_still
  rw [text_spaced g i.tokens_ne_nil]
  exact (still_operand_gap hg _).append (still_operand (i.no_blank hi) (hs.firm ht) (hs.literal? ht))

theorem Relation.spelled_cases {r : Relation} (h : r.isSpelled = true) :
    ∃ op, r.token = word op ∧ (op = ['e', 'q'] ∨ op = ['n', 'e', 'q']) := by
  cases r
  case eqWord => exact ⟨['e', 'q'], rfl, .inl rfl⟩
  case neqWord => exact ⟨['n', 'e', 'q'], rfl, .inr rfl⟩
  all_goals cases h

/-- One token, a name or a number, stands on the left. -/
theorem Clause.Simple.left_token {left : Side} {before behind : Text} {relation : Relation}
    {right : Item} (h : (Clause.compare left before relation behind right).Simple) :
    ∃ t : Token, (∀ g, left.lexemes g = [⟨g, t⟩]) ∧
      (∀ c ∈ t.text, Token.isNameChar c = true) ∧ t.text ≠ [] := by
  cases left with
  | item i =>
    obtain ⟨rfl, -⟩ := h.marked _ _ _ _ _ rfl
    exact ⟨_, fun _ => rfl, by simp [Token.isNameChar], by simp⟩
  | subject x =>
    have hbare := h.settled.bare x rfl
    have hx : x.Formed := h.settled.formed.1
    exact ⟨_, x.lexemes_of_bare hbare.1 hbare.2, fun c => hx.column.isNameChar,
      hx.column.ne_nil⟩

theorem Clause.validates {c : Clause} (hc : c.Simple) {g : Text} (hg : IsGap g) {tail : Text}
    (ht : IsGap tail) {s : List Lexeme} (hs : Ends s) :
    Validates tail (c.lexemes g) s (c.validated.lexemes g) := by
  match c, hc with
  | .member _ _ _ _ _ _, hc => cases hc.no_list
  | .compare left before relation behind right, hc =>
    obtain ⟨hl, hb, hb', hr, hw⟩ := hc.settled.formed
    have hrv : right.Valued := by
      cases left with
      | item i => exact hc.settled.valued.2
      | subject x => exact hc.settled.valued
    obtain ⟨t, hleft, hname, -⟩ := hc.left_token
    have first (ls : List Lexeme) :
        Validates tail [⟨g, t⟩] (⟨before, relation.token⟩ :: ls ++ s) [⟨g, t⟩] := by
      refine validates_token hg (fun c hc => not_blank_of_isNameChar (hname c hc)) ?_ ?_
      · exact relation.firm hb fun h => (hw h).1
      · have hnone := relation.literal?_text hb ((ls ++ s).flatMap Lexeme.text ++ tail)
        simpa [Lexeme.text] using hnone
    have keep (hsign : Validates tail [⟨before, relation.token⟩] (spaced behind right.tokens ++ s)
        [⟨before, relation.token⟩]) :
        Validates tail ((Clause.compare left before relation behind right).lexemes g) s
          ((Clause.compare left before relation behind right).lexemes g) := by
      rw [lexemes, hleft]
      exact (first _).append (hsign.append (right.validates hr hb' ht hs))
    cases hspelled : relation.isSpelled with
    | false =>
      simp only [validated, hspelled]
      apply keep
      apply validates_sign hb <;> cases relation <;> first | decide | cases hspelled
    | true =>
      obtain ⟨op, htoken, hop⟩ := relation.spelled_cases hspelled
      obtain ⟨hn, hn'⟩ := hw hspelled
      cases hletter : right.letter? with
      | none =>
        simp only [validated, hspelled, hletter]
        apply keep
        have htext : (spaced behind right.tokens ++ s).flatMap Lexeme.text ++ tail =
            behind ++ (right.text ++ (s.flatMap Lexeme.text ++ tail)) := by
          rw [List.flatMap_append, text_spaced behind right.tokens_ne_nil]
          simp [Item.text]
        apply validates_token hb
        · rw [htoken]
          rcases hop with rfl | rfl <;> simp [word, isBlank]
        · rw [htext]
          exact firm_of_ne_nil hb' hn'
        · rw [htext, right.skipBlanks_text hr hb']
          exact right.literal?_text hr hrv hletter _
      | some holds =>
        have hletters := validates_letter hop hb hn hb' hn' holds tail s
        rw [← htoken, ← right.letter?_eq_some hletter] at hletters
        simp only [validated, hspelled, hletter, lexemes, hleft]
        exact (first _).append hletters

theorem carries_validates {tail : Text} (ht : IsGap tail) :
    Carries (Validates tail) id (fun c => .clause c.validated) Clause.Simple := by
  refine ⟨Validates.append, ?_, ?_, ?_, ?_⟩
  · intro g s hg
    exact validates_sign hg (by decide) (by decide) tail s
  · intro g s hg
    exact validates_sign hg (by decide) (by decide) tail s
  · intro j w s hj hw hs
    obtain ⟨l, ls, rfl, hl, hn, -⟩ := hs
    have hfirm : Firm ((l :: ls).flatMap Lexeme.text ++ tail) := by
      rw [List.flatMap_cons, Lexeme.text, List.append_assoc, List.append_assoc]
      exact firm_of_ne_nil hl hn
    have hq : 'q' ∉ j.text := by
      intro hm
      have hlower : Text.lower j.text = Text.lower w := hj.spells
      have hmem : 'q' ∈ Text.lower w := by
        rw [← hlower]
        exact List.mem_map_of_mem (f := Char.toLower) hm
      rcases hw with rfl | rfl <;> revert hmem <;> decide
    apply validates_of_still
    have hall := (still_operand_gap hj.before _).append (still_operand_of_firm hq hfirm)
    simpa [Lexeme.text, word] using hall
  · intro c g s hc hg hs
    exact c.validates hc hg ht hs

/-- The ninth pass writes the letters of a rule as truth values. -/
theorem useTruthValues_text {r : Rule k} (hr : r.Formed Clause.Simple) {lead tail : Text}
    (hlead : IsGap lead) (htail : IsGap tail) :
    YesNo.useTruthValues (r.text lead tail) =
      (r.rebuild id fun c => .clause c.validated).text lead tail := by
  have hturn := (carries_validates htail).rule (fun _ h => h.settled.formed) hr hlead .nil
  have hend := turns_of_still (fun (op, b) => op ++ ' ' :: if b then "true".toList else "false".toList)
    (still_operand_gap htail [])
  simp only [Validates, List.flatMap_nil, List.nil_append] at hturn
  have hall := Turns.append (v := tail) (s := []) (by simpa using hturn) hend
  exact hall.render

/-- The item of the clause, if a word compares it with something. -/
def Clause.compared? : Clause → Option Item
  | .compare _ _ relation _ right => if relation.isSpelled then some right else none
  | .member _ _ _ _ _ _ => none

/-- A clause as filters have it. -/
structure Clause.Ready (c : Clause) : Prop where
  spelled : c.Spelled
  no_letter : ∀ i, c.compared? = some i → i.letter? = none

theorem Clause.validated_eq {c : Clause} (h : ∀ i, c.compared? = some i → i.letter? = none) :
    c.validated = c := by
  match c with
  | .member _ _ _ _ _ _ => rfl
  | .compare left before relation behind right =>
    cases hs : relation.isSpelled with
    | false => simp only [validated, hs]
    | true => simp only [validated, hs, h right (by simp [compared?, hs])]

theorem Clause.validated_spec {c : Clause} (hc : c.Spelled) (b : Bindings) (row : Row) :
    c.validated.Ready ∧ c.validated.truth b row = c.truth b row := by
  match c, hc with
  | .member _ _ _ _ _ _, hc => cases hc.simple.no_list
  | .compare left before relation behind right, hc =>
    have keep (h : ∀ i, (Clause.compare left before relation behind right).compared? = some i →
        i.letter? = none) : (Clause.compare left before relation behind right).validated.Ready ∧
        (Clause.compare left before relation behind right).validated.truth b row =
          (Clause.compare left before relation behind right).truth b row := by
      rw [validated_eq h]
      exact ⟨⟨hc, h⟩, rfl⟩
    cases hs : relation.isSpelled with
    | false => exact keep (by simp [compared?, hs])
    | true =>
      cases hl : right.letter? with
      | none => exact keep (by simpa [compared?, hs] using hl)
      | some holds =>
        have hright := right.letter?_eq_some hl
        subst hright
        -- no letter stands behind a marker
        cases left with
        | item i =>
          obtain ⟨-, -, other, ho⟩ := hc.simple.marked _ _ _ _ _ rfl
          cases ho
        | subject x =>
          obtain ⟨hx, hb, -, -, hapart⟩ := hc.simple.settled.formed
          simp only [validated, hs, hl]
          refine ⟨⟨⟨⟨⟨⟨hx, hb, isGap_space, trivial, fun h => ⟨(hapart h).1, by simp⟩⟩, ?_, trivial⟩,
            ?_, rfl⟩, ?_, ?_⟩, ?_⟩, rfl⟩
          · exact fun y hy => hc.simple.settled.bare y hy
          · intro i before relation behind right he
            cases he
          · exact fun r hr => hc.no_unequal r hr
          · exact fun r hr => hc.no_equal r hr
          · intro i hi
            simp only [compared?, hs, if_true, Option.some.injEq] at hi
            rw [← hi]
            rfl

end Language

end WhereFilter
