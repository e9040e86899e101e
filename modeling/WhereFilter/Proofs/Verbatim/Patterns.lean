import WhereFilter.Proofs.Bytewise.Translate
import WhereFilter.Proofs.Rule.Calls
import WhereFilter.Proofs.Rule.Unwrapped
import WhereFilter.Proofs.Verbatim.Units

namespace WhereFilter

open Pattern
open Token (isNameChar)
open Value (doubleQuotes)
open WhereFilter.Language (letterText literal?_eq_some)

namespace Verbatim

/-- A sound text stays sound where the literals in it stay as they are and a hit outside them leaves
a sound text, whatever follows. -/
structure Spares (p : Pattern Char δ) (write : δ → Text) (tight tight' : Bool)
    (known : Text → Prop) : Prop where
  loosens : tight' = true → tight = true
  advances : p.Advances
  hit : ∀ {back : Option Char} {s rest : Text} {d : δ}, Sound tight known s →
    p back s = some (d, rest) → Sound tight known rest ∧
      ∀ r, Sound tight' known r → Meets tight tight' rest r →
        Sound tight' known (write d ++ r) ∧ Meets tight tight' s (write d ++ r)
  literal : ∀ {back : Option Char} {v s : Text}, Calm v → s.head?.any (joins tight) = false →
    p back (quotation v ++ s) = none → ∃ back', p.renderFrom (fun c => [c]) write back
      (quotation v ++ s) = quotation v ++ p.renderFrom (fun c => [c]) write back' s
  quoted : ∀ (back : Option Char) {u s : Text}, Quiet u → s.head? ≠ some '"' →
    ∃ u' back', Quiet u' ∧ p.renderFrom (fun c => [c]) write back ('"' :: u ++ '"' :: s) =
      '"' :: u' ++ '"' :: p.renderFrom (fun c => [c]) write back' s

section

variable {p : Pattern Char δ} {write : δ → Text} {tight tight' : Bool} {known : Text → Prop}

theorem renderFrom_front {w : δ → Text} {back : Option Char} {front rest : Text} {d : δ}
    (hne : front ≠ []) (h : p back (front ++ rest) = some (d, rest)) :
    ∃ back', p.renderFrom (fun c => [c]) w back (front ++ rest) =
      w d ++ p.renderFrom (fun c => [c]) w back' rest := by
  rw [renderFrom, segmentsFrom_of_hit hne h]
  exact ⟨_, rfl⟩

theorem Spares.sound (h : Spares p write tight tight' known) {s : Text}
    (hs : Sound tight known s) (back : Option Char) :
    Sound tight' known (p.renderFrom (fun c => [c]) write back s) ∧
      Meets tight tight' s (p.renderFrom (fun c => [c]) write back s) := by
  induction hn : s.length using Nat.strongRecOn generalizing s back with
  | ind n ih =>
  subst hn
  cases hp : p back s with
  | some found =>
    obtain ⟨d, rest⟩ := found
    obtain ⟨front, hne, rfl⟩ := h.advances _ _ _ _ hp
    obtain ⟨hrest, hwrite⟩ := h.hit hs hp
    have hpos := List.length_pos_iff.mpr hne
    obtain ⟨back', hrender⟩ := renderFrom_front (w := write) hne hp
    obtain ⟨hsound, hmeets⟩ := ih rest.length (by simp; omega) hrest back' rfl
    rw [hrender]
    exact hwrite _ hsound hmeets
  | none =>
    cases hs with
    | nil => exact ⟨.nil, .of_head h.loosens rfl⟩
    | @code c s hc hs hnext =>
      obtain ⟨hsound, hmeets⟩ := ih s.length (by simp) hs (some c) rfl
      rw [renderFrom_of_none hp]
      exact ⟨.code hc hsound fun hclose => hmeets.close (hnext hclose), .of_head h.loosens rfl⟩
    | @literal v s hv hknown hs hnext =>
      obtain ⟨back', hrender⟩ := h.literal hv hnext hp
      obtain ⟨hsound, hmeets⟩ := ih s.length (by simp [quotation]; omega) hs back' rfl
      rw [hrender]
      exact ⟨.literal hv hknown hsound (hmeets.literal hnext), .of_head h.loosens rfl⟩
    | @quoted u s hu hs hnext =>
      obtain ⟨u', back', hu', hrender⟩ := h.quoted back hu hnext
      obtain ⟨hsound, hmeets⟩ := ih s.length (by simp; omega) hs back' rfl
      rw [hrender]
      exact ⟨.quoted hu' hsound (hmeets.quoted hnext), .of_head h.loosens rfl⟩

/-- Most patterns start no hit in a literal or quoted name. -/
theorem Spares.of_still (hloosens : tight' = true → tight = true) (hadvances : p.Advances)
    (hhit : ∀ {back : Option Char} {s rest : Text} {d : δ}, Sound tight known s →
      p back s = some (d, rest) → Sound tight known rest ∧
        ∀ r, Sound tight' known r → Meets tight tight' rest r →
          Sound tight' known (write d ++ r) ∧ Meets tight tight' s (write d ++ r))
    (hliteral : ∀ {back : Option Char} {v s : Text}, Calm v → s.head?.any (joins tight) = false →
      p back (quotation v ++ s) = none → p.Still (quotation v) s)
    (hquoted : ∀ {u s : Text}, Quiet u → s.head? ≠ some '"' → p.Still ('"' :: u ++ ['"']) s) :
    Spares p write tight tight' known where
  loosens := hloosens
  advances := hadvances
  hit := hhit
  literal {back v s} hv hnext hp := by
    rw [renderFrom_of_still (hliteral hv hnext hp)]
    exact ⟨_, by rw [List.flatMap_singleton']⟩
  quoted back {u s} hu hnext := by
    have htext : '"' :: u ++ '"' :: s = '"' :: u ++ ['"'] ++ s := by simp
    rw [htext, renderFrom_of_still (hquoted hu hnext)]
    exact ⟨u, _, hu, by rw [List.flatMap_singleton', List.append_assoc]; rfl⟩

theorem Spares.replace (h : Spares p write tight tight' known) {s : Text}
    (hs : Sound tight known s) : Sound tight' known (p.replace write s) :=
  (h.sound hs none).1

end

section

variable {known : Text → Prop}

/-! ### White space -/

theorem inert_blanks {b : Text} (hb : ∀ c ∈ b, isBlank c = true) : Inert b := by
  intro c hc
  have hat : c ≠ '@' := by
    rintro rfl
    cases hb _ hc
  refine ⟨by simp [isCode, not_isQuote_of_isBlank (hb c hc), hat], ?_⟩
  rintro rfl
  cases hb _ hc

theorem isCode_of_word {c : Char} (h : isWordChar c = true) : isCode c = true ∧ c ≠ ')' := by
  have hne {a : Char} (ha : isWordChar a = false) : c ≠ a := by
    rintro rfl
    rw [ha] at h
    cases h
  have hsingle : c ≠ '\'' := hne (by decide +kernel)
  have hdouble : c ≠ '"' := hne (by decide +kernel)
  have hat : c ≠ '@' := hne (by decide +kernel)
  exact ⟨by simp [isCode, isQuote, hsingle, hdouble, hat], hne (by decide +kernel)⟩

theorem holds_of_blanks? {s g rest : Text} (h : Text.blanks? s = some (g, rest)) :
    ∀ c ∈ g, isBlank c = true := by
  unfold Text.blanks? at h
  split at h
  · cases h
  · cases h
    exact holds_of_mem_takeWhile

theorem blankRun_of_not_blank {back : Option Char} {c : Char} (hc : isBlank c = false) (s : Text) :
    Text.blankRun back (c :: s) = none := by
  simp [Text.blankRun, Text.blanks?, hc]

theorem blankRun_append {g s : Text} (hg : ∀ c ∈ g, isBlank c = true) (hne : g ≠ [])
    (hs : s.head?.any isBlank = false) (back : Option Char) :
    Text.blankRun back (g ++ s) = some (g, s) := by
  obtain ⟨htake, hdrop⟩ := run_append hg hs
  obtain ⟨c, g, rfl⟩ := List.exists_cons_of_ne_nil hne
  rw [Text.blankRun, Text.blanks?, htake, hdrop]

theorem renderFrom_spaced {v s : Text} (hv : ∀ c ∈ v, isBlank c = true → c = ' ')
    (hspaced : ¬[' ', ' '] <:+: v) (back : Option Char) :
    ∃ back', Text.blankRun.renderFrom (fun c => [c]) (fun _ => [' ']) back
        (doubleQuotes v ++ '\'' :: s) =
      doubleQuotes v ++
        '\'' :: Text.blankRun.renderFrom (fun c => [c]) (fun _ => [' ']) back' s := by
  induction v generalizing back with
  | nil => exact ⟨some '\'', renderFrom_of_none (blankRun_of_not_blank rfl s)⟩
  | cons c v ih =>
    obtain ⟨hc, hv⟩ := List.forall_mem_cons.mp hv
    replace ih := ih hv fun hin => hspaced (hin.trans (List.suffix_cons c v).isInfix)
    rw [YesNo.doubleQuotes_cons]
    by_cases hquote : c = '\''
    · obtain ⟨back', hrest⟩ := ih (some '\'')
      rw [if_pos hquote, List.append_assoc, List.cons_append, List.singleton_append,
        renderFrom_of_none (blankRun_of_not_blank rfl _),
        renderFrom_of_none (blankRun_of_not_blank rfl _), hrest]
      exact ⟨back', rfl⟩
    · rw [if_neg hquote, List.append_assoc, List.singleton_append]
      cases hblank : isBlank c with
      | false =>
        obtain ⟨back', hrest⟩ := ih (some c)
        rw [renderFrom_of_none (blankRun_of_not_blank hblank _), hrest]
        exact ⟨back', rfl⟩
      | true =>
        obtain rfl := hc hblank
        obtain ⟨d, r, hd, hdblank⟩ : ∃ d r, doubleQuotes v ++ '\'' :: s = d :: r ∧
            isBlank d = false := by
          cases v with
          | nil => exact ⟨_, _, rfl, rfl⟩
          | cons e v =>
            rw [YesNo.doubleQuotes_cons]
            by_cases he : e = '\''
            · rw [if_pos he]
              exact ⟨_, _, rfl, rfl⟩
            · rw [if_neg he]
              refine ⟨_, _, rfl, ?_⟩
              by_contra hb
              rw [hv e (by simp) (by simpa using hb)] at hspaced
              exact hspaced ⟨[], v, rfl⟩
        obtain ⟨back', hrest⟩ := ih (some ' ')
        have hit : Text.blankRun back ([] ++ ' ' :: d :: r) = some ([' '], d :: r) :=
          blankRun_append (g := [' ']) (by simp [hblank]) (by simp) (by simpa using hdblank) back
        refine ⟨back', ?_⟩
        rw [List.singleton_append, hd]
        exact (renderFrom_of_hit hit).trans (by rw [← hd, hrest]; rfl)

theorem Quiet.of_cons {c : Char} {u : Text} (h : Quiet (c :: u)) (hc : c ≠ '"') : Quiet u :=
  ⟨h.paired.of_cons hc, (List.forall_mem_cons.mp h.plain).2⟩

/-- The blanks in front, which are no quotes, and what is quiet behind them. -/
theorem Quiet.exists_blanks {u : Text} (h : Quiet u) : ∃ g w, u = g ++ w ∧
    (∀ a ∈ g, isBlank a = true) ∧ Quiet w ∧ w.head?.any isBlank = false := by
  have hsplit := List.takeWhile_append_dropWhile (p := isBlank) (l := u)
  have hg : ∀ a ∈ u.takeWhile isBlank, isBlank a = true := holds_of_mem_takeWhile
  have hhead := head?_dropWhile isBlank u
  generalize u.takeWhile isBlank = g at hsplit hg
  generalize u.dropWhile isBlank = w at hsplit hhead
  subst hsplit
  refine ⟨g, w, rfl, hg, ⟨Placeholder.paired_of_append (fun hm => ?_) h.paired,
    (List.forall_mem_append.mp h.plain).2⟩, hhead⟩
  cases hg _ hm

theorem renderFrom_quiet {u : Text} (hu : Quiet u) (s : Text) (back : Option Char) :
    ∃ u' back', Quiet u' ∧ Text.blankRun.renderFrom (fun c => [c]) (fun _ => [' ']) back
        (u ++ '"' :: s) =
      u' ++ '"' :: Text.blankRun.renderFrom (fun c => [c]) (fun _ => [' ']) back' s := by
  induction hn : u.length using Nat.strongRecOn generalizing u back with
  | ind n ih =>
  subst hn
  cases u with
  | nil =>
    exact ⟨[], some '"', hu, renderFrom_of_none (blankRun_of_not_blank rfl s)⟩
  | cons c u =>
    by_cases hquote : c = '"'
    · subst hquote
      obtain ⟨u, rfl, hpaired⟩ := hu.paired.cases_quote
      have hplain := (List.forall_mem_cons.mp (List.forall_mem_cons.mp hu.plain).2).2
      obtain ⟨u', back', hu', hrest⟩ := ih u.length (by simp) ⟨hpaired, hplain⟩ (some '"') rfl
      refine ⟨'"' :: '"' :: u', back', ⟨.pair hu'.paired, ?_⟩, ?_⟩
      · simpa using hu'.plain
      · rw [List.cons_append, List.cons_append,
          renderFrom_of_none (blankRun_of_not_blank rfl _),
          renderFrom_of_none (blankRun_of_not_blank rfl _), hrest]
        rfl
    · have hrest := hu.of_cons hquote
      have hc := hu.plain c (by simp)
      cases hblank : isBlank c with
      | false =>
        obtain ⟨u', back', hu', hrender⟩ := ih u.length (by simp) hrest (some c) rfl
        have hquiet : Quiet (c :: u') :=
          ⟨.plain hquote hu'.paired, List.forall_mem_cons.mpr ⟨hc, hu'.plain⟩⟩
        refine ⟨c :: u', back', hquiet, ?_⟩
        rw [List.cons_append, renderFrom_of_none (blankRun_of_not_blank hblank _), hrender]
        rfl
      | true =>
        -- the blanks that go on in the name are one space behind it
        obtain ⟨g, w, rfl, hg, hw, hhead⟩ := hrest.exists_blanks
        have hg' : ∀ a ∈ c :: g, isBlank a = true := List.forall_mem_cons.mpr ⟨hblank, hg⟩
        have hbehind : (w ++ '"' :: s).head?.any isBlank = false := by
          cases w with
          | nil => rfl
          | cons d w => exact hhead
        obtain ⟨back', hrender⟩ := renderFrom_front (w := fun _ => [' ']) (by simp)
          (blankRun_append hg' (by simp) hbehind back)
        obtain ⟨u', back'', hu', hrender'⟩ := ih w.length (by simp) hw back' rfl
        refine ⟨' ' :: u', back'', ⟨.plain (by decide) hu'.paired,
          List.forall_mem_cons.mpr ⟨by decide, hu'.plain⟩⟩, ?_⟩
        have htext : c :: (g ++ w) ++ '"' :: s = c :: g ++ (w ++ '"' :: s) := by simp
        rw [htext, hrender, hrender']
        rfl

theorem spares_blankRun : Spares Text.blankRun (fun _ => [' ']) false false known where
  loosens := id
  advances := Text.advances_blankRun
  hit {back s rest g} hs h := by
    obtain rfl := Text.blanks?_text h
    have hg := holds_of_blanks? h
    refine ⟨hs.of_codes fun c hc => not_isQuote_of_isBlank (hg c hc), fun r hr _ => ?_⟩
    exact ⟨.code rfl hr (by simp), .of_mild rfl⟩
  literal {back v s} hv hnext _ := by
    obtain ⟨back', hrender⟩ := renderFrom_spaced (s := s) (fun c hc => (hv.plain c hc).2) hv.spaced
      (some '\'')
    refine ⟨back', ?_⟩
    rw [quotation, List.append_assoc, List.cons_append, List.singleton_append,
      renderFrom_of_none (blankRun_of_not_blank rfl _), hrender]
    simp
  quoted back {u s} hu hnext := by
    obtain ⟨u', back', hu', hrender⟩ := renderFrom_quiet hu s (some '"')
    refine ⟨u', back', hu', ?_⟩
    rw [List.cons_append, renderFrom_of_none (blankRun_of_not_blank rfl _), hrender]
    rfl

theorem Sound.respace {s : Text} (h : Sound false known s) :
    Sound false known (Text.respace s) := by
  rw [← Text.trim_oneSpaced]
  exact (spares_blankRun.replace h).trim

/-! ### Calls -/

theorem head_of_coalesce {back : Option Char} {s : Text} {found : Text × Text}
    (h : coalesce back s = some found) : s.head?.any isNameChar = true := by
  cases s with
  | nil => cases h
  | cons a s =>
    have hfold : foldCase a = 'c' := by
      by_contra hne
      rw [Language.coalesce_of_ne hne] at h
      cases h
    simp [isNameChar, Char.isAlphanum, (Language.isAlpha_of_foldCase hfold).1]

theorem spares_coalesce {tight : Bool} : Spares coalesce id tight tight known := by
  refine .of_still id advances_coalesce ?_ ?_ ?_
  · intro back s rest n hs hit
    have hletter := head_of_coalesce hit
    rw [forward_coalesce back s] at hit
    obtain ⟨w, rfl, f, b₁, b₂, b₃, b₄, c, b₅, rfl, -, hf, hb₁, hb₂, hb₃, hb₄, hc, hb₅, hne, hn⟩ :=
      Coalesce.takes_of_coalesce hit
    have hname : Inert n := by
      intro a ha
      have hoperand := hn a ha
      simp only [Coalesce.isOperandChar, Bool.or_eq_true, beq_iff_eq] at hoperand
      rcases hoperand with hword | rfl
      · exact isCode_of_word hword
      · exact ⟨rfl, by decide⟩
    have htext : Coalesce.spelled f b₁ b₂ n b₃ b₄ c b₅ ++ rest =
        (f ++ b₁ ++ ['('] ++ b₂ ++ n ++ b₃ ++ [','] ++ b₄) ++
          '\'' :: (c ++ '\'' :: (b₅ ++ ')' :: rest)) := by simp [Coalesce.spelled]
    have hword : Inert f := fun a ha => isCode_of_word (hf a ha)
    have hfront : Inert (f ++ b₁ ++ ['('] ++ b₂ ++ n ++ b₃ ++ [','] ++ b₄) :=
      ((((((hword.append (inert_blanks hb₁)).append (inert_of_all rfl)).append
        (inert_blanks hb₂)).append hname).append (inert_blanks hb₃)).append
        (inert_of_all rfl)).append (inert_blanks hb₄)
    have hquote : (b₅ ++ ')' :: rest).head? ≠ some '\'' := by
      cases b₅ with
      | nil => simp
      | cons a b₅ =>
        rintro ⟨⟩
        cases hb₅ '\'' (by simp)
    rw [htext] at hs
    obtain ⟨hclose, -⟩ := (hs.of_inert hfront).of_plain hc hquote
    have hrest := ((hclose.of_inert (inert_blanks hb₅)).of_code rfl).1
    exact ⟨hrest, fun r hr _ =>
      ⟨hname.sound hr, .of_name id hletter (hname.not_isQuote_head hne r)⟩⟩
  · intro back v s hv _ _
    exact hv.calls s
  · intro u s hu _
    exact Language.still_closed (hu.not_mem (by simp)) (List.mem_cons_of_mem _ (by simp))
      List.getLast?_concat s

/-! ### Letters -/

theorem comparison_closing {s : Text} (h : s.head?.any (joins true) = false)
    (back : Option Char) : YesNo.comparison back ('\'' :: s) = none := by
  refine Option.eq_none_iff_forall_ne_some.mpr fun found hit => ?_
  rw [YesNo.forward_comparison back] at hit
  obtain ⟨w, he, x, y, b₁, b₂, rfl, -⟩ := YesNo.compares_of_comparison hit
  rw [(List.cons.inj he).2] at h
  cases x <;> cases h

theorem spares_comparison : Spares YesNo.comparison
    (fun agree => if agree then "1=1".toList else "1=0".toList) true true known := by
  refine .of_still id YesNo.advances_comparison ?_ ?_ ?_
  · intro back s rest agree hs hit
    obtain ⟨w, rfl, x, y, b₁, b₂, rfl, hb₁, hb₂, -⟩ := YesNo.compares_of_comparison hit
    have htext : '\'' :: letterText x ++ '\'' :: (b₁ ++ '=' :: (b₂ ++
        ('\'' :: letterText y ++ ['\'']))) ++ rest = '\'' :: letterText x ++ '\'' ::
          (b₁ ++ '=' :: (b₂ ++ ('\'' :: letterText y ++ '\'' :: rest))) := by simp
    rw [htext] at hs
    have hsign := (hs.of_letter.1.of_inert (inert_blanks hb₁)).of_code rfl
    have hlast := (hsign.1.of_inert (inert_blanks hb₂)).of_letter
    refine ⟨hlast.1, fun r hr _ => ⟨Inert.sound ?_ hr, ?_⟩⟩
    · cases agree <;> exact inert_of_all rfl
    · refine ⟨fun h => ?_, fun h => ?_, fun _ => ?_⟩
      · cases h
      · cases h
      · cases agree <;> simp
  · intro back v s hv hnext hp
    have hopening (back' : Option Char) :
        YesNo.comparison back' ('\'' :: (doubleQuotes v ++ ['\''] ++ s)) = none :=
      (YesNo.forward_comparison back' _).trans ((YesNo.forward_comparison back _).symm.trans hp)
    refine still_cons.mpr ⟨hopening, ?_⟩
    refine Still.append (YesNo.still_doubled fun u x he => absurd ⟨u, he.symm⟩ (hv.back x)) ?_
    exact still_cons.mpr ⟨comparison_closing hnext, still_nil⟩
  · intro u s hu _
    exact Language.still_comparison_of_quoteFree (hu.not_mem (by simp)) s

theorem Sound.foldComparisons {s : Text} (h : Sound true known s) :
    Sound true known (YesNo.foldComparisons s) :=
  spares_comparison.replace h

theorem of_operand {back : Option Char} {s rest op : Text} {holds : Bool}
    (h : YesNo.operand back s = some ((op, holds), rest)) :
    ∃ b, s = op ++ b ++ '\'' :: letterText holds ++ '\'' :: rest ∧ op ≠ [] ∧ Inert op ∧
      Inert (op ++ b) := by
  obtain ⟨b, rfl, -, hb, hop⟩ := Language.of_operand h
  have hword : op ≠ [] ∧ Inert op := by
    rcases hop with rfl | rfl <;> exact ⟨by simp, inert_of_all rfl⟩
  exact ⟨b, by simp, hword.1, hword.2, hword.2.append (inert_blanks hb)⟩

/-- Behind the word and the blanks of a hit the value would end, and then a letter follow. -/
theorem still_operand_doubled {v s : Text} (hs : s.head?.any isNameChar = false) :
    YesNo.operand.Still (doubleQuotes v ++ ['\'']) s := by
  induction v with
  | nil => exact still_cons.mpr ⟨fun back => Language.operand_of_ne (by decide) back _, still_nil⟩
  | cons c v ih =>
    have hsplit : doubleQuotes (c :: v) ++ ['\''] =
        (if c = '\'' then ['\'', '\''] else [c]) ++ (doubleQuotes v ++ ['\'']) := by
      rw [YesNo.doubleQuotes_cons, List.append_assoc]
    rw [hsplit]
    by_cases hc : c = '\''
    · rw [if_pos hc]
      refine Still.append (still_of_heads fun a ha back r => ?_) ih
      obtain rfl : a = '\'' := by simpa using ha
      exact Language.operand_of_ne (by decide) back r
    · rw [if_neg hc, List.singleton_append]
      refine still_cons.mpr ⟨fun back => ?_, ih⟩
      refine Option.eq_none_iff_forall_ne_some.mpr ?_
      rintro ⟨⟨op, holds⟩, rest⟩ h
      obtain ⟨b, he, -, -, hu⟩ := of_operand h
      have hread : doubleQuotes (c :: v) ++ '\'' :: s =
          op ++ b ++ '\'' :: (letterText holds ++ '\'' :: rest) := by
        rw [YesNo.doubleQuotes_cons, if_neg hc]
        simpa using he
      rcases of_quoteFree (hu.quote_not_mem rfl) hread with ⟨-, rfl⟩ | ⟨w, -, hw⟩
      · cases holds <;> cases hs
      · cases holds <;> cases (List.cons.inj hw).1

/-- What has no single quote in it and ends in a double one starts no hit. -/
theorem still_operand_quoted {w : Text} (hquote : '\'' ∉ w) (hlast : w.getLast? = some '"')
    (s : Text) : YesNo.operand.Still w s := by
  intro back v hv hsuffix
  refine Option.eq_none_iff_forall_ne_some.mpr ?_
  rintro ⟨⟨op, holds⟩, rest⟩ h
  obtain ⟨b, he, -, -, hu⟩ := of_operand h
  have hdouble : '"' ∈ v := by
    obtain ⟨t, rfl⟩ := hsuffix
    rw [List.getLast?_append_of_ne_nil _ hv] at hlast
    exact List.mem_of_getLast? hlast
  rw [List.append_assoc (op ++ b)] at he
  rcases List.append_eq_append_iff.mp he with ⟨r, hr, -⟩ | ⟨r, hr, hrest⟩
  · exact hu.quote_not_mem (c := '"') rfl (by rw [hr]; exact List.mem_append_left r hdouble)
  · cases r with
    | nil => exact hu.quote_not_mem (c := '"') rfl (by rwa [hr, List.append_nil] at hdouble)
    | cons c r =>
      obtain rfl : '\'' = c := (List.cons.inj hrest).1
      exact hquote (hsuffix.subset (by simp [hr]))

/-- From here on a name may follow a literal, as it does where parentheses come off. -/
theorem spares_operand :
    Spares YesNo.operand (fun hit => hit.1 ++ ' ' :: if hit.2 then "true".toList else "false".toList)
      true false known := by
  refine .of_still (by simp) YesNo.steady_operand.advances ?_ ?_ ?_
  · rintro back s rest ⟨op, holds⟩ hs hit
    obtain ⟨b, rfl, hne, hop, hu⟩ := of_operand hit
    rw [List.append_assoc] at hs
    obtain ⟨hrest, -⟩ := (hs.of_inert hu).of_letter
    refine ⟨hrest, fun r hr _ => ⟨?_, ?_⟩⟩
    · exact Inert.sound (hop.append (by cases holds <;> exact inert_of_all rfl)) hr
    · obtain ⟨a, op, rfl⟩ := List.exists_cons_of_ne_nil hne
      exact .of_head (by simp) rfl
  · intro back v s hv hnext _
    have hs : s.head?.any isNameChar = false := by
      cases s with
      | nil => rfl
      | cons c s =>
        simp only [joins, List.head?_cons, Option.any_some, Bool.or_eq_false_iff] at hnext
        simpa using hnext.2
    have hopening : YesNo.operand.Still ['\''] (doubleQuotes v ++ ['\''] ++ s) :=
      still_cons.mpr ⟨fun back => Language.operand_of_ne (by decide) back _, still_nil⟩
    exact hopening.append (still_operand_doubled hs)
  · intro u s hu _
    exact still_operand_quoted (hu.not_mem (by simp)) List.getLast?_concat s

theorem Sound.useTruthValues {s : Text} (h : Sound true known s) :
    Sound false known (YesNo.useTruthValues s) :=
  spares_operand.replace h

/-! ### Parentheses around clauses -/

theorem of_clause {back : Option Char} {s inner rest : Text}
    (h : Wrapped.clause back s = some (inner, rest)) :
    ∃ b f x b', s = '(' :: (b ++ f ++ (x ++ (b' ++ ')' :: rest))) ∧ inner = f ++ x ∧ f ≠ [] ∧
      'q' ∈ f ∧ Inert (b ++ f) ∧ Inert f ∧ (∀ c ∈ x, isBlank c = false) ∧
      ∀ c ∈ b', isBlank c = true := by
  simp only [Wrapped.clause, Option.bind_eq_bind, Option.bind_eq_some_iff, Prod.exists,
    Option.some.injEq, Prod.mk.injEq] at h
  obtain ⟨s₁, h₁, column, s₂, h₂, gap, s₃, h₃, s₄, h₄, gap', s₅, h₅, x, s₆, h₆, rfl, rfl⟩ := h
  obtain ⟨-, hne, hword, -⟩ := Text.word?_eq_some.mp h₂
  obtain ⟨b, hb, hs₁⟩ := of_dropWhile (Text.word?_text h₂)
  obtain ⟨⟨b', hs₅, hb'⟩, -, hx⟩ := Wrapped.of_operand? h₆
  have hs := Text.after?_eq_some.mp h₁
  rw [hs₁, Text.blanks?_text h₃, Text.after?_eq_some.mp h₄, Text.blanks?_text h₅, hs₅] at hs
  have hcolumn : Inert column := fun c hc => isCode_of_word (hword c hc)
  have hfront : Inert (column ++ gap ++ "eq".toList ++ gap') :=
    ((hcolumn.append (inert_blanks (holds_of_blanks? h₃))).append (inert_of_all rfl)).append
      (inert_blanks (holds_of_blanks? h₅))
  exact ⟨b, column ++ gap ++ "eq".toList ++ gap', x, b', by simpa using hs, rfl, by simp, by simp,
    (inert_blanks hb).append hfront, hfront, hx, hb'⟩

/-- A clause that starts in a literal has its word there. -/
theorem still_clause_of_not_mem {v : Text} (hq : 'q' ∉ v) (s : Text) :
    Wrapped.clause.Still (quotation v) s := by
  intro back w hw hsuffix
  refine Option.eq_none_iff_forall_ne_some.mpr ?_
  rintro ⟨inner, rest⟩ h
  obtain ⟨b, f, x, b', he, -, -, hf, hfront, -⟩ := of_clause h
  have hquote : '\'' ∈ w := by
    obtain ⟨t, ht⟩ := hsuffix
    have hlast : (t ++ w).getLast? = some '\'' := by
      rw [ht]
      exact List.getLast?_concat
    rw [List.getLast?_append_of_ne_nil _ hw] at hlast
    exact List.mem_of_getLast? hlast
  have hopen : Inert (['('] ++ (b ++ f)) := Inert.append (inert_of_all rfl) hfront
  have hsplit : w ++ s = ['('] ++ (b ++ f) ++ (x ++ (b' ++ ')' :: rest)) := by simpa using he
  rcases List.append_eq_append_iff.mp hsplit with ⟨r, hr, -⟩ | ⟨r, hr, -⟩
  · exact hopen.quote_not_mem (c := '\'') rfl (by rw [hr]; exact List.mem_append_left r hquote)
  · have hmem : 'q' ∈ quotation v := hsuffix.subset (by rw [hr]; simp [hf])
    simp only [quotation, List.mem_append, List.mem_cons, List.not_mem_nil, or_false] at hmem
    rcases hmem with (hmem | hmem) | hmem
    · cases hmem
    · exact hq (mem_of_mem_doubleQuotes hmem)
    · cases hmem

theorem still_coalesce_of_callFree {v : Text} (hv : Language.CallFree v) (s : Text) :
    coalesce.Still (quotation v) s := by
  refine Language.CallFree.still (fun c hc => ?_) s
  simp only [quotation, List.mem_append, List.mem_cons, List.not_mem_nil, or_false] at hc
  rcases hc with (rfl | hc) | rfl
  · decide
  · exact hv c (mem_of_mem_doubleQuotes hc)
  · decide

theorem spares_clause : Spares Wrapped.clause id false false known := by
  refine .of_still id Wrapped.advances_clause ?_ ?_ ?_
  · intro back s rest inner hs hit
    obtain ⟨b, f, x, b', rfl, rfl, hne, -, hfront, hinert, hx, hb'⟩ := of_clause hit
    have hoperand := (hs.of_code rfl).1.of_inert hfront
    obtain ⟨hbehind, hcut⟩ := hoperand.cut (endsUnits_of_run hx hb')
    obtain ⟨hrest, -, hquote⟩ := (hbehind.of_inert (inert_blanks hb')).of_code rfl
    refine ⟨hrest, fun r hr hmeets => ?_⟩
    have hr' := hmeets.close (hquote rfl)
    rw [id_eq, List.append_assoc]
    exact ⟨hinert.sound (hcut hr hr' (not_joins_of_not_quote hr')),
      .of_not_quote (hinert.not_isQuote_head hne _)⟩
  · intro back v s hv _ _
    exact hv.clauses s
  · intro u s hu _
    exact Language.still_wrapped (hu.not_mem (by simp)) s

end

end Verbatim

end WhereFilter
