import WhereFilter.Proofs.Language.Wraps

namespace WhereFilter

namespace Text

theorem words_of_blanks {b : Text} (hb : ∀ c ∈ b, isBlank c = true) (s : Text) :
    words (b ++ s) = words s := by
  induction b with
  | nil => rfl
  | cons c b ih =>
    simp only [List.mem_cons, forall_eq_or_imp] at hb
    rw [← ih hb.2]
    simp [words, cut, hb.1]

theorem words_of_run {u : Text} (hu : ∀ c ∈ u, isBlank c = false) (hn : u ≠ []) {s : Text}
    (hs : ∀ c, s.head? = some c → isBlank c = true) : words (u ++ s) = u :: words s := by
  have hu' : (!u.isEmpty) = true := by simpa using hn
  cases s with
  | nil =>
    rw [List.append_nil, words, cut_of_none hu, List.filter_cons, hu']
    rfl
  | cons c s =>
    have hc := hs c rfl
    rw [words, cut_append hu hc, List.filter_cons, hu', words, cut, hc]
    rfl

/-- A run goes on behind one space where anything but blanks follows. -/
theorem respace_of_run {u : Text} (hu : ∀ c ∈ u, isBlank c = false) (hn : u ≠ []) {s : Text}
    (hs : ∀ c, s.head? = some c → isBlank c = true) :
    respace (u ++ s) = u ++ (if words s = [] then [] else ' ' :: respace s) := by
  rw [respace, words_of_run hu hn hs]
  cases h : words s with
  | nil => simp [List.intercalate]
  | cons w ws => simp [respace, h, List.intercalate]

end Text

namespace Language

open Reading (Rank unspaced)

/-- One space for white space. -/
def squeeze (g : Text) : Text :=
  if g = [] then [] else [' ']

def squeezed (l : Lexeme) : Lexeme :=
  { l with gap := squeeze l.gap }

theorem isGap_squeeze (g : Text) : IsGap (squeeze g) := by
  unfold squeeze
  split
  · exact isGap_nil
  · exact isGap_space

theorem squeeze_ne_nil {g : Text} (h : g ≠ []) : squeeze g ≠ [] := by
  simp [squeeze, h]

theorem squeeze_squeeze (g : Text) : squeeze (squeeze g) = squeeze g := by
  unfold squeeze
  split <;> simp_all

/-- Where no blank stands in a token, respacing squeezes gaps and drops those at the ends. -/
theorem respace_lexemes {u : Text} (hu : ∀ c ∈ u, isBlank c = false) (hn : u ≠ [])
    {ls : List Lexeme} (hls : ∀ l ∈ ls, IsGap l.gap ∧ l.token.text ≠ [] ∧
      ∀ c ∈ l.token.text, isBlank c = false) {tail : Text} (ht : IsGap tail) :
    Text.respace (u ++ (ls.flatMap Lexeme.text ++ tail)) =
      u ++ (ls.map squeezed).flatMap Lexeme.text := by
  have hblank {g : Text} (hg : IsGap g) : ∀ c ∈ g, isBlank c = true :=
    fun c hc => isBlank_of_isGapChar (hg c hc)
  induction ls generalizing u with
  | nil =>
    have hwords : Text.words tail = [] := by
      have h := Text.words_of_blanks (hblank ht) []
      rw [List.append_nil] at h
      exact h
    have hhead : ∀ c, tail.head? = some c → isBlank c = true :=
      fun c hc => hblank ht c (List.mem_of_mem_head? hc)
    rw [List.flatMap_nil, List.nil_append, Text.respace_of_run hu hn hhead, if_pos hwords]
    rfl
  | cons l ls ih =>
    obtain ⟨hg, htn, htb⟩ := hls l (by simp)
    have hrest (a : Lexeme) (ha : a ∈ ls) := hls a (List.mem_cons_of_mem l ha)
    by_cases hgap : l.gap = []
    · have h := ih (u := u ++ l.token.text) (fun c hc => (List.mem_append.mp hc).elim (hu c) (htb c))
        (by simp [hn]) hrest
      simpa [Lexeme.text, hgap, squeezed, squeeze] using h
    · have h := ih htb htn hrest
      have hhead : ∀ c, (l.gap ++ (l.token.text ++ (ls.flatMap Lexeme.text ++ tail))).head? = some c →
          isBlank c = true := by
        intro c hc
        obtain ⟨d, g, hd⟩ := List.exists_cons_of_ne_nil hgap
        rw [hd] at hc
        cases hc
        exact hblank hg c (by rw [hd]; simp)
      have hwords : Text.words (l.gap ++ (l.token.text ++ (ls.flatMap Lexeme.text ++ tail))) ≠ [] := by
        rw [Text.words_of_blanks (hblank hg)]
        intro he
        rw [Text.respace, he] at h
        cases htn (List.append_eq_nil_iff.mp h.symm).1
      have hskip : Text.respace (l.gap ++ (l.token.text ++ (ls.flatMap Lexeme.text ++ tail))) =
          Text.respace (l.token.text ++ (ls.flatMap Lexeme.text ++ tail)) := by
        rw [Text.respace, Text.respace, Text.words_of_blanks (hblank hg)]
      have hrun := Text.respace_of_run hu hn hhead
      rw [if_neg hwords, hskip, h] at hrun
      simpa [Lexeme.text, squeezed, squeeze, hgap] using hrun

/-- The clause with its gaps squeezed. -/
def Clause.respaced : Clause → Clause
  | .compare left before relation behind right =>
    .compare left (squeeze before) relation (squeeze behind) right
  | c => c

namespace Rule

/-- The rule with its gaps squeezed. -/
def respaced : Rule k → Rule k
  | .clause c => .clause c.respaced
  | .group inside r before => .group (squeeze inside) r.respaced (squeeze before)
  | .part r => .part r.respaced
  | .whole r => .whole r.respaced
  | .both l j r => .both l.respaced ⟨squeeze j.before, j.text, squeeze j.behind⟩ r.respaced
  | .either l j r => .either l.respaced ⟨squeeze j.before, j.text, squeeze j.behind⟩ r.respaced

theorem lexemes_respaced {r : Rule k} (hr : r.Formed Clause.Simple) (g : Text) :
    r.respaced.lexemes (squeeze g) = (r.lexemes g).map squeezed := by
  induction r generalizing g with
  | clause c =>
    match c, hr with
    | .member _ _ _ _ _ _, hr => cases Clause.Simple.no_list hr
    | .compare left before relation behind right, hr =>
      obtain ⟨t, ht, -⟩ := Clause.Simple.left_token hr
      obtain ⟨u, us, hu⟩ := List.exists_cons_of_ne_nil right.tokens_ne_nil
      simp [respaced, Clause.respaced, lexemes, Clause.lexemes, ht, hu, spaced, squeezed, unspaced,
        squeeze]
  | group inside r before ih => simp [respaced, lexemes, ih hr.2.1, squeezed]
  | part r ih => exact ih hr g
  | whole r ih => exact ih hr g
  | both l j r ihl ihr => simp [respaced, lexemes, ihl hr.1, ihr hr.2.2, squeezed]
  | either l j r ihl ihr => simp [respaced, lexemes, ihl hr.1, ihr hr.2.2, squeezed]

theorem truth_respaced (b : Bindings) (row : Row) (r : Rule k) :
    r.respaced.truth (Clause.truth b row) = r.truth (Clause.truth b row) := by
  induction r with
  | clause c =>
    match c with
    | .member _ _ _ _ _ _ => rfl
    | .compare (.subject _) _ _ _ _ | .compare (.item _) _ _ _ _ => rfl
  | group inside r before ih => exact ih
  | part r ih => exact ih
  | whole r ih => exact ih
  | both l j r ihl ihr => simp only [respaced, truth, ihl, ihr]
  | either l j r ihl ihr => simp only [respaced, truth, ihl, ihr]

end Rule

theorem Clause.Ready.respaced {c : Clause} (hc : c.Ready) : c.respaced.Ready := by
  match c, hc with
  | .member _ _ _ _ _ _, hc => exact hc
  | .compare left before relation behind right, hc =>
    obtain ⟨⟨⟨⟨hformed, hbare, hvalued⟩, hmarked, -⟩, hunequal, hequal⟩, hletter⟩ := hc
    obtain ⟨hl, -, -, hr, hapart⟩ := hformed
    refine ⟨⟨⟨⟨⟨hl, isGap_squeeze _, isGap_squeeze _, hr, fun h => ?_⟩, ?_, ?_⟩, ?_, rfl⟩,
      hunequal, hequal⟩, hletter⟩
    · exact ⟨squeeze_ne_nil (hapart h).1, squeeze_ne_nil (hapart h).2⟩
    · cases left <;> exact hbare
    · cases left <;> exact hvalued
    · intro i before' relation' behind' right' he
      cases he
      exact hmarked _ _ _ _ _ rfl

theorem Joint.Of.respaced {w : Text} {j : Joint} (hj : j.Of w) :
    (⟨squeeze j.before, j.text, squeeze j.behind⟩ : Joint).Of w :=
  ⟨isGap_squeeze _, squeeze_ne_nil hj.apart, hj.spells, isGap_squeeze _,
    squeeze_ne_nil hj.apart_behind⟩

namespace Rule

theorem formed_respaced {P Q : Clause → Prop} (h : ∀ c, P c → Q c.respaced) {r : Rule k}
    (hr : r.Formed P) : r.respaced.Formed Q := by
  induction r with
  | clause c => exact h c hr
  | group inside r before ih => exact ⟨isGap_squeeze _, ih hr.2.1, isGap_squeeze _⟩
  | part r ih => exact ih hr
  | whole r ih => exact ih hr
  | both l j r ihl ihr => exact ⟨ihl hr.1, hr.2.1.respaced, ihr hr.2.2⟩
  | either l j r ihl ihr => exact ⟨ihl hr.1, hr.2.1.respaced, ihr hr.2.2⟩

theorem blankFree_joint {w : Text} {j : Joint} (hj : j.Of w) (hw : IsConnective w) :
    ∀ c ∈ j.text, isBlank c = false := by
  intro c hc
  have hname : Token.isNameChar c = true := by
    by_contra hne
    rcases hw with rfl | rfl <;>
      exact hj.spells.not_mem (by decide) (by decide) (Bool.not_eq_true _ ▸ hne) hc
  exact not_blank_of_isNameChar hname

/-- No token of a rule has a blank in it. -/
theorem blankFree {r : Rule k} (hr : r.Formed Clause.Simple) (g : Text) :
    ∀ l ∈ r.lexemes g, ∀ c ∈ l.token.text, isBlank c = false := by
  have joined {u v : List Lexeme} {w : Text} {j : Joint} (hj : j.Of w) (hw : IsConnective w)
      (hu : ∀ l ∈ u, ∀ c ∈ l.token.text, isBlank c = false)
      (hv : ∀ l ∈ v, ∀ c ∈ l.token.text, isBlank c = false) :
      ∀ l ∈ u ++ ⟨j.before, word j.text⟩ :: v, ∀ c ∈ l.token.text, isBlank c = false := by
    intro l hl
    rcases List.mem_append.mp hl with hl | hl
    · exact hu l hl
    · rcases List.mem_cons.mp hl with rfl | hl
      · exact blankFree_joint hj hw
      · exact hv l hl
  induction r generalizing g with
  | clause c =>
    match c, hr with
    | .member _ _ _ _ _ _, hr => cases Clause.Simple.no_list hr
    | .compare left before relation behind right, hr =>
      have hsimple : (Clause.compare left before relation behind right).Simple := hr
      obtain ⟨t, ht, hw, -⟩ := hsimple.left_token
      intro l hl c hc
      rw [lexemes, Clause.lexemes, ht] at hl
      rcases List.mem_cons.mp hl with rfl | hl
      · exact not_blank_of_isNameChar (hw c hc)
      · rcases List.mem_cons.mp hl with rfl | hl
        · have hall : relation.token.text.all (fun c => !isBlank c) = true := by
            cases relation <;> rfl
          simpa using List.all_eq_true.mp hall c hc
        · exact right.no_blank hsimple.right.1 c
            (List.mem_flatMap.mpr ⟨l.token, mem_spaced hl, hc⟩)
  | group inside r before ih =>
    intro l hl c hc
    rcases List.mem_cons.mp hl with rfl | hl
    · rw [List.mem_singleton.mp hc]
      rfl
    · rcases List.mem_append.mp hl with hl | hl
      · exact ih hr.2.1 inside l hl c hc
      · rw [List.mem_singleton.mp hl] at hc
        rw [List.mem_singleton.mp hc]
        rfl
  | part r ih => exact ih hr g
  | whole r ih => exact ih hr g
  | both l j r ihl ihr => exact joined hr.2.1 (.inl rfl) (ihl hr.1 g) (ihr hr.2.2 j.behind)
  | either l j r ihl ihr => exact joined hr.2.1 (.inr rfl) (ihl hr.1 g) (ihr hr.2.2 j.behind)

/-- The last pass squeezes the gaps of a rule. -/
theorem respace_text {r : Rule k} (hr : r.Formed Clause.Simple) {lead tail : Text}
    (hlead : IsGap lead) (htail : IsGap tail) :
    Text.respace (r.text lead tail) = r.respaced.trimmed := by
  have hfit := r.fit (hr.mono fun _ h => h.settled.formed) hlead htail
  have hfree := blankFree hr lead
  have hlexemes := lexemes_respaced hr []
  obtain ⟨t, ls, h⟩ := lexemes_gap hr
  rw [h] at hfit hfree
  rw [h, show squeeze [] = [] from rfl] at hlexemes
  have htokens (l : Lexeme) (hl : l ∈ ls) : IsGap l.gap ∧ l.token.text ≠ [] ∧
      ∀ c ∈ l.token.text, isBlank c = false := by
    have hformed := hfit.formed_of_mem (List.mem_cons_of_mem _ hl)
    obtain ⟨c, r, hc, -⟩ := Token.read?_append hformed (.of_breaks breaks_nil)
    rw [List.append_nil] at hc
    exact ⟨hfit.gap_of_mem (List.mem_cons_of_mem _ hl), by rw [hc]; simp,
      hfree l (List.mem_cons_of_mem _ hl)⟩
  have hfirst : t.text ≠ [] := by
    obtain ⟨c, r, hc, -⟩ := Token.read?_append hfit.2.1 (.of_breaks breaks_nil)
    rw [List.append_nil] at hc
    rw [hc]
    simp
  have hwords : Text.respace (lead ++ (t.text ++ (ls.flatMap Lexeme.text ++ tail))) =
      Text.respace (t.text ++ (ls.flatMap Lexeme.text ++ tail)) := by
    rw [Text.respace, Text.respace, Text.words_of_blanks]
    exact fun c hc => isBlank_of_isGapChar (hlead c hc)
  have hspace := respace_lexemes (hfree ⟨lead, t⟩ (by simp)) hfirst htokens htail
  rw [text, h, trimmed, text, hlexemes]
  simpa [Lexeme.text, squeezed, squeeze] using hwords.trans hspace

end Rule

end Language

end WhereFilter
