import WhereFilter.Proofs.Language.Markers
import WhereFilter.Rule.Wrapped

namespace WhereFilter

namespace Language

open Pattern
open Reading (Rank)

/-- Closing parentheses behind the gaps before them. -/
def closers (gs : List Text) : Text :=
  gs.flatMap fun g => g ++ [')']

/-- The gaps that are left where one parenthesis goes: the first with white space before it,
or else the last. -/
def dropClose : List Text → List Text
  | [] | [_] => []
  | [] :: g :: gs => [] :: dropClose (g :: gs)
  | (_ :: _) :: g :: gs => g :: gs

theorem closers_append (gs hs : List Text) : closers (gs ++ hs) = closers gs ++ closers hs :=
  List.flatMap_append

theorem closers_replicate (n : Nat) : closers (List.replicate n []) = List.replicate n ')' := by
  induction n with
  | zero => rfl
  | succ n ih =>
    rw [List.replicate_succ, List.replicate_succ, ← ih]
    rfl

theorem dropClose_replicate (n : Nat) :
    dropClose (List.replicate (n + 1) []) = List.replicate n [] := by
  induction n with
  | zero => rfl
  | succ n ih =>
    rw [List.replicate_succ, List.replicate_succ, dropClose, ← List.replicate_succ, ih,
      List.replicate_succ]

theorem dropClose_append (n : Nat) {g : Text} (hg : g ≠ []) (gs : List Text) :
    dropClose (List.replicate n [] ++ g :: gs) = List.replicate n [] ++ gs := by
  obtain ⟨c, g, rfl⟩ := List.exists_cons_of_ne_nil hg
  induction n with
  | zero => cases gs <;> rfl
  | succ n ih =>
    cases n with
    | zero => cases gs <;> rfl
    | succ n =>
      rw [List.replicate_succ, List.cons_append] at ih ⊢
      rw [List.replicate_succ, List.cons_append, dropClose, ih]
      rfl

theorem dropClose_length (g : Text) (gs : List Text) : (dropClose (g :: gs)).length = gs.length := by
  induction gs generalizing g with
  | nil => rfl
  | cons h gs ih =>
    cases g with
    | nil => simp [dropClose, ih]
    | cons c g => simp [dropClose]

theorem mem_of_mem_dropClose {gs : List Text} {h : Text} (hm : h ∈ dropClose gs) : h ∈ gs := by
  induction gs with
  | nil => cases hm
  | cons g gs ih =>
    cases gs with
    | nil => cases hm
    | cons g' gs =>
      cases g with
      | nil =>
        rcases List.mem_cons.mp hm with rfl | hm
        · simp
        · exact List.mem_cons_of_mem _ (ih hm)
      | cons c g => exact List.mem_cons_of_mem _ hm

/-- Gaps are all empty, or one with white space in it comes first behind empty ones. -/
theorem gaps_cases (gs : List Text) :
    (∃ n, gs = List.replicate n []) ∨
      ∃ n g hs, gs = List.replicate n [] ++ g :: hs ∧ g ≠ [] := by
  induction gs with
  | nil => exact .inl ⟨0, rfl⟩
  | cons g gs ih =>
    cases g with
    | cons c g => exact .inr ⟨0, c :: g, gs, rfl, by simp⟩
    | nil =>
      rcases ih with ⟨n, rfl⟩ | ⟨n, g, hs, rfl, hn⟩
      · exact .inl ⟨n + 1, rfl⟩
      · exact .inr ⟨n + 1, g, hs, rfl, hn⟩

/-- What stands behind the parentheses that close right behind a rule. -/
structure Beyond (s : Text) : Prop where
  blank : ∀ c, s.head? = some c → isBlank c = true
  no_close : (Text.skipBlanks s).head? ≠ some ')'

theorem Beyond.after? {s : Text} (h : Beyond s) : Text.after? [')'] (Text.skipBlanks s) = none := by
  apply Text.after?_eq_none
  intro rest he
  exact h.no_close (by rw [he]; rfl)

theorem lastClose?_of_not_mem {t : Text} (h : ')' ∉ t) : Wrapped.lastClose? t = none := by
  induction t with
  | nil => rfl
  | cons c t ih =>
    simp only [List.mem_cons, not_or] at h
    simp [Wrapped.lastClose?, ih h.2, Ne.symm h.1]

theorem lastClose?_append (t : Text) : Wrapped.lastClose? (t ++ [')']) = some (t, []) := by
  induction t with
  | nil => rfl
  | cons c t ih => simp [Wrapped.lastClose?, ih]

theorem operand?_append {c : Char} {t rest : Text} (ht : ∀ a ∈ c :: t, isBlank a = false)
    (hr : ∀ a, rest.head? = some a → isBlank a = true) :
    Wrapped.operand? (c :: t ++ rest) =
      (Text.after? [')'] (Text.skipBlanks rest)).elim
        ((Wrapped.lastClose? t).map fun (front, back) => (c :: front, back ++ rest))
        fun rest => some (c :: t, rest) := by
  have hrest : rest.head?.any (fun a => !isBlank a) = false := by
    cases rest with
    | nil => rfl
    | cons a rest => simp [hr a rfl]
  obtain ⟨htake, hdrop⟩ := run_append (p := fun a => !isBlank a) (l := c :: t)
    (fun a ha => by simp [ht a ha]) hrest
  simp only [Wrapped.operand?, htake, hdrop]
  cases Text.after? [')'] (Text.skipBlanks rest) <;> rfl

theorem Item.close_not_mem {i : Item} (hi : i.Formed) (hv : i.Valued) :
    ')' ∉ i.text ∧ '(' ∉ i.text := by
  have free {n : Text} (h : ∀ a ∈ n, isPlainChar a = true) : ')' ∉ n ∧ '(' ∉ n := by
    refine ⟨fun hm => ?_, fun hm => ?_⟩
    · cases h _ hm
    · cases h _ hm
  match i with
  | .number true digits => simpa [text, tokens, minus] using free (plain_numeral hi)
  | .number false digits => simpa [text, tokens] using free (plain_numeral hi)
  | .literal c => simpa [text, tokens, Language.literal] using free hi
  | .truth true | .truth false => simp [text, tokens, word, truthWord]

/-- An operand that parentheses close behind is read up to one of them, the one that goes. -/
theorem operand?_closers {i : Item} (hi : i.Formed) {gs : List Text} (hg : ∀ g ∈ gs, IsGap g) (hn : gs ≠ []) {s : Text} (hs : Beyond s) :
    ∃ a front rest, closers gs = front ++ rest ∧ closers (dropClose gs) = a ++ rest ∧ '(' ∉ rest ∧
      Wrapped.operand? (i.text ++ (closers gs ++ s)) = some (i.text ++ a, rest ++ s) := by
  obtain ⟨c, t, ht, -⟩ := i.text_eq_cons hi
  have run (n : Nat) : ∀ a ∈ c :: (t ++ List.replicate n ')'), isBlank a = false := by
    intro a ha
    rw [← List.cons_append, ← ht] at ha
    rcases List.mem_append.mp ha with ha | ha
    · exact i.no_blank hi a ha
    · rw [List.eq_of_mem_replicate ha]
      rfl
  rcases gaps_cases gs with ⟨n, rfl⟩ | ⟨n, g, hs', rfl, hne⟩
  · cases n with
    | zero => exact absurd rfl hn
    | succ n =>
      refine ⟨List.replicate n ')', List.replicate (n + 1) ')', [], ?_, ?_, by simp, ?_⟩
      · rw [closers_replicate, List.append_nil]
      · rw [dropClose_replicate, closers_replicate, List.append_nil]
      · have hread := operand?_append (run (n + 1)) hs.blank
        rw [hs.after?, List.replicate_succ', ← List.append_assoc, lastClose?_append] at hread
        rw [closers_replicate, ht, List.replicate_succ']
        simpa using hread
  · have hgap : IsGap g := hg g (by simp)
    have hblank : ∀ a, (g ++ ')' :: (closers hs' ++ s)).head? = some a → isBlank a = true := by
      intro a ha
      obtain ⟨b, g, rfl⟩ := List.exists_cons_of_ne_nil hne
      cases ha
      exact isBlank_of_isGapChar (hgap a (by simp))
    refine ⟨List.replicate n ')', List.replicate n ')' ++ g ++ [')'], closers hs', ?_, ?_, ?_, ?_⟩
    · rw [closers_append, closers_replicate]
      simp [closers]
    · rw [dropClose_append n hne, closers_append, closers_replicate]
    · intro hm
      obtain ⟨h, hh, hm⟩ := List.mem_flatMap.mp hm
      rcases List.mem_append.mp hm with hm | hm
      · cases hg h (by simp [hh]) _ hm
      · cases List.mem_singleton.mp hm
    · have hread := operand?_append (run n) hblank
      rw [skipBlanks_gap hgap rfl] at hread
      rw [closers_append, closers_replicate, ht]
      simpa [closers, Text.after?] using hread

/-- An operand that no parenthesis closes behind is not read. -/
theorem operand?_of_beyond {i : Item} (hi : i.Formed) (hv : i.Valued) {s : Text} (hs : Beyond s) :
    Wrapped.operand? (i.text ++ s) = none := by
  obtain ⟨c, t, ht, -⟩ := i.text_eq_cons hi
  have hclose := (i.close_not_mem hi hv).1
  have hblank := i.no_blank hi
  rw [ht] at hclose hblank ⊢
  rw [operand?_append hblank hs.blank, hs.after?,
    lastClose?_of_not_mem fun hm => hclose (List.mem_cons_of_mem c hm)]
  rfl

theorem wrapped_of_ne {c : Char} (hc : c ≠ '(') (back : Option Char) (r : Text) :
    Wrapped.clause back (c :: r) = none := by
  have hopen : Text.after? ['('] (c :: r) = none := by simp [Text.after?, Ne.symm hc]
  simp only [Wrapped.clause, hopen, Option.bind_eq_bind, Option.bind_none]

theorem still_wrapped {u : Text} (h : '(' ∉ u) (s : Text) : Wrapped.clause.Still u s := by
  apply still_of_heads
  intro a ha
  apply wrapped_of_ne
  rintro rfl
  exact h ha

/-- What a clause in parentheses is read by: the word on its left, and the rest if a blank
follows that. -/
theorem wrapped_eq {inside w : Text} (hinside : IsGap inside)
    (hw : ∀ c ∈ w, Token.isNameChar c = true) (hn : w ≠ []) {s : Text} (hs : Firm s)
    (back : Option Char) :
    Wrapped.clause back ('(' :: (inside ++ (w ++ s))) = (do
      let (gap, s) ← Text.blanks? s
      let s ← Text.after? "eq".toList s
      let (gap', s) ← Text.blanks? s
      let (operand, s) ← Wrapped.operand? s
      some (w ++ gap ++ "eq".toList ++ gap' ++ operand, s)) := by
  have hskip : Text.skipBlanks (inside ++ (w ++ s)) = w ++ s := by
    obtain ⟨c, r, rfl⟩ := List.exists_cons_of_ne_nil hn
    exact skipBlanks_gap hinside (not_blank_of_isNameChar (hw c (by simp))) _
  have hword : Text.word? (w ++ s) = some (w, s) :=
    Text.word?_eq_some.mpr
      ⟨rfl, hn, fun c hc => isWordChar_of_isNameChar (hw c hc), hs.head?_any rfl⟩
  have hopen (r : Text) : Text.after? ['('] ('(' :: r) = some r := rfl
  simp only [Wrapped.clause, hopen, hskip, hword, Option.bind_eq_bind, Option.bind_some]

/-- Behind the word of an `eq` clause the operand is read. -/
theorem wrapped_eqWord {inside w before behind : Text} (hinside : IsGap inside)
    (hw : ∀ c ∈ w, Token.isNameChar c = true) (hn : w ≠ []) (hb : IsGap before) (hbn : before ≠ [])
    (hb' : IsGap behind) (hbn' : behind ≠ []) {i : Item} (hi : i.Formed) (s : Text)
    (back : Option Char) :
    Wrapped.clause back ('(' :: (inside ++ (w ++ (before ++ ("eq".toList ++ (behind ++
        (i.text ++ s))))))) =
      (Wrapped.operand? (i.text ++ s)).map fun (operand, s) =>
        (w ++ before ++ "eq".toList ++ behind ++ operand, s) := by
  have hbefore (r : Text) : Text.blanks? (before ++ ("eq".toList ++ r)) =
      some (before, "eq".toList ++ r) := blanks?_gap hb hbn rfl
  have hbehind : Text.blanks? (behind ++ (i.text ++ s)) = some (behind, i.text ++ s) := by
    obtain ⟨c, t, ht, -⟩ := i.text_eq_cons hi
    have hc := i.no_blank hi c (by rw [ht]; simp)
    exact blanks?_gap hb' hbn' (by rw [ht]; simpa using hc)
  have heq (r : Text) : Text.after? "eq".toList ("eq".toList ++ r) = some r :=
    Text.after?_eq_some.mpr rfl
  rw [wrapped_eq hinside hw hn (firm_of_ne_nil hb hbn)]
  simp only [hbefore, heq, hbehind, Option.bind_eq_bind, Option.bind_some]
  cases Wrapped.operand? (i.text ++ s) <;> rfl

/-- A clause with another relation is not read. -/
theorem wrapped_of_relation {inside w before : Text} (hinside : IsGap inside)
    (hw : ∀ c ∈ w, Token.isNameChar c = true) (hn : w ≠ []) (hb : IsGap before)
    {relation : Relation} (hr : relation ≠ .eqWord)
    (hapart : relation.isSpelled = true → before ≠ []) (s : Text) (back : Option Char) :
    Wrapped.clause back ('(' :: (inside ++ (w ++ (before ++ (relation.token.text ++ s))))) =
      none := by
  obtain ⟨c, t, ht, hblank, hc⟩ : ∃ c t, relation.token.text = c :: t ∧ isBlank c = false ∧
      c ≠ 'e' := by
    cases relation <;> first | exact ⟨_, _, rfl, rfl, by decide⟩ | exact absurd rfl hr
  have hfirm : Firm (before ++ (relation.token.text ++ s)) := by
    have hf : Firm ([⟨before, relation.token⟩].flatMap Lexeme.text ++ s) :=
      relation.firm hb hapart
    simpa [Lexeme.text] using hf
  have heq : Text.after? "eq".toList (c :: (t ++ s)) = none := by
    apply Text.after?_eq_none
    intro rest he
    exact hc (List.cons.inj he).1
  rw [wrapped_eq hinside hw hn hfirm, ht]
  by_cases hbn : before = []
  · subst hbn
    have hnone : Text.blanks? (c :: (t ++ s)) = none := by
      simp [Text.blanks?, hblank]
    simp only [List.nil_append, List.cons_append, hnone, Option.bind_eq_bind, Option.bind_none]
  · have hbefore : Text.blanks? (before ++ (c :: t ++ s)) = some (before, c :: (t ++ s)) :=
      blanks?_gap hb hbn (by simpa using hblank)
    simp only [hbefore, heq, Option.bind_eq_bind, Option.bind_some, Option.bind_none]

/-- A parenthesis behind a parenthesis is no clause. -/
theorem wrapped_of_open {inside : Text} (hinside : IsGap inside) (s : Text)
    (back : Option Char) : Wrapped.clause back ('(' :: (inside ++ '(' :: s)) = none := by
  have hskip : Text.skipBlanks (inside ++ '(' :: s) = '(' :: s := skipBlanks_gap hinside rfl s
  have hword : Text.word? ('(' :: s) = none := rfl
  have hopen (r : Text) : Text.after? ['('] ('(' :: r) = some r := rfl
  simp only [Wrapped.clause, hopen, hskip, hword, Option.bind_eq_bind, Option.bind_some,
    Option.bind_none]

namespace Rule

/-- The clause that is all of a rule. -/
def only? : Rule k → Option Clause
  | .clause c => some c
  | .part r | .whole r => r.only?
  | .group _ _ _ | .both _ _ _ | .either _ _ _ => none

/-- The `eq` clause that is all of a rule. -/
def single? (r : Rule k) : Option Clause :=
  r.only?.filter fun c => c.relation? == some .eqWord

/-- The rule with the parentheses off single `eq` clauses, and the gaps before the parentheses
that close behind it: each time one goes, those behind it stay. -/
def unwrapped : Rule k → List Text → Rule k × List Text
  | .clause c, gs => (.clause c, gs)
  | .group inside r before, gs =>
    match r.single? with
    | some c => (.clause c, dropClose (before :: gs))
    | none =>
      let found := r.unwrapped (before :: gs)
      (.group inside found.1 (found.2.headD []), found.2.tail)
  | .part r, gs => ((.part (r.unwrapped gs).1), (r.unwrapped gs).2)
  | .whole r, gs => ((.whole (r.unwrapped gs).1), (r.unwrapped gs).2)
  | .both l j r, gs => ((.both (l.unwrapped []).1 j (r.unwrapped gs).1), (r.unwrapped gs).2)
  | .either l j r, gs => ((.either (l.unwrapped []).1 j (r.unwrapped gs).1), (r.unwrapped gs).2)

theorem length_unwrapped (r : Rule k) (gs : List Text) :
    (r.unwrapped gs).2.length = gs.length := by
  induction r generalizing gs with
  | clause c => rfl
  | group inside r before ih =>
    simp only [unwrapped]
    split
    · exact dropClose_length before gs
    · simp [ih]
  | part r ih => exact ih gs
  | whole r ih => exact ih gs
  | both l j r ihl ihr => exact ihr gs
  | either l j r ihl ihr => exact ihr gs

theorem isGap_unwrapped {P : Clause → Prop} {r : Rule k} (hr : r.Formed P) {gs : List Text}
    (hg : ∀ g ∈ gs, IsGap g) : ∀ g ∈ (r.unwrapped gs).2, IsGap g := by
  induction r generalizing gs with
  | clause c => exact hg
  | group inside r before ih =>
    have hall : ∀ g ∈ before :: gs, IsGap g := by
      intro g hm
      rcases List.mem_cons.mp hm with rfl | hm
      · exact hr.2.2
      · exact hg g hm
    simp only [unwrapped]
    split
    · exact fun g hm => hall g (mem_of_mem_dropClose hm)
    · exact fun g hm => ih hr.2.1 hall g (List.mem_of_mem_tail hm)
  | part r ih => exact ih hr hg
  | whole r ih => exact ih hr hg
  | both l j r ihl ihr => exact ihr hr.2.2 hg
  | either l j r ihl ihr => exact ihr hr.2.2 hg

theorem formed_only {P : Clause → Prop} {r : Rule k} (hr : r.Formed P) {c : Clause}
    (h : r.only? = some c) : P c := by
  induction r with
  | clause d => cases h; exact hr
  | group inside r before ih => cases h
  | part r ih => exact ih hr h
  | whole r ih => exact ih hr h
  | both l j r ihl ihr => cases h
  | either l j r ihl ihr => cases h

theorem only?_of_single? {r : Rule k} {c : Clause} (h : r.single? = some c) :
    r.only? = some c ∧ c.relation? = some .eqWord := by
  obtain ⟨hc, he⟩ := Option.filter_eq_some_iff.mp h
  exact ⟨hc, by simpa using he⟩

theorem formed_unwrapped {P : Clause → Prop} {r : Rule k} (hr : r.Formed P) {gs : List Text}
    (hg : ∀ g ∈ gs, IsGap g) : (r.unwrapped gs).1.Formed P := by
  induction r generalizing gs with
  | clause c => exact hr
  | group inside r before ih =>
    have hall : ∀ g ∈ before :: gs, IsGap g := by
      intro g hm
      rcases List.mem_cons.mp hm with rfl | hm
      · exact hr.2.2
      · exact hg g hm
    simp only [unwrapped]
    split
    · next c hc => exact formed_only hr.2.1 (only?_of_single? hc).1
    · refine ⟨hr.1, ih hr.2.1 hall, ?_⟩
      have hgaps := isGap_unwrapped hr.2.1 hall
      cases hf : (r.unwrapped (before :: gs)).2 with
      | nil => exact isGap_nil
      | cons g hs => exact hgaps g (by rw [hf]; simp)
  | part r ih => exact ih hr hg
  | whole r ih => exact ih hr hg
  | both l j r ihl ihr => exact ⟨ihl hr.1 (by simp), hr.2.1, ihr hr.2.2 hg⟩
  | either l j r ihl ihr => exact ⟨ihl hr.1 (by simp), hr.2.1, ihr hr.2.2 hg⟩

theorem truth_only {v : Clause → Bool} {r : Rule k} {c : Clause} (h : r.only? = some c) :
    r.truth v = v c := by
  induction r with
  | clause d => cases h; rfl
  | group inside r before ih => cases h
  | part r ih => exact ih h
  | whole r ih => exact ih h
  | both l j r ihl ihr => cases h
  | either l j r ihl ihr => cases h

theorem truth_unwrapped (v : Clause → Bool) (r : Rule k) (gs : List Text) :
    (r.unwrapped gs).1.truth v = r.truth v := by
  induction r generalizing gs with
  | clause c => rfl
  | group inside r before ih =>
    simp only [unwrapped]
    split
    · next c hc => exact (truth_only (only?_of_single? hc).1).symm
    · exact ih (before :: gs)
  | part r ih => exact ih gs
  | whole r ih => exact ih gs
  | both l j r ihl ihr => simp only [unwrapped, truth, ihl, ihr]
  | either l j r ihl ihr => simp only [unwrapped, truth, ihl, ihr]

end Rule

/-- A clause is a word, a relation and an item with gaps between them. -/
theorem Clause.Simple.text {left : Side} {before behind : Text} {relation : Relation} {right : Item}
    (h : (Clause.compare left before relation behind right).Simple) :
    ∃ w : Text, (∀ c ∈ w, Token.isNameChar c = true) ∧ w ≠ [] ∧
      ∀ g, ((Clause.compare left before relation behind right).lexemes g).flatMap Lexeme.text =
        g ++ (w ++ (before ++ (relation.token.text ++ (behind ++ right.text)))) := by
  obtain ⟨t, ht, hw, hn⟩ := h.left_token
  refine ⟨t.text, hw, hn, fun g => ?_⟩
  simp [Clause.lexemes, ht, Lexeme.text, text_spaced behind right.tokens_ne_nil, Item.text]

theorem Clause.Simple.right {left : Side} {before behind : Text} {relation : Relation}
    {right : Item} (h : (Clause.compare left before relation behind right).Simple) :
    right.Formed ∧ right.Valued := by
  refine ⟨h.settled.formed.2.2.2.1, ?_⟩
  cases left with
  | item i => exact h.settled.valued.2
  | subject x => exact h.settled.valued

theorem open_not_mem_gap {g : Text} (hg : IsGap g) : '(' ∉ g := by
  intro hm
  cases hg _ hm

theorem Clause.Simple.open_not_mem {c : Clause} (hc : c.Simple) {g : Text} (hg : IsGap g) :
    '(' ∉ (c.lexemes g).flatMap Lexeme.text := by
  match c, hc with
  | .member _ _ _ _ _ _, hc => cases hc.no_list
  | .compare left before relation behind right, hc =>
    obtain ⟨w, hw, -, htext⟩ := hc.text
    obtain ⟨-, hb, hb', -⟩ := hc.settled.formed
    have hword : '(' ∉ w := fun hm => by cases hw _ hm
    have hrelation : '(' ∉ relation.token.text := by cases relation <;> decide
    rw [htext]
    simp only [List.mem_append, not_or]
    exact ⟨open_not_mem_gap hg, hword, open_not_mem_gap hb, hrelation, open_not_mem_gap hb',
      (right.close_not_mem hc.right.1 hc.right.2).2⟩

theorem open_not_mem_closers {gs : List Text} (hg : ∀ g ∈ gs, IsGap g) : '(' ∉ closers gs := by
  intro hm
  obtain ⟨g, hgs, hm⟩ := List.mem_flatMap.mp hm
  rcases List.mem_append.mp hm with hm | hm
  · exact open_not_mem_gap (hg g hgs) hm
  · cases List.mem_singleton.mp hm

theorem Joint.Of.beyond {w : Text} {j : Joint} (hj : j.Of w) (hw : IsConnective w) (s : Text) :
    Beyond (j.before ++ (j.text ++ s)) := by
  have hword : w ≠ [] ∧ w.all Char.isAlpha = true := by
    rcases hw with rfl | rfl <;> exact ⟨by decide, by decide⟩
  refine ⟨?_, ?_⟩
  · intro a ha
    obtain ⟨b, g, hg⟩ := List.exists_cons_of_ne_nil hj.apart
    rw [hg] at ha
    cases ha
    exact isBlank_of_isGapChar (hj.before a (by rw [hg]; simp))
  · rw [skipBlanks_word hj.spells hword.1 hword.2 hj.before]
    obtain ⟨c, r, he, hc, -⟩ := hj.spells.formed hword.1 hword.2
    have he' : j.text = c :: r := he
    rw [he']
    intro hh
    have hclose : c = ')' := by simpa using hh
    rw [hclose] at hc
    cases hc

theorem beyond_gap {g : Text} (hg : IsGap g) : Beyond g := by
  refine ⟨fun a ha => isBlank_of_isGapChar (hg a (List.mem_of_mem_head? ha)), ?_⟩
  have hskip := skipBlanks_append (r := []) (fun a ha => isBlank_of_isGapChar (hg a ha)) rfl
  rw [List.append_nil] at hskip
  rw [hskip]
  simp

/-- The clause takes the parentheses around it off, the closing one where an operand ends. -/
theorem unwraps_clause {c : Clause} (hc : c.Simple) (hr : c.relation? = some .eqWord)
    {g inside : Text} (hg : IsGap g) (hinside : IsGap inside) {gs : List Text}
    (hgs : ∀ h ∈ gs, IsGap h) (hn : gs ≠ []) {s : Text} (hs : Beyond s) :
    Wrapped.clause.Turns (fun c => [c]) id
      (g ++ '(' :: ((c.lexemes inside).flatMap Lexeme.text ++ closers gs)) s
      ((c.lexemes g).flatMap Lexeme.text ++ closers (dropClose gs)) := by
  match c, hc with
  | .member _ _ _ _ _ _, hc => cases hc.no_list
  | .compare left before relation behind right, hc =>
    cases hr
    obtain ⟨w, hw, hwn, htext⟩ := hc.text
    obtain ⟨-, hb, hb', -, hapart⟩ := hc.settled.formed
    obtain ⟨hbn, hbn'⟩ := hapart rfl
    obtain ⟨a, front, rest, hfront, hrest, hopen, hread⟩ :=
      operand?_closers hc.right.1 hgs hn hs
    have hit (back : Option Char) := wrapped_eqWord hinside hw hwn hb hbn hb' hbn' hc.right.1
      (closers gs ++ s) back
    rw [hread, hfront] at hit
    have hfirst := turns_of_hit (p := Wrapped.clause) id (g := g)
      (u := '(' :: (inside ++ (w ++ (before ++ ("eq".toList ++ (behind ++ (right.text ++ front)))))))
      (s := rest ++ s) (b := w ++ before ++ "eq".toList ++ behind ++ (right.text ++ a))
      (still_wrapped (open_not_mem_gap hg) _) (by simp)
      (by simpa using fun back => hit _)
    have hall := Turns.append hfirst (turns_of_still id (still_wrapped hopen s))
    rw [htext, htext, hfront, hrest]
    simpa [Relation.token, word] using hall

namespace Rule

theorem lexemes_only {r : Rule k} {c : Clause} (h : r.only? = some c) (g : Text) :
    r.lexemes g = c.lexemes g := by
  induction r with
  | clause d => cases h; rfl
  | group inside r before ih => cases h
  | part r ih => exact ih h
  | whole r ih => exact ih h
  | both l j r ihl ihr => cases h
  | either l j r ihl ihr => cases h

/-- The text starts with a parenthesis, or with a clause that is all of it or that a connective
follows. -/
def Starts (t : Text) (only : Option Clause) : Prop :=
  (∃ t', t = '(' :: t') ∨
    ∃ c u, c.Simple ∧ t = (clause c).trimmed ++ u ∧
      ((u = [] ∧ only = some c) ∨ ∀ s, Beyond (u ++ s))

theorem Starts.joined {t : Text} {only : Option Clause} (h : Starts t only) {w : Text} {j : Joint}
    (hj : j.Of w) (hw : IsConnective w) (v : Text) (only' : Option Clause) :
    Starts (t ++ (j.before ++ (j.text ++ v))) only' := by
  rcases h with ⟨t', rfl⟩ | ⟨c, u, hc, rfl, hu⟩
  · exact .inl ⟨_, rfl⟩
  · refine .inr ⟨c, u ++ (j.before ++ (j.text ++ v)), hc, by rw [List.append_assoc],
      .inr fun s => ?_⟩
    rcases hu with ⟨rfl, -⟩ | hu
    · simpa using hj.beyond hw (v ++ s)
    · simpa using hu (j.before ++ (j.text ++ (v ++ s)))

theorem starts {r : Rule k} (hr : r.Formed Clause.Simple) : Starts r.trimmed r.only? := by
  induction r with
  | clause c => exact .inr ⟨c, [], hr, by simp, .inl ⟨rfl, rfl⟩⟩
  | group inside r before _ =>
    exact .inl ⟨_, by simp [trimmed, text, lexemes, Lexeme.text, opening]; rfl⟩
  | part r ih => exact ih hr
  | whole r ih => exact ih hr
  | both l j r ihl _ =>
    have h := (ihl hr.1).joined hr.2.1 (.inl rfl) ((r.lexemes j.behind).flatMap Lexeme.text) none
    simpa [trimmed, text, lexemes, Lexeme.text, word, only?] using h
  | either l j r ihl _ =>
    have h := (ihl hr.1).joined hr.2.1 (.inr rfl) ((r.lexemes j.behind).flatMap Lexeme.text) none
    simpa [trimmed, text, lexemes, Lexeme.text, word, only?] using h

/-- A parenthesis around anything but a single `eq` clause stays. -/
theorem wrapped_of_not_single {r : Rule k} (hr : r.Formed Clause.Simple) (h : r.single? = none)
    {inside : Text} (hinside : IsGap inside) {s : Text} (back : Option Char) :
    Wrapped.clause back ('(' :: ((r.lexemes inside).flatMap Lexeme.text ++ s)) = none := by
  rw [flatMap_lexemes hr]
  rcases starts hr with ⟨t, ht⟩ | ⟨c, u, hc, ht, hu⟩
  · rw [ht, List.append_assoc]
    exact wrapped_of_open hinside (t ++ s) back
  · match c, hc with
    | .member _ _ _ _ _ _, hc => cases hc.no_list
    | .compare left before relation behind right, hc =>
      obtain ⟨w, hw, hwn, htext⟩ := hc.text
      obtain ⟨-, hb, hb', hright, hapart⟩ := hc.settled.formed
      have htrim : (clause (.compare left before relation behind right)).trimmed =
          w ++ (before ++ (relation.token.text ++ (behind ++ right.text))) := by
        rw [trimmed, text, lexemes, htext]
        simp
      rw [ht, htrim]
      by_cases heq : relation = .eqWord
      · subst heq
        rcases hu with ⟨rfl, honly⟩ | hu
        · simp [single?, honly, Clause.relation?] at h
        · obtain ⟨hbn, hbn'⟩ := hapart rfl
          have hread := wrapped_eqWord hinside hw hwn hb hbn hb' hbn' hright (u ++ s) back
          rw [operand?_of_beyond hc.right.1 hc.right.2 (hu s)] at hread
          simpa [Relation.token, word] using hread
      · have hread := wrapped_of_relation hinside hw hwn hb heq (fun h => (hapart h).1)
          (behind ++ (right.text ++ (u ++ s))) back
        simpa using hread

/-- How a text with closing parentheses behind it is written where parentheses go. -/
abbrev Unwraps (u : Text) (gs : List Text) (s u' : Text) (gs' : List Text) : Prop :=
  Wrapped.clause.Turns (fun c => [c]) id (u ++ closers gs) s (u' ++ closers gs')

theorem unwraps_joined {w : Text} (hw : IsConnective w) {j : Joint} (hj : j.Of w)
    {u v u' v' s : Text} {gs gs' : List Text} (hu : ∀ {s}, Beyond s → Unwraps u [] s u' [])
    (hv : Unwraps v gs s v' gs') :
    Unwraps (u ++ (j.before ++ (j.text ++ v))) gs s (u' ++ (j.before ++ (j.text ++ v'))) gs' := by
  have hopen : '(' ∉ j.before ++ j.text := by
    intro hm
    rcases List.mem_append.mp hm with hm | hm
    · exact open_not_mem_gap hj.before hm
    · rcases hw with rfl | rfl <;>
        exact hj.spells.not_mem (by decide) (by decide) rfl hm
  have hjoint := turns_of_still id (still_wrapped hopen ((v ++ closers gs) ++ s))
  have hleft := hu (hj.beyond hw ((v ++ closers gs) ++ s))
  have hall := Turns.append (v := j.before ++ j.text ++ (v ++ closers gs)) (s := s)
    (by simpa using hleft) (hjoint.append hv)
  simpa [Unwraps, closers] using hall

/-- A rule loses the parentheses around single `eq` clauses, and nothing else. -/
theorem unwraps {r : Rule k} (hr : r.Formed Clause.Simple) {g : Text} (hg : IsGap g)
    {gs : List Text} (hgs : ∀ h ∈ gs, IsGap h) {s : Text} (hs : Beyond s) :
    Unwraps ((r.lexemes g).flatMap Lexeme.text) gs s
      (((r.unwrapped gs).1.lexemes g).flatMap Lexeme.text) (r.unwrapped gs).2 := by
  induction r generalizing g gs s with
  | clause c =>
    apply turns_of_still
    apply still_wrapped
    simp only [List.mem_append, not_or]
    exact ⟨hr.open_not_mem hg, open_not_mem_closers hgs⟩
  | group inside r before ih =>
    have hall : ∀ h ∈ before :: gs, IsGap h := by
      intro h hm
      rcases List.mem_cons.mp hm with rfl | hm
      · exact hr.2.2
      · exact hgs h hm
    have htext (r : Rule .whole) (before : Text) (gs : List Text) :
        ((group inside r before).lexemes g).flatMap Lexeme.text ++ closers gs =
          g ++ '(' :: ((r.lexemes inside).flatMap Lexeme.text ++ closers (before :: gs)) := by
      simp [lexemes, Lexeme.text, opening, Language.closing, closers]
    rw [Unwraps, htext]
    cases hsingle : r.single? with
    | some c =>
      obtain ⟨honly, hrel⟩ := only?_of_single? hsingle
      have hturn := unwraps_clause (formed_only hr.2.1 honly) hrel hg hr.1 hall (by simp) hs
      simpa only [unwrapped, hsingle, lexemes_only honly, lexemes] using hturn
    | none =>
      have hstill : Wrapped.clause.Still (g ++ ['('])
          (((r.lexemes inside).flatMap Lexeme.text ++ closers (before :: gs)) ++ s) := by
        refine Still.append (still_wrapped (open_not_mem_gap hg) _)
          (still_cons.mpr ⟨fun back => ?_, still_nil⟩)
        have hnone := wrapped_of_not_single hr.2.1 hsingle hr.1 (s := closers (before :: gs) ++ s) back
        simpa using hnone
      have hturn := (turns_of_still id hstill).append (ih hr.2.1 hr.1 hall hs)
      have hlen := length_unwrapped r (before :: gs)
      simp only [unwrapped, hsingle]
      cases hf : (r.unwrapped (before :: gs)).2 with
      | nil => rw [hf] at hlen; cases hlen
      | cons h hs' =>
        rw [hf] at hturn
        rw [List.headD_cons, List.tail_cons, htext]
        simpa using hturn
  | part r ih => exact ih hr hg hgs hs
  | whole r ih => exact ih hr hg hgs hs
  | both l j r ihl ihr =>
    have hleft {s : Text} (hs : Beyond s) := ihl hr.1 hg (List.forall_mem_nil IsGap) hs
    rw [List.length_eq_zero_iff.mp (length_unwrapped l [])] at hleft
    have hturn := unwraps_joined (.inl rfl) hr.2.1 hleft (ihr hr.2.2 hr.2.1.behind hgs hs)
    simpa only [lexemes, unwrapped, List.flatMap_append, List.flatMap_cons, Lexeme.text, word,
      List.append_assoc] using hturn
  | either l j r ihl ihr =>
    have hleft {s : Text} (hs : Beyond s) := ihl hr.1 hg (List.forall_mem_nil IsGap) hs
    rw [List.length_eq_zero_iff.mp (length_unwrapped l [])] at hleft
    have hturn := unwraps_joined (.inr rfl) hr.2.1 hleft (ihr hr.2.2 hr.2.1.behind hgs hs)
    simpa only [lexemes, unwrapped, List.flatMap_append, List.flatMap_cons, Lexeme.text, word,
      List.append_assoc] using hturn

/-- The eleventh pass takes the parentheses of a rule off single `eq` clauses. -/
theorem unwrapClauses_text {r : Rule k} (hr : r.Formed Clause.Simple) {lead tail : Text}
    (hlead : IsGap lead) (htail : IsGap tail) :
    unwrapClauses (r.text lead tail) = (r.unwrapped []).1.text lead tail := by
  have hturn := unwraps hr hlead (List.forall_mem_nil IsGap) (beyond_gap htail)
  rw [List.length_eq_zero_iff.mp (length_unwrapped r [])] at hturn
  have hend := turns_of_still id (still_wrapped (open_not_mem_gap htail) [])
  have hall := Turns.append (v := tail) (s := []) (by simpa [closers, Unwraps] using hturn) hend
  exact hall.render

end Rule

end Language

end WhereFilter
