import WhereFilter.Dictionary.Column
import WhereFilter.Proofs.Language.Flat
import WhereFilter.Proofs.Rule.Operators

namespace WhereFilter

namespace Language

open Reading (unspaced)

/-- An integer as its clauses have it: the minus is a token of its own. -/
def Item.ofInt (n : Int) : Item :=
  .number (n < 0) (Digits.ofNat n.natAbs)

theorem Item.text_ofInt (n : Int) : (Item.ofInt n).text = Integer.text n := by
  unfold ofInt Integer.text
  by_cases hn : n < 0 <;> simp [hn, Item.text, Item.tokens, minus]

theorem Item.formed_ofInt (n : Int) : (Item.ofInt n).Formed :=
  .whole (Digits.ofNat_ne_nil _) (Digits.isDigit_ofNat _)

/-- What a column may be compared with in a filter. -/
structure Item.Kept (i : Item) : Prop where
  formed : i.Formed
  valued : i.Valued
  supported : i.Supported
  no_letter : i.letter? = none

theorem Item.not_word_of_mem_ofInt {n : Int} {t : Token} (h : t ∈ (Item.ofInt n).tokens) (w : Text) :
    t.isWord w = false := by
  unfold ofInt at h
  cases hn : decide (n < 0) <;> simp only [hn, Item.tokens, List.mem_cons, List.not_mem_nil,
    or_false] at h
  · rw [h]
    rfl
  · rcases h with rfl | rfl <;> rfl

theorem Item.kept_ofInt (n : Int) : (Item.ofInt n).Kept :=
  ⟨formed_ofInt n, trivial, trivial, rfl⟩

/-- A column that may stand in a filter. -/
structure Subject.Kept (x : Subject) : Prop where
  formed : x.Formed
  bare : x.table = none ∧ x.call = none
  no_phrase : ¬IsPhrase x.column

theorem Subject.Kept.ready_compared {x : Subject} (hx : x.Kept) {i : Item} (hi : i.Kept) :
    (x.compared .eqWord i).Ready ∧ (x.compared .eqWord i).Kept := by
  have hsimple := Subject.simple_compared hx.formed hx.bare .eqWord hi.formed hi.valued
  refine ⟨⟨⟨hsimple, ?_, ?_⟩, ?_⟩, Clause.Kept.compared hx.no_phrase hi.valued hi.supported _⟩
  · intro r hr
    cases hr
    rfl
  · intro r hr
    cases hr
    rfl
  · intro j hj
    cases hj
    exact hi.no_letter

theorem Rule.Open.groups {P : Rule .whole → Prop} {r : Rule k} (hr : r.Open) : r.Groups P := by
  induction r with
  | clause c => trivial
  | group inside r before _ => exact hr.elim
  | part r ih | whole r ih => exact ih hr
  | both l j r ihl ihr | either l j r ihl ihr => exact ⟨ihl hr.1, ihr hr.2⟩

theorem lowered_oneOf (c : Clause) (cs : List Clause) : (oneOf c cs).Lowered := by
  induction cs generalizing c with
  | nil => trivial
  | cons d ds ih => exact ⟨trivial, rfl, ih d⟩

theorem respaced_oneOf {c : Clause} {cs : List Clause} (h : ∀ d ∈ c :: cs, d.respaced = d) :
    (oneOf c cs).respaced = oneOf c cs := by
  induction cs generalizing c with
  | nil => simp only [oneOf, Rule.respaced, h c (by simp)]
  | cons d ds ih =>
    have hds := ih fun a ha => h a (List.mem_cons_of_mem c ha)
    simp only [oneOf, Rule.respaced, h c (by simp), hds]
    rfl

/-- A chain of comparisons of one column is as the passes leave it. -/
theorem final_oneOf {x : Subject} (hx : x.Kept) {i : Item} {is : List Item}
    (hi : ∀ j ∈ i :: is, j.Kept) :
    (oneOf (x.compared .eqWord i) (is.map (x.compared .eqWord))).Final := by
  have hall {P : Clause → Prop} (hP : ∀ j, j.Kept → P (x.compared .eqWord j)) :
      ∀ d ∈ x.compared .eqWord i :: is.map (x.compared .eqWord), P d := by
    rw [← List.map_cons]
    intro d hd
    obtain ⟨j, hj, rfl⟩ := List.mem_map.mp hd
    exact hP j (hi j hj)
  exact {
    formed := formed_oneOf (hall fun j hj => hx.ready_compared hj)
    bundled := (Rule.open_oneOf _ _).groups
    lowered := lowered_oneOf _ _
    spaced := respaced_oneOf (hall fun _ _ => rfl) }

theorem tokens_compared {x : Subject} (hx : x.table = none ∧ x.call = none) (r : Relation)
    (i : Item) (g : Text) :
    ((x.compared r i).lexemes g).map Lexeme.token = word x.column :: r.token :: i.tokens := by
  obtain ⟨t, ts, ht⟩ := List.exists_cons_of_ne_nil i.tokens_ne_nil
  simp [Subject.compared, Clause.lexemes, Side.lexemes, x.lexemes_of_bare hx.1 hx.2, ht, spaced,
    unspaced, Function.comp_def]

/-- A chain of comparisons is cut into them at the words between them. -/
theorem cut_oneOf {x : Subject} (hx : x.table = none ∧ x.call = none) {r : Relation} {i : Item}
    {is : List Item} (g : Text)
    (h : ∀ j ∈ i :: is, ∀ t ∈ word x.column :: r.token :: j.tokens, t.isWord "or".toList = false) :
    cut (·.isWord "or".toList)
        (((oneOf (x.compared r i) (is.map (x.compared r))).lexemes g).map Lexeme.token) =
      (i :: is).map fun j => word x.column :: r.token :: j.tokens := by
  induction is generalizing g i with
  | nil =>
    change cut _ (((x.compared r i).lexemes g).map Lexeme.token) = _
    rw [tokens_compared hx, cut_of_none (h i (by simp))]
    rfl
  | cons j js ih =>
    rw [List.map_cons, oneOf, Rule.lexemes, Rule.lexemes, Rule.lexemes, List.map_append,
      tokens_compared hx, List.map_cons, cut_append (h i (by simp)) rfl,
      ih _ fun a ha => h a (List.mem_cons_of_mem i ha)]
    rfl

end Language

namespace Column

open WhereFilter.Language

/-- The column that holds the ids of columns. -/
def idColumn : Subject :=
  ⟨none, "AD_Column_ID".toList, none⟩

theorem kept_idColumn : idColumn.Kept where
  formed := {
    table := fun _ h => nomatch h
    column := isName_cons (c := 'A') (t := "D_Column_ID".toList) rfl rfl rfl
    call := fun _ h => nomatch h }
  bare := ⟨rfl, rfl⟩
  no_phrase := by
    rintro ⟨p, hp, he⟩
    have hlength : p.length = 12 := by simpa [idColumn] using (congrArg List.length he).symm
    simp only [unsupportedPhrases, List.mem_cons, List.cons.injEq, and_true, List.not_mem_nil,
      reduceCtorEq, and_false, or_false, false_or] at hp
    rcases hp with rfl | rfl | rfl | rfl | rfl | rfl <;> cases hlength

/-- A batch filter as a rule of the language. -/
def batchRule (id : Int) (ids : List Int) : Rule .whole :=
  oneOf (idColumn.compared .eqWord (.ofInt id))
    ((ids.map Item.ofInt).map (idColumn.compared .eqWord))

theorem batchFilter?_eq (id : Int) (ids : List Int) :
    batchFilter? (id :: ids) = some (batchRule id ids).trimmed := by
  rw [Rule.trimmed, Rule.text, batchRule, text_oneOf ⟨rfl, rfl⟩, ← List.map_cons, List.map_map,
    List.append_nil]
  refine congrArg (fun ts => some (" or ".toList.intercalate ts)) (List.map_congr_left ?_)
  intro n _
  simp [comparedText, Item.text_ofInt, idColumn, Relation.token, word]

theorem final_batchRule (id : Int) (ids : List Int) : (batchRule id ids).Final := by
  apply final_oneOf kept_idColumn
  rw [← List.map_cons]
  intro i hi
  obtain ⟨n, -, rfl⟩ := List.mem_map.mp hi
  exact Item.kept_ofInt n

/-- The id in one clause of a batch filter. -/
def idOf? : List Token → Option Int
  | column :: op :: value =>
    if column = word "AD_Column_ID".toList ∧ op = word "eq".toList then
      Integer.read? (value.flatMap Token.text)
    else none
  | _ => none

/-- The ids in a batch filter, if the tokens are those of one. -/
def idsOf? (ts : List Token) : Option (List Int) :=
  (cut (·.isWord "or".toList) ts).mapM idOf?

theorem idOf?_ofInt (n : Int) :
    idOf? (word idColumn.column :: Relation.eqWord.token :: (Item.ofInt n).tokens) = some n := by
  have htext : (Item.ofInt n).tokens.flatMap Token.text = Integer.text n := Item.text_ofInt n
  rw [idOf?, if_pos ⟨rfl, rfl⟩, htext, Integer.read?_text]

theorem idsOf?_batchRule (id : Int) (ids : List Int) :
    idsOf? (((batchRule id ids).lexemes []).map Lexeme.token) = some (id :: ids) := by
  have hplain (j : Item) (hj : j ∈ (id :: ids).map Item.ofInt) :
      ∀ t ∈ word idColumn.column :: Relation.eqWord.token :: j.tokens,
        t.isWord "or".toList = false := by
    obtain ⟨n, -, rfl⟩ := List.mem_map.mp hj
    intro t ht
    rcases List.mem_cons.mp ht with rfl | ht
    · rfl
    · rcases List.mem_cons.mp ht with rfl | ht
      · rfl
      · exact Item.not_word_of_mem_ofInt ht _
  have hids : ((id :: ids).map fun n =>
      word idColumn.column :: Relation.eqWord.token :: (Item.ofInt n).tokens).mapM idOf? =
        some (id :: ids) := by
    induction id :: ids with
    | nil => rfl
    | cons n ns ih => rw [List.map_cons, List.mapM_cons, idOf?_ofInt, ih]; rfl
  rw [idsOf?, batchRule, cut_oneOf ⟨rfl, rfl⟩ [] hplain, ← List.map_cons, List.map_map]
  exact hids

/-- A batch filter has the ids it was made from among its tokens, and no pass changes it. -/
theorem exists_batchFilter? (id : Int) (ids : List Int) :
    ∃ t placed, batchFilter? (id :: ids) = some t ∧ (∀ b, translate b t = .ok t) ∧
      tokenize t = .ok placed ∧ idsOf? (placed.map Placed.token) = some (id :: ids) := by
  have hfinal := final_batchRule id ids
  have hscan := Rule.scan_trimmed (hfinal.formed.mono fun _ h => h.1)
  have htokens := tokensOf_eq_ok_iff_scan.mpr ⟨_, hscan, rfl⟩
  obtain ⟨placed, hplaced, htoken⟩ := tokensOf_eq_ok_iff_tokenize.mp htokens
  refine ⟨_, placed, batchFilter?_eq id ids, hfinal.translate, hplaced, ?_⟩
  rw [htoken]
  exact idsOf?_batchRule id ids

theorem batchFilter?_injective : Function.Injective batchFilter? := by
  intro ids ids' h
  cases ids with
  | nil =>
    cases ids' with
    | nil => rfl
    | cons id' ids' => cases h
  | cons id ids =>
    cases ids' with
    | nil => cases h
    | cons id' ids' =>
      obtain ⟨t, placed, ht, -, hplaced, hids⟩ := exists_batchFilter? id ids
      obtain ⟨t', placed', ht', -, hplaced', hids'⟩ := exists_batchFilter? id' ids'
      obtain rfl : t = t' := Option.some.inj (ht.symm.trans (h.trans ht'))
      obtain rfl : placed = placed' := Except.ok.inj (hplaced.symm.trans hplaced')
      exact Option.some.inj (hids.symm.trans hids')

/-- A batch filter is a filter already: whatever the variables are bound to, it is translated to
itself. Its tokens give back the ids it was made from, in their order and as often, so no two
lists have one filter; the empty list has none. -/
theorem batch_reads_back :
    batchFilter? [] = none ∧
    (∀ id ids, ∃ t placed, batchFilter? (id :: ids) = some t ∧ (∀ b, translate b t = .ok t) ∧
      tokenize t = .ok placed ∧ idsOf? (placed.map Placed.token) = some (id :: ids)) ∧
    Function.Injective batchFilter? :=
  ⟨rfl, exists_batchFilter?, batchFilter?_injective⟩

example : batchFilter? [0, -1] = some "AD_Column_ID eq 0 or AD_Column_ID eq -1".toList := by
  cbv

end Column

end WhereFilter
