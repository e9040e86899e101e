import WhereFilter.Bytewise.Fold
import WhereFilter.Proofs.Bytewise.Rewrite
import WhereFilter.Proofs.Reading.Printed
import WhereFilter.Rule.Verdict

namespace WhereFilter

namespace Bytewise

open Text (bytes size)

/-- `ms` are the places that `ls` have next to each other in `s`. -/
def Spans (s : Text) (ls : List Lexeme) (ms : List Mark) : Prop :=
  ∃ before after, s = before ++ (ls.flatMap Lexeme.text ++ after) ∧ ms = marksOf (size before) ls

variable {s : Text} {ls : List Lexeme} {ms : List Mark} {l : Lexeme}

theorem Spans.length (h : Spans s ls ms) : ms.length = ls.length := by
  obtain ⟨before, after, -, rfl⟩ := h
  exact length_marksOf _ _

theorem Spans.append (ls ls' : List Lexeme) (h : Spans s (ls ++ ls') ms) :
    ∃ as bs, ms = as ++ bs ∧ Spans s ls as ∧ Spans s ls' bs := by
  obtain ⟨before, after, hs, rfl⟩ := h
  refine ⟨_, _, marksOf_append _ _ _, ⟨before, ls'.flatMap Lexeme.text ++ after, by simp [hs], rfl⟩,
    ⟨before ++ ls.flatMap Lexeme.text, after, by simp [hs], by simp⟩⟩

theorem Spans.nil (h : Spans s [] ms) : ms = [] :=
  List.length_eq_zero_iff.mp h.length

/-- The first of some places. -/
theorem Spans.cons (h : Spans s (l :: ls) ms) :
    ∃ m bs, ms = m :: bs ∧ Spans s [l] [m] ∧ Spans s ls bs := by
  obtain ⟨as, bs, rfl, ha, hb⟩ := Spans.append [l] ls h
  obtain ⟨m, rfl⟩ := List.length_eq_one_iff.mp ha.length
  exact ⟨m, bs, rfl, ha, hb⟩

section

variable {m : Mark} (h : Spans s [l] [m])

include h in
theorem Spans.eq_markOf : ∃ before after, s = before ++ (l.text ++ after) ∧
    m = markOf (size before) l := by
  obtain ⟨before, after, hs, hm⟩ := h
  exact ⟨before, after, by simpa using hs, (List.cons.inj (hm.trans (marksOf_cons _ l []))).1⟩

include h in
theorem Spans.kind : m.kind = l.token.kind := by
  obtain ⟨before, after, -, rfl⟩ := h.eq_markOf
  rfl

include h in
theorem Spans.source : source? s m = some l.token.text := by
  obtain ⟨before, after, hs, rfl⟩ := h.eq_markOf
  exact source?_markOf hs

include h in
theorem Spans.isWord (w : Text) : isWord? s m w = some (l.isWord w) := by
  obtain ⟨before, after, hs, rfl⟩ := h.eq_markOf
  exact isWord?_markOf hs w

end

theorem Spans.text (h : Spans s ls ms) : textOf? s ms = some (slice ls) := by
  obtain ⟨before, after, hs, rfl⟩ := h
  cases ls with
  | nil => rfl
  | cons l ls =>
    obtain ⟨front, last, he⟩ : ∃ front last, l :: ls = front ++ [last] :=
      ⟨_, _, (List.dropLast_append_getLast (List.cons_ne_nil l ls)).symm⟩
    have hhead : (marksOf (size before) (l :: ls)).head? = some (markOf (size before) l) := by
      simp [marksOf_cons]
    have hlast : (marksOf (size before) (l :: ls)).getLast? =
        some (markOf (size before + size (front.flatMap Lexeme.text)) last) := by
      rw [he, marksOf_append, marksOf_cons]
      simp [marksOf, place]
    have hstop : (markOf (size before + size (front.flatMap Lexeme.text)) last).stop =
        size before + size ((l :: ls).flatMap Lexeme.text) := by
      rw [he]
      simp [markOf, Nat.add_assoc]
    rw [textOf?, hhead, hlast]
    simp only [hstop]
    exact Text.slice?_eq (u := before ++ l.gap) (w := after) (by simp [hs, slice, Lexeme.text])
      (by simp [markOf]) (by simp [slice, Lexeme.text]; omega)

theorem Spans.marker (h : Spans s ls ms) : marker? s ms = some (WhereFilter.marker? ls) := by
  match ls with
  | [] =>
    rw [h.nil]
    rfl
  | [_] =>
    obtain ⟨a, as, rfl, -, h⟩ := h.cons
    rw [h.nil]
    rfl
  | [_, _] =>
    obtain ⟨a, as, rfl, -, h⟩ := h.cons
    obtain ⟨b, bs, rfl, -, h⟩ := h.cons
    rw [h.nil]
    rfl
  | [one, eq, other] =>
    obtain ⟨a, as, rfl, ha, h⟩ := h.cons
    obtain ⟨b, bs, rfl, hb, h⟩ := h.cons
    obtain ⟨c, cs, rfl, hc, h⟩ := h.cons
    rw [h.nil]
    simp only [marker?, ha.kind, ha.source, hb.isWord, hc.kind, hc.source, WhereFilter.marker?,
      Lexeme.is, Option.bind_eq_bind, Option.bind_some]
    by_cases hone : one.token.kind = .number <;> by_cases hdigit : one.token.text = ['1'] <;>
      by_cases hother : other.token.kind = .number <;> cases heq : eq.isWord "eq".toList <;>
      simp [hone, hdigit, hother]
    split
    · rfl
    · split <;> rfl
  | a :: b :: c :: d :: ls =>
    obtain ⟨_, _, rfl, -, h⟩ := h.cons
    obtain ⟨_, _, rfl, -, h⟩ := h.cons
    obtain ⟨_, _, rfl, -, h⟩ := h.cons
    obtain ⟨_, _, rfl, -, h⟩ := h.cons
    rfl

theorem Spans.hasMarker (h : Spans s ls ms) : hasMarker s ms = some (WhereFilter.hasMarker ls) := by
  induction ls generalizing ms with
  | nil =>
    rw [h.nil]
    rfl
  | cons l ls ih =>
    obtain ⟨m, ms, rfl, -, hrest⟩ := h.cons
    match ls with
    | [] =>
      rw [hrest.nil]
      rfl
    | [_] =>
      obtain ⟨_, _, rfl, -, h⟩ := hrest.cons
      rw [h.nil]
      rfl
    | a :: b :: ls =>
      obtain ⟨as, bs, hsplit, hfront, -⟩ := Spans.append [l, a, b] ls h
      match as, hfront.length with
      | [m, x, y], _ =>
      simp only [List.cons_append, List.nil_append] at hsplit
      cases hsplit
      rw [Bytewise.hasMarker, hfront.marker, WhereFilter.hasMarker]
      simp only [Option.bind_eq_bind, Option.bind_some, ih hrest]
      cases hm : (WhereFilter.marker? [l, a, b]).isSome <;> simp [hm]

/-- What one token does to the parts. -/
theorem partsFrom_cons {m : Mark} (h : Spans s [l] [m]) (w : Text) (range ms : List Mark)
    (i depth start : Nat) :
    partsFrom s w range (m :: ms) i depth start =
      if l.is .parenLeft then partsFrom s w range ms (i + 1) (depth + 1) start
      else if l.is .parenRight then partsFrom s w range ms (i + 1) (depth - 1) start
      else if depth == 0 && l.isWord w then
        (part? range start i).bind fun part =>
          (partsFrom s w range ms (i + 1) depth (i + 1)).map (part :: ·)
      else partsFrom s w range ms (i + 1) depth start := by
  have hcut : cuts? s w m depth = some (depth == 0 && l.isWord w) := by
    rw [cuts?, h.isWord]
    cases depth == 0 <;> rfl
  rw [partsFrom.eq_def]
  simp only [h.kind, hcut, Option.bind_eq_bind, Option.bind_some]
  split
  · next hk => simp [Lexeme.is, hk]
  · next hk => simp [Lexeme.is, hk]
  · next hopen hclose =>
    have hl : l.is .parenLeft = false := by simpa [Lexeme.is] using hopen
    have hr : l.is .parenRight = false := by simpa [Lexeme.is] using hclose
    simp only [hl, hr, Bool.false_eq_true, if_false, Option.map_eq_bind]
    rfl

/-- The part read so far. -/
theorem part?_marksOf {front cur ls : List Lexeme} {before after : Text}
    (hs : s = before ++ ((front ++ (cur ++ ls)).flatMap Lexeme.text ++ after)) :
    ∃ part, part? (marksOf (size before) (front ++ (cur ++ ls))) front.length
      (front.length + cur.length) = some part ∧ Spans s cur part :=
  ⟨_, part?_eq (by rw [marksOf_append, marksOf_append]) (by simp) (by simp),
    before ++ front.flatMap Lexeme.text, ls.flatMap Lexeme.text ++ after, by simp [hs], by simp⟩

/-- Reads on at `ls`, where the part that is being read started with `cur`, behind `front`. -/
theorem partsFrom_eq (front cur : List Lexeme) {ls : List Lexeme} {before after : Text}
    (hs : s = before ++ ((front ++ (cur ++ ls)).flatMap Lexeme.text ++ after)) (w : Text)
    (depth : Nat) :
    ∃ found, partsFrom s w (marksOf (size before) (front ++ (cur ++ ls)))
        (marksOf (size before + size ((front ++ cur).flatMap Lexeme.text)) ls)
        (front.length + cur.length) depth front.length = some found ∧
      List.Forall₂ (Spans s) (cur.foldr consFirst (WhereFilter.parts w depth ls)) found := by
  induction ls generalizing front cur depth with
  | nil =>
    obtain ⟨part, hpart, hspans⟩ := part?_marksOf hs
    have hlength : (marksOf (size before) (front ++ (cur ++ []))).length =
        front.length + cur.length := by simp
    refine ⟨[part], ?_, ?_⟩
    · rw [← hlength] at hpart
      exact congrArg (Option.bind · _) hpart
    · rw [WhereFilter.parts, foldr_consFirst, List.append_nil]
      exact .cons hspans .nil
  | cons l ls ih =>
    have hassoc : front ++ (cur ++ l :: ls) = front ++ ((cur ++ [l]) ++ ls) := by simp
    have hoffset : size before + size ((front ++ cur).flatMap Lexeme.text) + size l.text =
        size before + size ((front ++ (cur ++ [l])).flatMap Lexeme.text) := by
      simp [Nat.add_assoc]
    have hl : Spans s [l] [markOf (size before + size ((front ++ cur).flatMap Lexeme.text)) l] :=
      ⟨before ++ (front ++ cur).flatMap Lexeme.text, ls.flatMap Lexeme.text ++ after, by simp [hs],
        by rw [Text.size_append, marksOf_cons]; rfl⟩
    have hmore (d : Nat) := ih front (cur ++ [l]) (hassoc ▸ hs) d
    simp only [List.length_append, List.length_singleton, ← Nat.add_assoc, List.foldr_append,
      List.foldr_cons, List.foldr_nil, ← hassoc, ← hoffset] at hmore
    rw [marksOf_cons, partsFrom_cons hl, WhereFilter.parts]
    rcases l.paren_cases with hopen | ⟨hopen, hclose⟩ | ⟨hopen, hclose⟩
    · simp only [hopen, if_true]
      exact hmore (depth + 1)
    · simp only [hopen, hclose, Bool.false_eq_true, if_true, if_false]
      exact hmore (depth - 1)
    · simp only [hopen, hclose, Bool.false_eq_true, if_false]
      cases hcut : depth == 0 && l.isWord w with
      | false => exact hmore depth
      | true =>
        -- the word ends the part, and the next one starts behind it
        have hzero : depth = 0 := by simp at hcut; exact hcut.1
        obtain ⟨part, hpart, hspans⟩ := part?_marksOf hs
        obtain ⟨found, hfound, hrest⟩ := ih (front ++ (cur ++ [l])) []
          (by rw [List.nil_append, List.append_assoc, ← hassoc]; exact hs) depth
        have hlength : (front ++ (cur ++ [l])).length = front.length + cur.length + 1 := by
          simp [Nat.add_assoc]
        rw [List.nil_append, List.append_nil, List.append_assoc, ← hassoc, ← hoffset, hlength,
          List.length_nil, Nat.add_zero] at hfound
        rw [if_pos rfl, if_pos rfl, hpart, Option.bind_some, hfound, foldr_consFirst,
          List.append_nil]
        exact ⟨_, rfl, .cons hspans (hzero ▸ hrest)⟩

theorem parts_eq {w : Text} (h : Spans s ls ms) :
    ∃ found, parts s w ms = some found ∧ List.Forall₂ (Spans s) (WhereFilter.parts w 0 ls) found := by
  obtain ⟨before, after, hs, rfl⟩ := h
  have hfound := partsFrom_eq [] [] (by simpa using hs) w 0
  simpa [parts] using hfound

/-- What stands in front of token `i`, if that one is the last of `rest`. -/
def inner? (rest : List Mark) (i : Nat) : Option (Option (List Mark)) := do
  let last ← minus? rest.length 1
  if i == last then (part? rest 0 i).map some else some none

theorem inner?_marksOf (offset : Nat) (front : List Lexeme) (l : Lexeme) (ls : List Lexeme) :
    inner? (marksOf offset (front ++ l :: ls)) front.length =
      some (if ls.isEmpty then some (marksOf offset front) else none) := by
  have hlast : minus? (marksOf offset (front ++ l :: ls)).length 1 =
      some (front.length + ls.length) := by
    simp [minus?]
  rw [inner?, hlast, Option.bind_eq_bind, Option.bind_some]
  cases ls with
  | nil =>
    have hpart : part? (marksOf offset (front ++ [l])) 0 front.length = some (marksOf offset front) :=
      part?_eq (u := []) (by rw [marksOf_append, List.nil_append]) rfl (by simp)
    rw [if_pos (by simp), hpart]
    rfl
  | cons a ls => rw [if_neg (by simp)]; rfl

/-- What one token does where one parenthesis and `depth` in it are open. -/
theorem untilCloseFrom_cons {m : Mark} (hm : m.kind = l.token.kind) (rest ms : List Mark)
    (i depth : Nat) :
    untilCloseFrom rest (m :: ms) i (depth + 1) =
      if l.is .parenLeft then untilCloseFrom rest ms (i + 1) (depth + 1 + 1)
      else if l.is .parenRight then
        match depth with
        | 0 => inner? rest i
        | depth + 1 => untilCloseFrom rest ms (i + 1) (depth + 1)
      else untilCloseFrom rest ms (i + 1) (depth + 1) := by
  have hminus : minus? (depth + 1) 1 = some depth := by simp [minus?]
  rw [untilCloseFrom.eq_def]
  simp only [hm, hminus, Option.bind_eq_bind, Option.bind_some]
  split
  · next hk => simp [Lexeme.is, hk]
  · next hk =>
    have hl : l.is .parenLeft = false := by simp [Lexeme.is, hk]
    have hr : l.is .parenRight = true := by simp [Lexeme.is, hk]
    simp only [hl, hr, Bool.false_eq_true, if_false, if_true]
    cases depth with
    | zero =>
      simp only [inner?, Option.map_eq_bind]
      rfl
    | succ depth => rfl
  · next hopen hclose =>
    have hl : l.is .parenLeft = false := by simpa [Lexeme.is] using hopen
    have hr : l.is .parenRight = false := by simpa [Lexeme.is] using hclose
    simp only [hl, hr, Bool.false_eq_true, if_false]

/-- Reads on at `ls`, where one parenthesis and `depth` in it are open behind `front`. -/
theorem untilCloseFrom_eq (offset depth : Nat) (front ls : List Lexeme) :
    untilCloseFrom (marksOf offset (front ++ ls))
        (marksOf (offset + size (front.flatMap Lexeme.text)) ls) front.length (depth + 1) =
      some ((untilClose? depth ls).map fun inner => marksOf offset (front ++ inner)) := by
  induction ls generalizing front depth with
  | nil => rfl
  | cons l ls ih =>
    have hmore (d : Nat) := ih d (front ++ [l])
    have hoffset : offset + size ((front ++ [l]).flatMap Lexeme.text) =
        offset + size (front.flatMap Lexeme.text) + size l.text := by simp [Nat.add_assoc]
    simp only [List.append_assoc, List.singleton_append, List.length_append, List.length_singleton,
      hoffset] at hmore
    rw [marksOf_cons, untilCloseFrom_cons (l := l) rfl]
    rcases l.paren_cases with hopen | ⟨hopen, hclose⟩ | ⟨hopen, hclose⟩
    · simp [untilClose?, hopen, hmore (depth + 1), Function.comp_def]
    · cases depth with
      | zero =>
        simp only [untilClose?, hopen, hclose, inner?_marksOf]
        cases ls <;> simp
      | succ depth => simp [untilClose?, hopen, hclose, hmore depth, Function.comp_def]
    · simp [untilClose?, hopen, hclose, hmore depth, Function.comp_def]

theorem inside?_eq (h : Spans s ls ms) :
    ∃ found, inside? ms = some found ∧ Option.Rel (Spans s) (WhereFilter.inside? ls) found := by
  cases ls with
  | nil =>
    rw [h.nil]
    exact ⟨none, rfl, .none⟩
  | cons l ls =>
    obtain ⟨m, rest, rfl, hm, hrest⟩ := h.cons
    rw [inside?, WhereFilter.inside?, hm.kind]
    cases hl : l.is .parenLeft with
    | false =>
      have hkind : (l.token.kind != .parenLeft) = true := by simpa [Lexeme.is] using hl
      rw [if_pos hkind]
      exact ⟨none, rfl, .none⟩
    | true =>
      have hkind : (l.token.kind != .parenLeft) = false := by simpa [Lexeme.is] using hl
      obtain ⟨before, after, hs, rfl⟩ := hrest
      have hclose := untilCloseFrom_eq (size before) 0 [] ls
      simp only [List.nil_append, List.flatMap_nil, Text.size_nil, Nat.add_zero, List.length_nil,
        Nat.zero_add] at hclose
      rw [hkind, if_neg (by simp), if_pos rfl, hclose]
      refine ⟨_, rfl, ?_⟩
      cases hu : untilClose? 0 ls with
      | none => exact .none
      | some inner =>
        obtain ⟨close, rfl, -⟩ := of_untilClose? hu
        exact .some ⟨before, close.text ++ after, by simpa using hs, rfl⟩

end Bytewise

namespace Verdict

/-- How two verdicts are joined where `joiner` is written between two filters. -/
structure Joins (joined : Verdict → Verdict → Verdict) (joiner : Text) (empty : Verdict) : Prop where
  filters (t u : Text) (c d : Bool) :
    joined (.filter t c) (.filter u d) = .filter (t ++ joiner ++ u) true
  left (v : Verdict) : joined empty v = v
  right (v : Verdict) : joined v empty = v
  assoc (u v w : Verdict) : joined (joined u v) w = joined u (joined v w)

theorem joins_either : Joins either " or ".toList .never where
  filters _ _ _ _ := rfl
  left v := by cases v <;> rfl
  right v := by cases v <;> rfl
  assoc u v w := by cases u <;> cases v <;> cases w <;> simp [either]

theorem joins_both : Joins both " and ".toList .always where
  filters _ _ _ _ := rfl
  left v := by cases v <;> rfl
  right v := by cases v <;> rfl
  assoc u v w := by cases u <;> cases v <;> cases w <;> simp [both]

variable {joined : Verdict → Verdict → Verdict} {joiner : Text} {empty : Verdict}

theorem Joins.foldr_append (h : Joins joined joiner empty) (us vs : List Verdict) :
    (us ++ vs).foldr joined empty = joined (us.foldr joined empty) (vs.foldr joined empty) := by
  induction us with
  | nil => exact (h.left _).symm
  | cons u us ih =>
    rw [List.cons_append, List.foldr_cons, ih, List.foldr_cons, h.assoc]

theorem Joins.verdict_chain (h : Joins joined joiner empty) {join : Reading → Reading → Reading}
    (hj : ∀ l r, (join l r).verdict = joined l.verdict r.verdict) {rs : List Reading} (hn : rs ≠ []) :
    (Reading.chain join rs).verdict = (rs.map Reading.verdict).foldr joined empty := by
  induction rs with
  | nil => exact absurd rfl hn
  | cons r rs ih =>
    cases rs with
    | nil => exact (h.right r.verdict).symm
    | cons r' rs =>
      have hrest := ih (List.cons_ne_nil r' rs)
      rw [Reading.chain_cons join r (List.cons_ne_nil r' rs), hj, hrest]
      rfl

end Verdict

namespace Bytewise

/-- The filters of `kept` as verdicts. -/
def filters (kept : List (Text × Bool)) : List Verdict :=
  kept.map fun (t, compound) => .filter t compound

section

open Verdict (Joins)

variable {joined : Verdict → Verdict → Verdict} {joiner : Text} {empty : Verdict}

theorem chain_cons (joiner : Text) (empty : Verdict) (x : Text × Bool) (kept : List (Text × Bool)) :
    ∃ compound, chain (x :: kept) joiner empty =
      .filter (joiner.intercalate ((x :: kept).map Prod.fst)) compound := by
  cases kept with
  | nil => exact ⟨x.2, by simp [chain]⟩
  | cons y kept => exact ⟨true, rfl⟩

theorem chain_eq (h : Joins joined joiner empty) (kept : List (Text × Bool)) :
    chain kept joiner empty = (filters kept).foldr joined empty := by
  induction kept with
  | nil => rfl
  | cons x kept ih =>
    cases kept with
    | nil => exact (h.right _).symm
    | cons y kept =>
      obtain ⟨compound, hc⟩ := chain_cons joiner empty y kept
      have hfold : (filters (x :: y :: kept)).foldr joined empty =
          joined (.filter x.1 x.2) (chain (y :: kept) joiner empty) := by
        rw [ih]
        rfl
      rw [hfold, hc, h.filters]
      simp [chain]

/-- Keeping one more filter is joining it. -/
theorem joined_chain_concat (h : Joins joined joiner empty) (kept : List (Text × Bool))
    (t : Text) (compound : Bool) (v : Verdict) :
    joined (chain (kept ++ [(t, compound)]) joiner empty) v =
      joined (chain kept joiner empty) (joined (.filter t compound) v) := by
  have hlast : (filters [(t, compound)]).foldr joined empty = .filter t compound := h.right _
  rw [chain_eq h, chain_eq h, filters, List.map_append, h.foldr_append, h.assoc]
  exact congrArg _ (congrArg (joined · v) hlast)

end

theorem eitherFrom_eq {s : Text} {ps : List (List Mark)} {vs : List Verdict}
    (h : List.Forall₂ (fun p v => both s p = some v) ps vs) (kept : List (Text × Bool)) :
    eitherFrom s ps kept = some ((chain kept " or ".toList .never).either
      (vs.foldr Verdict.either .never)) := by
  induction h generalizing kept with
  | nil =>
    rw [eitherFrom]
    exact congrArg some (Verdict.joins_either.right _).symm
  | @cons p v ps vs hp _ ih =>
    rw [eitherFrom, List.foldr_cons]
    simp only [hp, Option.bind_eq_bind, Option.bind_some]
    cases v with
    | always => cases chain kept " or ".toList .never <;> rfl
    | never =>
      rw [Verdict.joins_either.left]
      exact ih kept
    | filter t compound =>
      rw [← joined_chain_concat Verdict.joins_either]
      exact ih _

theorem bothFrom_eq {s : Text} {ps : List (List Mark)} {vs : List Verdict}
    (h : List.Forall₂ (fun p v => atom s p = some v) ps vs) (kept : List (Text × Bool)) :
    bothFrom s ps kept = some ((chain kept " and ".toList .always).both
      (vs.foldr Verdict.both .always)) := by
  induction h generalizing kept with
  | nil =>
    rw [bothFrom]
    exact congrArg some (Verdict.joins_both.right _).symm
  | @cons p v ps vs hp _ ih =>
    rw [bothFrom, List.foldr_cons]
    simp only [hp, Option.bind_eq_bind, Option.bind_some]
    cases v with
    | never => cases chain kept " and ".toList .always <;> rfl
    | always =>
      rw [Verdict.joins_both.left]
      exact ih kept
    | filter t compound =>
      rw [← joined_chain_concat Verdict.joins_both]
      exact ih _

variable {s : Text} {ls : List Lexeme} {ms : List Mark}

open Reading (ofPiece ofPart ofLexemes)

/-- What is in the parentheses of an atom is shorter than the atom. -/
theorem atom_eq (ih : ∀ inner mi, inner.length < ls.length → Spans s inner mi →
    either s mi = some (ofLexemes inner).verdict) (h : Spans s ls ms) :
    atom s ms = some (ofPiece ls).verdict := by
  obtain ⟨found, hfound, hrel⟩ := inside?_eq h
  rw [atom_unfold, hfound]
  cases hi : WhereFilter.inside? ls with
  | some inner =>
    rw [hi] at hrel
    cases hrel with
    | @some _ mi hmi =>
      have hinner := ih inner mi (inside?_length hi) hmi
      have hgroup : ofPiece ls = .group (ofLexemes inner) := Reading.ofPiece_of_inside? hi
      simp only [hinner, hgroup, Option.bind_eq_bind, Option.bind_some, Reading.verdict]
      cases (ofLexemes inner).verdict with
      | filter t compound => cases compound <;> rfl
      | _ => rfl
  | none =>
    rw [hi] at hrel
    cases hrel with
    | none =>
      simp only [h.marker, h.text, Option.bind_eq_bind, Option.bind_some, ofPiece, hi]
      cases WhereFilter.marker? ls with
      | none => rfl
      | some holds => cases holds <;> rfl

theorem forall₂_run (run : List Mark → Option Verdict) (verdict : List Lexeme → Verdict)
    {pieces : List (List Lexeme)} {found : List (List Mark)}
    (h : List.Forall₂ (Spans s) pieces found)
    (hrun : ∀ p ∈ pieces, ∀ m, Spans s p m → run m = some (verdict p)) :
    List.Forall₂ (fun p v => run p = some v) found (pieces.map verdict) := by
  induction h with
  | nil => exact .nil
  | cons hp _ ih =>
    simp only [List.mem_cons, forall_eq_or_imp] at hrun
    exact .cons (hrun.1 _ hp) (ih hrun.2)

theorem both_eq (ih : ∀ inner mi, inner.length < ls.length → Spans s inner mi →
    either s mi = some (ofLexemes inner).verdict) (h : Spans s ls ms) :
    both s ms = some (ofPart ls).verdict := by
  obtain ⟨found, hfound, hspans⟩ := parts_eq (w := "and".toList) h
  have hatoms := forall₂_run (atom s) (fun p => (ofPiece p).verdict) hspans
    fun p hp m hm => atom_eq (fun inner mi hlt =>
      ih inner mi (Nat.lt_of_lt_of_le hlt (length_of_mem_parts p hp))) hm
  rw [both_unfold, hfound, Option.bind_some, bothFrom_eq hatoms, ofPart,
    Verdict.joins_both.verdict_chain (fun _ _ => rfl) (by simpa using parts_ne_nil _ _ _),
    List.map_map]
  exact congrArg some (Verdict.joins_both.left _)

theorem either_eq (h : Spans s ls ms) : either s ms = some (ofLexemes ls).verdict := by
  induction hn : ls.length using Nat.strongRecOn generalizing ls ms with
  | ind n ih =>
  subst hn
  obtain ⟨found, hfound, hspans⟩ := parts_eq (w := "or".toList) h
  have hboths := forall₂_run (both s) (fun p => (ofPart p).verdict) hspans
    fun p hp m hm => both_eq (fun inner mi hlt hmi =>
      ih inner.length (Nat.lt_of_lt_of_le hlt (length_of_mem_parts p hp)) hmi rfl) hm
  rw [either_unfold, hfound, Option.bind_some, eitherFrom_eq hboths,
    Reading.ofLexemes_eq,
    Verdict.joins_either.verdict_chain (fun _ _ => rfl) (by simpa using parts_ne_nil _ _ _),
    List.map_map]
  exact congrArg some (Verdict.joins_either.left _)

theorem foldMarkers_eq (s : Text) : foldMarkers s = some (WhereFilter.foldMarkers s) := by
  rw [foldMarkers, marks_text, WhereFilter.foldMarkers]
  cases hs : scan s with
  | error e => rfl
  | ok found =>
    have hspans : Spans s found.lexemes (marksOf 0 found.lexemes) :=
      ⟨[], found.tail, (scan_text hs).symm, rfl⟩
    simp only [hspans.hasMarker, either_eq hspans, Option.bind_eq_bind, Option.bind_some]
    cases WhereFilter.hasMarker found.lexemes with
    | false => rfl
    | true => cases (ofLexemes found.lexemes).verdict <;> rfl

end Bytewise

end WhereFilter
