import WhereFilter.Proofs.Rule.Comparisons
import WhereFilter.Rule.Coalesce
import WhereFilter.Rule.Wrapped

namespace WhereFilter

open Token (isNameChar Paired Formed)
open Value (doubleQuotes)
open WhereFilter.Language (letterText)

namespace Verbatim

/-- The literal with the value `v`. -/
def quotation (v : Text) : Text :=
  '\'' :: doubleQuotes v ++ ['\'']

/-- A value that every pass leaves alone where a literal has it: its blanks are single spaces, no
letter stands in quotes at either end, no call or clause starts in the literal, and no parenthesis
closes in or right behind its first run of characters. -/
structure Calm (v : Text) : Prop where
  plain : ∀ c ∈ v, c ≠ '@' ∧ (isBlank c = true → c = ' ')
  spaced : ¬[' ', ' '] <:+: v
  front : ∀ x, ¬letterText x ++ ['\''] <+: v
  back : ∀ x, ¬ '\'' :: letterText x <:+ v
  calls : ∀ s, coalesce.Still (quotation v) s
  clauses : ∀ s, Wrapped.clause.Still (quotation v) s
  run : ')' ∉ (quotation v).takeWhile (!isBlank ·)
  behind : (Text.skipBlanks ((quotation v).dropWhile (!isBlank ·))).head? ≠ some ')'

/-- What stands between the quotes of a quoted name. -/
structure Quiet (u : Text) : Prop where
  paired : Paired '"' u
  plain : ∀ c ∈ u, c ≠ '\'' ∧ c ≠ '(' ∧ c ≠ ')' ∧ c ≠ '@'

theorem mem_of_mem_doubleQuotes {c : Char} {v : Text} (h : c ∈ doubleQuotes v) : c ∈ v := by
  obtain ⟨d, hd, hc⟩ := List.mem_flatMap.mp h
  split at hc
  · next hq =>
    have hq' : c = '\'' := by simpa using hc
    rwa [hq', ← hq]
  · rwa [List.mem_singleton.mp hc]

def isCode (c : Char) : Bool :=
  !isQuote c && c != '@'

/-- Characters outside literals and quoted names, in front of which either may stand. -/
def Inert (u : Text) : Prop :=
  ∀ c ∈ u, isCode c = true ∧ c ≠ ')'

theorem inert_of_all {u : Text} (h : (u.all fun c => isCode c && c != ')') = true) : Inert u := by
  simpa [Inert] using h

/-- Characters that must not follow a literal. -/
def joins (tight : Bool) (c : Char) : Bool :=
  c == '\'' || tight && isNameChar c

/-- A text without variables whose literals are among the known ones, and are to stay. In a tight
one no name follows a literal right away. -/
inductive Sound (tight : Bool) (known : Text → Prop) : Text → Prop
  | nil : Sound tight known []
  | code {c : Char} {s : Text} (hc : isCode c = true) (hs : Sound tight known s)
    (hnext : c = ')' → s.head?.any isQuote = false) : Sound tight known (c :: s)
  | literal {v s : Text} (hv : Calm v) (hknown : known (quotation v)) (hs : Sound tight known s)
    (hnext : s.head?.any (joins tight) = false) : Sound tight known (quotation v ++ s)
  | quoted {u s : Text} (hu : Quiet u) (hs : Sound tight known s) (hnext : s.head? ≠ some '"') :
    Sound tight known ('"' :: u ++ '"' :: s)

section

variable {tight : Bool} {known : Text → Prop} {c : Char} {s t u v : Text}

theorem Sound.of_code (h : Sound tight known (c :: s)) (hc : isQuote c = false) :
    Sound tight known s ∧ isCode c = true ∧ (c = ')' → s.head?.any isQuote = false) := by
  generalize ht : c :: s = t at h
  cases h with
  | nil => cases ht
  | code hc hs hnext =>
    cases ht
    exact ⟨hs, hc, hnext⟩
  | literal =>
    rw [(List.cons.inj ht).1] at hc
    cases hc
  | quoted =>
    rw [(List.cons.inj ht).1] at hc
    cases hc

theorem Sound.of_quote (h : Sound tight known ('\'' :: t)) :
    ∃ v s, '\'' :: t = quotation v ++ s ∧ Calm v ∧ known (quotation v) ∧ Sound tight known s ∧
      s.head?.any (joins tight) = false := by
  generalize ht : '\'' :: t = r at h
  cases h with
  | nil => cases ht
  | code hc =>
    cases ht
    cases hc
  | literal hv hknown hs hnext => exact ⟨_, _, rfl, hv, hknown, hs, hnext⟩
  | quoted => cases ht

theorem Sound.of_double (h : Sound tight known ('"' :: t)) :
    ∃ u s, t = u ++ '"' :: s ∧ Quiet u ∧ Sound tight known s ∧ s.head? ≠ some '"' := by
  generalize ht : '"' :: t = r at h
  cases h with
  | nil => cases ht
  | code hc =>
    cases ht
    cases hc
  | literal => cases ht
  | quoted hu hs hnext =>
    cases ht
    exact ⟨_, _, rfl, hu, hs, hnext⟩

theorem Sound.of_codes (hu : ∀ c ∈ u, isQuote c = false) (h : Sound tight known (u ++ s)) :
    Sound tight known s := by
  induction u with
  | nil => exact h
  | cons c u ih =>
    obtain ⟨hc, hu⟩ := List.forall_mem_cons.mp hu
    exact ih hu (h.of_code hc).1

theorem not_isQuote_of_isCode (h : isCode c = true) : isQuote c = false := by
  simp only [isCode, Bool.and_eq_true, Bool.not_eq_true'] at h
  exact h.1

theorem Inert.sound (hu : Inert u) (h : Sound tight known s) : Sound tight known (u ++ s) := by
  induction u with
  | nil => exact h
  | cons c u ih =>
    obtain ⟨⟨hc, hclose⟩, hu⟩ := List.forall_mem_cons.mp hu
    exact .code hc (ih hu) fun he => absurd he hclose

theorem Sound.of_inert (h : Sound tight known (u ++ s)) (hu : Inert u) : Sound tight known s :=
  h.of_codes fun c hc => not_isQuote_of_isCode (hu c hc).1

theorem Inert.append (hu : Inert u) (hv : Inert v) : Inert (u ++ v) :=
  List.forall_mem_append.mpr ⟨hu, hv⟩

theorem Inert.quote_not_mem (hu : Inert u) (hc : isQuote c = true) : c ∉ u := by
  intro hm
  rw [not_isQuote_of_isCode (hu c hm).1] at hc
  cases hc

theorem Inert.not_isQuote_head (hu : Inert u) (hne : u ≠ []) (s : Text) :
    (u ++ s).head?.any isQuote = false := by
  obtain ⟨c, u, rfl⟩ := List.exists_cons_of_ne_nil hne
  exact not_isQuote_of_isCode (hu c (by simp)).1

theorem ne_quote_of_joins (h : s.head?.any (joins tight) = false) : s.head? ≠ some '\'' := by
  intro hhead
  simp [hhead, joins] at h

theorem Sound.loosen (h : Sound tight known s) : Sound false known s := by
  induction h with
  | nil => exact .nil
  | code hc _ hnext ih => exact .code hc ih hnext
  | @literal v s hv hknown _ hnext ih =>
    refine .literal hv hknown ih ?_
    cases s with
    | nil => rfl
    | cons c s =>
      simp only [joins, List.head?_cons, Option.any_some, Bool.or_eq_false_iff] at hnext
      simpa [joins] using hnext.1
  | quoted hu _ hnext ih => exact .quoted hu ih hnext

theorem Sound.at_not_mem (h : Sound tight known s) : '@' ∉ s := by
  induction h with
  | nil => simp
  | code hc _ _ ih =>
    simp only [isCode, Bool.and_eq_true, bne_iff_ne] at hc
    simp [ih, Ne.symm hc.2]
  | @literal v s hv _ _ _ ih =>
    have hat : '@' ∉ doubleQuotes v := fun hm =>
      (hv.plain '@' (mem_of_mem_doubleQuotes hm)).1 rfl
    simp [quotation, hat, ih]
  | @quoted u s hu _ _ ih =>
    have hat : '@' ∉ u := fun hm => (hu.plain '@' hm).2.2.2 rfl
    simp [hat, ih]

end

/-- The first quote behind `f` is the one that closes, or one of two that the value has there. -/
theorem of_quoteFree {f v s z : Text} (hf : '\'' ∉ f)
    (h : doubleQuotes v ++ '\'' :: s = f ++ '\'' :: z) :
    (v = f ∧ s = z) ∨ ∃ w, v = f ++ '\'' :: w ∧ z = '\'' :: (doubleQuotes w ++ '\'' :: s) := by
  induction v generalizing f with
  | nil =>
    cases f with
    | nil => exact .inl ⟨rfl, (List.cons.inj h).2⟩
    | cons a f =>
      rw [← (List.cons.inj h).1] at hf
      exact absurd List.mem_cons_self hf
  | cons c v ih =>
    rw [YesNo.doubleQuotes_cons] at h
    by_cases hc : c = '\''
    · subst hc
      cases f with
      | nil => exact .inr ⟨v, rfl, (List.cons.inj h).2.symm⟩
      | cons a f =>
        rw [← (List.cons.inj h).1] at hf
        exact absurd List.mem_cons_self hf
    · rw [if_neg hc] at h
      cases f with
      | nil => exact absurd (List.cons.inj h).1 hc
      | cons a f =>
        obtain ⟨rfl, hrest⟩ := List.cons.inj h
        rcases ih (fun hm => hf (List.mem_cons_of_mem _ hm)) hrest with ⟨rfl, rfl⟩ | ⟨w, rfl, rfl⟩
        · exact .inl ⟨rfl, rfl⟩
        · exact .inr ⟨w, rfl, rfl⟩

theorem Sound.of_plain {tight : Bool} {known : Text → Prop} {f z : Text} (hf : '\'' ∉ f)
    (h : Sound tight known ('\'' :: (f ++ '\'' :: z))) (hz : z.head? ≠ some '\'') :
    Sound tight known z ∧ z.head?.any (joins tight) = false := by
  obtain ⟨v, s, he, -, -, hsound, hnext⟩ := h.of_quote
  have hread : doubleQuotes v ++ '\'' :: s = f ++ '\'' :: z := by simpa [quotation] using he.symm
  rcases of_quoteFree hf hread with ⟨-, rfl⟩ | ⟨w, -, rfl⟩
  · exact ⟨hsound, hnext⟩
  · exact absurd rfl hz

/-- A letter in quotes is a literal of its own. -/
theorem Sound.of_letter {tight : Bool} {known : Text → Prop} {y : Bool} {z : Text}
    (h : Sound tight known ('\'' :: letterText y ++ '\'' :: z)) :
    Sound tight known z ∧ z.head?.any (joins tight) = false := by
  have hy : '\'' ∉ letterText y := by cases y <;> decide
  obtain ⟨v, s, he, hv, -, hsound, hnext⟩ := h.of_quote
  have hread : doubleQuotes v ++ '\'' :: s = letterText y ++ '\'' :: z := by
    simpa [quotation] using he.symm
  rcases of_quoteFree hy hread with ⟨-, rfl⟩ | ⟨w, rfl, -⟩
  · exact ⟨hsound, hnext⟩
  · exact absurd ⟨w, by simp⟩ (hv.front y)

/-! ### Texts in place of others -/

/-- What may stand before `s` may stand before `s'`. -/
structure Meets (tight tight' : Bool) (s s' : Text) : Prop where
  close : s.head?.any isQuote = false → s'.head?.any isQuote = false
  literal : s.head?.any (joins tight) = false → s'.head?.any (joins tight') = false
  quoted : s.head? ≠ some '"' → s'.head? ≠ some '"'

/-- Anything may stand before a character that is neither a quote nor part of a name. -/
def isMild (c : Char) : Bool :=
  !(isQuote c || isNameChar c)

section

variable {tight tight' : Bool} {known : Text → Prop} {b s s' t u v w x y : Text}

theorem Meets.of_mild (h : s'.head?.all isMild = true) : Meets tight tight' s s' := by
  cases s' with
  | nil => exact ⟨fun _ => rfl, fun _ => rfl, fun _ => by simp⟩
  | cons c s' =>
    simp only [isMild, List.head?_cons, Option.all_some, Bool.not_eq_true',
      Bool.or_eq_false_iff] at h
    obtain ⟨hquote, hname⟩ := h
    refine ⟨fun _ => hquote, fun _ => ?_, fun _ => ?_⟩
    · have hne : c ≠ '\'' := by
        rintro rfl
        cases hquote
      simp [joins, hne, hname]
    · rintro ⟨⟩
      cases hquote

theorem Meets.of_head (htight : tight' = true → tight = true) (h : s'.head? = s.head?) :
    Meets tight tight' s s' := by
  refine ⟨fun hs => h ▸ hs, fun hs => ?_, fun hs => h ▸ hs⟩
  rw [h]
  cases hhead : s.head? with
  | none => rfl
  | some c =>
    rw [hhead] at hs
    simp only [joins, Option.any_some, Bool.or_eq_false_iff] at hs ⊢
    refine ⟨hs.1, ?_⟩
    cases tight' with
    | false => rfl
    | true => simpa [htight rfl] using hs.2

theorem not_joins_of_not_quote (h : s.head?.any isQuote = false) :
    s.head?.any (joins false) = false := by
  cases s with
  | nil => rfl
  | cons c s =>
    have hne : c ≠ '\'' := by
      rintro rfl
      cases h
    simp [joins, hne]

theorem Meets.of_not_quote (h : s'.head?.any isQuote = false) : Meets tight false s s' where
  close _ := h
  literal _ := not_joins_of_not_quote h
  quoted _ hhead := by
    rw [hhead] at h
    cases h

/-- In a tight text a name may make way for anything but a quote. -/
theorem Meets.of_name (htight : tight' = true → tight = true) (h : s.head?.any isNameChar = true)
    (h' : s'.head?.any isQuote = false) : Meets tight tight' s s' where
  close _ := h'
  literal hs := by
    cases tight' with
    | false => exact not_joins_of_not_quote h'
    | true =>
      cases s with
      | nil => cases h
      | cons c s =>
        replace h : isNameChar c = true := h
        simp [joins, htight rfl, h] at hs
  quoted _ hhead := by
    rw [hhead] at h'
    cases h'

theorem Meets.append_left (htight : tight' = true → tight = true) (w : Text)
    (h : Meets tight tight' s s') : Meets tight tight' (w ++ s) (w ++ s') := by
  cases w with
  | nil => exact h
  | cons c w => exact .of_head htight rfl

theorem Quiet.not_mem (hu : Quiet u) {c : Char} (hc : c ∈ ['(', ')', '@', '\'']) :
    c ∉ '"' :: u ++ ['"'] := by
  have hne : c ≠ '"' := by
    rintro rfl
    simp at hc
  intro hm
  have hmem : c ∈ u := by
    simpa only [List.mem_append, List.mem_cons, hne, List.not_mem_nil, false_or, or_false] using hm
  obtain ⟨hquote, hopen, hclose, hat⟩ := hu.plain c hmem
  simp [hquote, hopen, hclose, hat] at hc

theorem not_isQuote_of_isBlank {c : Char} (hc : isBlank c = true) : isQuote c = false :=
  not_isQuote_of hc rfl rfl

/-- A literal or a quoted name. -/
inductive IsUnit : Text → Prop
  | literal {v : Text} (hv : Calm v) : IsUnit (quotation v)
  | quoted {u : Text} (hu : Quiet u) : IsUnit ('"' :: u ++ ['"'])

theorem IsUnit.last (h : IsUnit u) : ∃ w q, u = w ++ [q] ∧ isQuote q = true := by
  cases h with
  | @literal v => exact ⟨'\'' :: doubleQuotes v, '\'', rfl, rfl⟩
  | @quoted u => exact ⟨'"' :: u, '"', rfl, rfl⟩

/-- No parenthesis closes in or right behind the first run of characters of a unit. -/
theorem IsUnit.not_closed (h : IsUnit (x ++ (b ++ ')' :: w))) (hx : ∀ c ∈ x, isBlank c = false)
    (hb : ∀ c ∈ b, isBlank c = true) : False := by
  generalize hu : x ++ (b ++ ')' :: w) = u at h
  cases h with
  | @quoted u hquiet => exact hquiet.not_mem (c := ')') (by simp) (by rw [← hu]; simp)
  | @literal v hv =>
    have hx' : ∀ c ∈ x, (!isBlank c) = true := fun c hc => by simp [hx c hc]
    cases b with
    | nil =>
      refine hv.run ?_
      rw [← hu, List.takeWhile_append_of_pos hx', List.nil_append, List.takeWhile_cons_of_pos rfl]
      simp
    | cons d b =>
      refine hv.behind ?_
      have hd := hb d (by simp)
      rw [← hu, List.dropWhile_append_of_pos hx', List.cons_append,
        List.dropWhile_cons_of_neg (by simp [hd]), ← List.cons_append,
        Language.skipBlanks_append hb (by rfl)]
      rfl

/-- A text may end where `x` does: no literal or quoted name goes on behind it. -/
def EndsUnits (x y : Text) : Prop :=
  ∀ w u t, w <:+ x → w ≠ [] → IsUnit u → u ++ t = w ++ y → u <+: w

theorem EndsUnits.of_suffix (h : EndsUnits x y) (hw : w <:+ x) : EndsUnits w y :=
  fun w' u t hsuffix => h w' u t (hsuffix.trans hw)

/-- What goes on behind `w` ends in a quote there. -/
theorem IsUnit.prefix_or (hu : IsUnit u) (he : u ++ t = w ++ y) :
    u <+: w ∨ ∃ m q, u = w ++ (m ++ [q]) ∧ y = m ++ q :: t ∧ isQuote q = true := by
  rcases List.append_eq_append_iff.mp he with ⟨r, hr, -⟩ | ⟨r, hr, hrest⟩
  · exact .inl ⟨r, hr.symm⟩
  · rcases List.eq_nil_or_concat r with rfl | ⟨m, q, rfl⟩
    · exact .inl ⟨[], by simpa using hr⟩
    · obtain ⟨z, q', hz, hq⟩ := hu.last
      rw [List.concat_eq_append] at hr hrest
      rw [hz, ← List.append_assoc] at hr
      obtain ⟨rfl, hlast⟩ := List.append_inj' hr rfl
      obtain rfl : q' = q := List.singleton_inj.mp hlast
      exact .inr ⟨m, q', by rw [hz, List.append_assoc], by simpa using hrest, hq⟩

theorem endsUnits_of_blanks (hy : ∀ c ∈ y, isBlank c = true) : EndsUnits x y := by
  intro w u t _ _ hu he
  refine (hu.prefix_or he).resolve_right ?_
  rintro ⟨m, q, -, rfl, hq⟩
  rw [not_isQuote_of_isBlank (hy q (by simp))] at hq
  cases hq

theorem close_first (hb : ∀ c ∈ b, isBlank c = true) {m : Text} {q : Char}
    (h : b ++ ')' :: s = m ++ q :: t) (hq : isQuote q = true) : ∃ w, m = b ++ ')' :: w := by
  induction b generalizing m with
  | nil =>
    cases m with
    | nil =>
      rw [← (List.cons.inj h).1] at hq
      cases hq
    | cons c m => exact ⟨m, by rw [← (List.cons.inj h).1]; rfl⟩
  | cons c b ih =>
    obtain ⟨hc, hb⟩ := List.forall_mem_cons.mp hb
    cases m with
    | nil =>
      rw [← (List.cons.inj h).1, not_isQuote_of_isBlank hc] at hq
      cases hq
    | cons d m =>
      obtain ⟨rfl, hrest⟩ := List.cons.inj h
      obtain ⟨w, rfl⟩ := ih hb hrest
      exact ⟨w, rfl⟩

theorem endsUnits_of_run (hx : ∀ c ∈ x, isBlank c = false) (hb : ∀ c ∈ b, isBlank c = true) :
    EndsUnits x (b ++ ')' :: s) := by
  intro w u t hw _ hu he
  refine (hu.prefix_or he).resolve_right ?_
  rintro ⟨m, q, rfl, hy, hq⟩
  obtain ⟨r, rfl⟩ := close_first hb hy hq
  rw [List.append_assoc, List.cons_append] at hu
  exact hu.not_closed (fun c hc => hx c (hw.subset hc)) hb

theorem EndsUnits.split (hxy : EndsUnits x y) (hx : x ≠ []) (hu : IsUnit u)
    (he : u ++ t = x ++ y) : ∃ r, x = u ++ r ∧ t = r ++ y ∧ EndsUnits r y := by
  obtain ⟨r, rfl⟩ := hxy x u t List.suffix_rfl hx hu he
  rw [List.append_assoc, List.append_cancel_left_eq] at he
  exact ⟨r, rfl, he, hxy.of_suffix (List.suffix_append u r)⟩

theorem head?_any_append {p : Char → Bool} (h : (x ++ y).head?.any p = false)
    (hs : s.head?.any p = false) : (x ++ s).head?.any p = false := by
  cases x with
  | nil => exact hs
  | cons c x => exact h

theorem Sound.cut (h : Sound tight known (x ++ y)) (hxy : EndsUnits x y) :
    Sound tight known y ∧ ∀ {s : Text}, Sound tight known s → s.head?.any isQuote = false →
      s.head?.any (joins tight) = false → Sound tight known (x ++ s) := by
  generalize ht : x ++ y = t at h
  induction h generalizing x with
  | nil =>
    obtain ⟨rfl, rfl⟩ := List.append_eq_nil_iff.mp ht
    exact ⟨.nil, fun hs _ _ => hs⟩
  | @code c t hc hsound hnext ih =>
    cases x with
    | nil =>
      obtain rfl : y = c :: t := ht
      exact ⟨.code hc hsound hnext, fun hs _ _ => hs⟩
    | cons d x =>
      obtain ⟨rfl, rfl⟩ := List.cons.inj ht
      obtain ⟨hrest, hcut⟩ := ih (hxy.of_suffix (List.suffix_cons d x)) rfl
      exact ⟨hrest, fun hs hquote hjoins => .code hc (hcut hs hquote hjoins) fun hclose =>
        head?_any_append (hnext hclose) hquote⟩
  | @literal v t hv hknown hsound hnext ih =>
    cases x with
    | nil =>
      obtain rfl : y = quotation v ++ t := ht
      exact ⟨.literal hv hknown hsound hnext, fun hs _ _ => hs⟩
    | cons d x =>
      obtain ⟨r, hr, rfl, hry⟩ := hxy.split (by simp) (.literal hv) ht.symm
      obtain ⟨hrest, hcut⟩ := ih hry rfl
      refine ⟨hrest, fun hs hquote hjoins => ?_⟩
      rw [hr, List.append_assoc]
      exact .literal hv hknown (hcut hs hquote hjoins) (head?_any_append hnext hjoins)
  | @quoted u t hu hsound hnext ih =>
    cases x with
    | nil =>
      obtain rfl : y = '"' :: u ++ '"' :: t := ht
      exact ⟨.quoted hu hsound hnext, fun hs _ _ => hs⟩
    | cons d x =>
      have hfront : '"' :: u ++ ['"'] ++ t = d :: x ++ y := by rw [ht]; simp
      obtain ⟨r, hr, rfl, hry⟩ := hxy.split (by simp) (.quoted hu) hfront
      obtain ⟨hrest, hcut⟩ := ih hry rfl
      refine ⟨hrest, fun {s} hs hquote hjoins => ?_⟩
      rw [hr, List.append_assoc, List.append_assoc]
      refine .quoted hu (hcut hs hquote hjoins) fun hhead => ?_
      cases r with
      | nil =>
        change s.head? = _ at hhead
        rw [hhead] at hquote
        cases hquote
      | cons e r => exact hnext hhead

theorem not_joins_of_mild (h : s.head?.all isMild = true) :
    s.head?.any isQuote = false ∧ s.head?.any (joins tight) = false := by
  have hmeets : Meets tight tight [] s := .of_mild h
  exact ⟨hmeets.close rfl, hmeets.literal rfl⟩

theorem Sound.append (h : Sound tight known x) (hs : Sound tight known s)
    (hmild : s.head?.all isMild = true) : Sound tight known (x ++ s) := by
  obtain ⟨hquote, hjoins⟩ := not_joins_of_mild hmild
  rw [← List.append_nil x] at h
  exact (h.cut (endsUnits_of_blanks (by simp))).2 hs hquote hjoins

theorem Sound.trim (h : Sound tight known s) : Sound tight known (Text.trim s) := by
  have hstart : Sound tight known (Text.skipBlanks s) := by
    rw [← List.takeWhile_append_dropWhile (p := isBlank) (l := s)] at h
    exact h.of_codes fun c hc => not_isQuote_of_isBlank (holds_of_mem_takeWhile c hc)
  have hsplit := List.takeWhile_append_dropWhile (p := isBlank) (l := (Text.skipBlanks s).reverse)
  have htext : Text.skipBlanks s =
      Text.trim s ++ ((Text.skipBlanks s).reverse.takeWhile isBlank).reverse := by
    have hrev := congrArg List.reverse hsplit
    rw [List.reverse_append, List.reverse_reverse] at hrev
    exact hrev.symm
  rw [htext] at hstart
  have hblanks : ∀ c ∈ ((Text.skipBlanks s).reverse.takeWhile isBlank).reverse, isBlank c = true :=
    fun c hc => holds_of_mem_takeWhile c (List.mem_reverse.mp hc)
  have hend := (hstart.cut (endsUnits_of_blanks hblanks)).2 .nil rfl rfl
  rwa [List.append_nil] at hend

end

end Verbatim

end WhereFilter
