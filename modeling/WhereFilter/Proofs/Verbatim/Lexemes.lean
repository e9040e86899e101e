import WhereFilter.Proofs.Reading.Meaning
import WhereFilter.Proofs.Rule.Memberships
import WhereFilter.Proofs.Rule.Operators
import WhereFilter.Proofs.Verbatim.Tokens

namespace WhereFilter

open Pattern
open Token (isNameChar)

namespace Verbatim

/-- Lexemes that stand in a sound text before `rest`. -/
structure Stands (tight : Bool) (known : Text → Prop) (ls : List Lexeme) (rest : Text) : Prop where
  fit : Fit ls rest
  safe : Safe tight ls rest
  listed : ∀ l ∈ ls, Listed known l.token

/-- A sound text that may stand where `s` stood. -/
structure Serves (tight : Bool) (known : Text → Prop) (s s' : Text) : Prop where
  sound : Sound tight known s'
  meets : Meets tight tight s s'

section

variable {tight : Bool} {known : Text → Prop} {t : Token} {l : Lexeme} {ls xs ys : List Lexeme}
  {g s s' rest rest' tail : Text}

theorem Guarded.mono (h : Guarded tight t rest) (hmeets : Meets tight tight rest rest') :
    Guarded tight t rest' := by
  obtain ⟨kind, text⟩ := t
  cases kind
  case literal => exact ⟨h.1, hmeets.literal h.2⟩
  case quoted => exact ⟨h.1, hmeets.quoted h.2⟩
  case parenRight => exact hmeets.close h
  all_goals exact h

theorem safe_append : Safe tight (xs ++ ys) rest ↔
    Safe tight xs (ys.flatMap Lexeme.text ++ rest) ∧ Safe tight ys rest := by
  induction xs with
  | nil => simp [Safe]
  | cons x xs ih => simp [Safe, ih, and_assoc]

theorem Safe.mono (h : Safe tight ls rest) (hmeets : Meets tight tight rest rest') :
    Safe tight ls rest' := by
  induction ls with
  | nil => trivial
  | cons l ls ih => exact ⟨h.1.mono (hmeets.append_left id _), ih h.2⟩

theorem stands_append : Stands tight known (xs ++ ys) rest ↔
    Stands tight known xs (ys.flatMap Lexeme.text ++ rest) ∧ Stands tight known ys rest := by
  constructor
  · intro h
    obtain ⟨hfx, hfy⟩ := fit_append.mp h.fit
    obtain ⟨hsx, hsy⟩ := safe_append.mp h.safe
    obtain ⟨hlx, hly⟩ := List.forall_mem_append.mp h.listed
    exact ⟨⟨hfx, hsx, hlx⟩, ⟨hfy, hsy, hly⟩⟩
  · rintro ⟨hx, hy⟩
    exact ⟨fit_append.mpr ⟨hx.fit, hy.fit⟩, safe_append.mpr ⟨hx.safe, hy.safe⟩,
      List.forall_mem_append.mpr ⟨hx.listed, hy.listed⟩⟩

theorem Stands.behind (h : Stands tight known (l :: ls) rest) : Stands tight known ls rest :=
  ⟨h.fit.2.2.2, h.safe.2, (List.forall_mem_cons.mp h.listed).2⟩

theorem Stands.part (h : Stands tight known ls rest) (hx : xs <:+: ls) :
    ∃ rest, Stands tight known xs rest := by
  obtain ⟨u, v, rfl⟩ := hx
  exact ⟨_, (stands_append.mp (stands_append.mp h).1).2⟩

theorem Sound.stands (h : Sound tight known (ls.flatMap Lexeme.text ++ tail)) (hfit : Fit ls tail) :
    Stands tight known ls tail ∧ Sound tight known tail := by
  obtain ⟨hsafe, hlisted, htail⟩ := h.of_lexemes hfit
  exact ⟨⟨hfit, hsafe, hlisted⟩, htail⟩

theorem Stands.sound (h : Stands tight known ls tail) (htail : Sound tight known tail) :
    Sound tight known (ls.flatMap Lexeme.text ++ tail) :=
  sound_lexemes (fun _ ha => ⟨h.fit.gap_of_mem ha, h.fit.formed_of_mem ha⟩) h.safe h.listed htail

/-- Some lexemes by themselves, from the first token to the last. -/
theorem Stands.slice (h : Stands tight known ls rest) : Sound tight known (slice ls) := by
  cases ls with
  | nil => exact .nil
  | cons l ls =>
    have halone : Stands tight known (l :: ls) [] :=
      ⟨h.fit.before_break breaks_nil, h.safe.mono (.of_mild rfl), h.listed⟩
    have hsound := halone.sound .nil
    rw [List.append_nil, List.flatMap_cons, Lexeme.text, List.append_assoc] at hsound
    exact hsound.of_codes h.fit.1.not_isQuote

/-- A lexeme that stays, before what has changed. -/
theorem Stands.keep (h : Stands tight known (l :: ls) tail)
    (hs : Serves tight known (ls.flatMap Lexeme.text ++ tail) s) :
    Serves tight known ((l :: ls).flatMap Lexeme.text ++ tail) (l.text ++ s) := by
  refine ⟨?_, ?_⟩
  · rw [Lexeme.text, List.append_assoc]
    exact sound_token h.fit.1 h.fit.2.1 (h.safe.1.mono hs.meets) (h.listed l (by simp)) hs.sound
  · rw [List.flatMap_cons, List.append_assoc]
    exact hs.meets.append_left id l.text

theorem inert_word (ht : t.Formed) (hk : t.kind = .word) : Inert t.text ∧ t.text ≠ [] := by
  obtain ⟨kind, text⟩ := t
  cases hk
  obtain ⟨hne, hname⟩ := ht.word
  refine ⟨fun c hc => ?_, hne⟩
  have hc := hname c hc
  have hat : c ≠ '@' := by
    rintro rfl
    cases hc
  refine ⟨by simp [isCode, Token.not_isQuote_of_isNameChar hc, hat], ?_⟩
  rintro rfl
  cases hc

/-- A word with what follows it makes way. -/
theorem Meets.of_word (ht : t.Formed) (hk : t.kind = .word) (hs : s.head?.any isQuote = false) :
    Meets tight tight (g ++ (t.text ++ rest)) (g ++ s) := by
  refine Meets.append_left id g (.of_name id ?_ hs)
  obtain ⟨kind, text⟩ := t
  cases hk
  obtain ⟨hne, hname⟩ := ht.word
  obtain ⟨c, r, rfl⟩ := List.exists_cons_of_ne_nil hne
  exact hname c (by simp)

/-! ### Table names -/

theorem serves_qualified (h : Stands tight known ls tail) (htail : Sound tight known tail) :
    Serves tight known (ls.flatMap Lexeme.text ++ tail)
      ((qualified.replace (fun column => [column]) ls).flatMap Lexeme.text ++ tail) := by
  induction hn : ls.length using Nat.strongRecOn generalizing ls with
  | ind n ih =>
  subst hn
  rcases segments_cases forward_qualified advances_qualified ls with
    rfl | ⟨l, r, rfl, -, hseg⟩ | ⟨l, front, r, -, rfl, hhit, hseg⟩
  · exact ⟨htail, .of_head id rfl⟩
  · have hkeep := h.keep (ih r.length (by simp) h.behind rfl)
    rw [replace_of_item hseg]
    simpa using hkeep
  · obtain ⟨table, dot, column, he, rfl, htable, -, hcolumn, -, hgap⟩ := qualified_eq_some.mp hhit
    rw [he] at h ih ⊢
    have htword : table.token.kind = .word := by simpa [Lexeme.is] using htable
    have hcword : column.token.kind = .word := by simpa [Lexeme.is] using hcolumn
    have hrest : Stands tight known (column :: r) tail := h.behind.behind
    have hkeep := hrest.keep (ih r.length (by simp; omega) hrest.behind rfl)
    have htext : ((qualified.replace (fun column => [column]) (front ++ r)).flatMap Lexeme.text ++
        tail) = table.gap ++ (column.text ++
          ((qualified.replace (fun column => [column]) r).flatMap Lexeme.text ++ tail)) := by
      rw [replace_of_hit hseg]
      simp [Lexeme.text, hgap]
    rw [← he, htext, he]
    refine ⟨(inert_gap h.fit.1).sound hkeep.sound, ?_⟩
    obtain ⟨hinert, hne⟩ := inert_word hrest.fit.2.1 hcword
    rw [Lexeme.text, hgap, List.nil_append]
    rw [List.flatMap_cons, Lexeme.text, List.append_assoc, List.append_assoc]
    exact .of_word h.fit.2.1 htword (hinert.not_isQuote_head hne _)

theorem Sound.dropQualifiers (h : Sound tight known s) (ht : dropQualifiers s = .ok s') :
    Sound tight known s' := by
  cases hs : scan s with
  | error e => simp [WhereFilter.dropQualifiers, hs, Except.map] at ht
  | ok found =>
    simp only [WhereFilter.dropQualifiers, hs, Except.map, Except.ok.injEq] at ht
    subst ht
    obtain ⟨rfl, hfit, -⟩ := scan_eq_ok_iff.mp hs
    obtain ⟨hstands, htail⟩ := h.stands hfit
    exact (serves_qualified hstands htail).sound

/-! ### Variables -/

theorem fill_plain {b : Bindings} (render : Value → Text) (hs : '@' ∉ s) :
    Placeholder.fill b render s = s := by
  have hfill := Language.fill_append (b := b) render hs []
  rwa [Placeholder.fill_nil, List.append_nil] at hfill

/-- Without variables nothing is filled in. -/
theorem filling_plain {b : Bindings} (hfit : Fit ls tail)
    (hat : '@' ∉ ls.flatMap Lexeme.text ++ tail) :
    Language.filling b tail ls = ls.flatMap Lexeme.text ++ tail := by
  induction ls with
  | nil =>
    rw [Language.filling, Stretches.ofLexemes, Stretches.fill]
    simp only [List.flatMap_nil, List.append_nil]
    exact fill_plain _ hat
  | cons l ls ih =>
    obtain ⟨hg, ht, -, hrest⟩ := hfit
    simp only [List.flatMap_cons, List.append_assoc, List.mem_append, not_or] at hat
    obtain ⟨hl, hls, htail⟩ := hat
    have hfill := ih hrest (by simp [hls, htail])
    obtain ⟨gap, kind, text⟩ := l
    cases hk : Lexeme.is ⟨gap, kind, text⟩ .literal with
    | false =>
      have hplain : Language.filling b tail ([⟨gap, kind, text⟩] ++ ls) = _ :=
        Language.filled_plain (by simpa using hk) (by simpa using hl) ls
      rw [List.singleton_append, hfill] at hplain
      rw [hplain]
      simp
    | true =>
      obtain rfl : kind = .literal := by simpa [Lexeme.is] using hk
      obtain ⟨c, -, rfl⟩ := ht
      have hliteral : Language.filling b tail (⟨gap, Language.literal c⟩ :: ls) = _ :=
        Language.filled_literal hg c ls
      rw [fill_plain _ (by simp [Lexeme.text] at hl; exact hl.2), hfill] at hliteral
      refine hliteral.trans ?_
      simp [Lexeme.text]

theorem Sound.fillPlaceholders (h : Sound tight known s) {b : Bindings}
    (ht : fillPlaceholders b s = .ok s') : s' = s := by
  cases hs : scan s with
  | error e => simp [WhereFilter.fillPlaceholders, hs, Except.map] at ht
  | ok found =>
    simp only [WhereFilter.fillPlaceholders, hs, Except.map, Except.ok.injEq] at ht
    subst ht
    obtain ⟨rfl, hfit, -⟩ := scan_eq_ok_iff.mp hs
    exact filling_plain hfit h.at_not_mem

/-! ### Operators and connectives -/

theorem serves_respelled (p : Respelling) (h : Stands tight known ls tail)
    (htail : Sound tight known tail) :
    Serves tight known (ls.flatMap Lexeme.text ++ tail) (respelled p.spelling ls ++ tail) := by
  induction ls with
  | nil => exact ⟨htail, .of_head id rfl⟩
  | cons l ls ih =>
    have hrest := ih h.behind
    rw [respelled_cons]
    cases hspelling : p.spelling l.token with
    | none =>
      have hkeep := h.keep hrest
      rw [Lexeme.text, List.append_assoc] at hkeep
      simpa using hkeep
    | some written =>
      obtain ⟨word, hselects⟩ := Respelling.selects_of_spelling hspelling h.fit.2.1
      obtain ⟨hword, hne⟩ := inert_word hselects.formed rfl
      have hwritten : Sound tight known (written ++ (respelled p.spelling ls ++ tail)) := by
        rcases hselects.written_eq with rfl | ⟨rfl, -⟩
        · have hbehind := hword.sound (.code (c := ' ') rfl hrest.sound (by simp))
          simpa using Sound.code (c := ' ') rfl hbehind (by simp)
        · exact hword.sound hrest.sound
      have hmeets : Meets tight tight ((l :: ls).flatMap Lexeme.text ++ tail)
          (l.gap ++ (written ++ (respelled p.spelling ls ++ tail))) := by
        rw [List.flatMap_cons, Lexeme.text, List.append_assoc, List.append_assoc]
        rcases hselects.written_eq with rfl | ⟨rfl, hk⟩
        · exact .append_left id l.gap (.of_mild rfl)
        · exact .of_word h.fit.2.1 hk (hword.not_isQuote_head hne _)
      rw [Option.getD_some, List.append_assoc, List.append_assoc]
      exact ⟨(inert_gap h.fit.1).sound hwritten, hmeets⟩

theorem Sound.respell (h : Sound tight known s) (p : Respelling)
    (ht : respell p.spelling s = .ok s') : Sound tight known s' := by
  obtain ⟨found, hs, rfl⟩ := respell_eq_ok_iff.mp ht
  obtain ⟨rfl, hfit, -⟩ := scan_eq_ok_iff.mp hs
  obtain ⟨hstands, htail⟩ := h.stands hfit
  exact (serves_respelled p hstands htail).sound

/-! ### Lists -/

theorem sound_joined {front joint : Text} {values : List Text}
    (hfront : Inert front) (hjoint : Inert joint) (hmild : joint.head?.any isMild = true)
    (hvalues : ∀ v ∈ values, Sound tight known v) (hs : Sound tight known s)
    (hsmild : s.head?.all isMild = true) :
    Sound tight known (joint.intercalate (values.map (front ++ ·)) ++ s) := by
  induction values with
  | nil => simpa [List.intercalate] using hs
  | cons v values ih =>
    obtain ⟨hv, hvalues⟩ := List.forall_mem_cons.mp hvalues
    have hrest := ih hvalues
    cases values with
    | nil =>
      have hone := hfront.sound (hv.append hs hsmild)
      simpa [List.intercalate] using hone
    | cons w values =>
      have hhead : (joint ++ (joint.intercalate ((w :: values).map (front ++ ·)) ++ s)).head?.all
          isMild = true := by
        cases joint with
        | nil => cases hmild
        | cons c joint => exact hmild
      have hone := hfront.sound (hv.append (hjoint.sound hrest) hhead)
      simpa [List.intercalate] using hone

theorem sound_comparisons {column : Text} {negated : Bool} {values : List Text}
    (hcolumn : Inert column) (hvalues : ∀ v ∈ values, Sound tight known v)
    (hs : Sound tight known s) (hquote : s.head?.any isQuote = false) :
    Sound tight known (Membership.comparisons column negated values ++ s) := by
  have hclose : Sound tight known (')' :: s) := .code rfl hs fun _ => hquote
  have hor : Inert " or ".toList := inert_of_all rfl
  have hand : Inert " and ".toList := inert_of_all rfl
  have heq : Inert (column ++ " eq ".toList) := hcolumn.append (inert_of_all rfl)
  have hneq : Inert (column ++ " neq ".toList) := hcolumn.append (inert_of_all rfl)
  cases negated with
  | false =>
    have hjoined := sound_joined heq hor rfl hvalues hclose rfl
    simpa [Membership.comparisons] using Sound.code rfl hjoined (by simp)
  | true =>
    have hjoined := sound_joined hneq hand rfl hvalues hclose rfl
    simpa [Membership.comparisons] using Sound.code rfl hjoined (by simp)

theorem serves_expanded (h : Stands tight known ls tail) (htail : Sound tight known tail) {u : Text}
    (hu : Membership.Expands tail ls u) :
    Serves tight known (ls.flatMap Lexeme.text ++ tail) u := by
  induction hu with
  | done => exact ⟨htail, .of_head id rfl⟩
  | @occurrence column xs rest negated items t hoccurs _ ih =>
    obtain ⟨hxs, hrest⟩ := stands_append.mp h
    have hserves := ih hrest
    obtain ⟨hk, ⟨ys, close, rfl, hclose⟩, hitems⟩ := hoccurs.cases
    have hvalues : ∀ v ∈ items.map Membership.value, Sound tight known v := by
      intro v hv
      obtain ⟨item, hm, rfl⟩ := List.mem_map.mp hv
      obtain ⟨rest', hitem⟩ := hxs.part (hitems item hm)
      exact hitem.slice.trim
    have hquote : t.head?.any isQuote = false := by
      have hlast := (stands_append.mp hxs).2.safe.1
      rw [Guarded, hclose] at hlast
      exact hserves.meets.close hlast
    have hcolumn := (inert_word hxs.fit.2.1 hk).1
    refine ⟨(inert_gap hxs.fit.1).sound
      (sound_comparisons hcolumn hvalues hserves.sound hquote), ?_⟩
    have htext : (column :: ys ++ [close] ++ rest).flatMap Lexeme.text ++ tail =
        column.gap ++ (column.token.text ++
          ((ys ++ [close] ++ rest).flatMap Lexeme.text ++ tail)) := by
      simp [Lexeme.text]
    rw [htext]
    refine .of_word hxs.fit.2.1 hk ?_
    cases negated <;> rfl
  | @other l ls t _ _ ih => exact h.keep (ih h.behind)

theorem Sound.expandLists (h : Sound tight known s) (ht : expandLists s = .ok s') :
    Sound tight known s' := by
  cases hs : scan s with
  | error e => simp [WhereFilter.expandLists, hs, Except.map] at ht
  | ok found =>
    obtain ⟨t, ht', hexpands⟩ := Membership.expandLists_expands hs
    rw [ht', Except.ok.injEq] at ht
    obtain ⟨rfl, hfit, -⟩ := scan_eq_ok_iff.mp hs
    obtain ⟨hstands, htail⟩ := h.stands hfit
    exact (serves_expanded hstands htail ((hexpands s').mpr ht.symm)).sound

/-! ### Markers -/

theorem sound_text {r : Reading} (h : ∀ a ∈ r.atoms, Sound tight known (slice a)) :
    Sound tight known r.text := by
  induction r with
  | atom ls => exact h ls (by simp [Reading.atoms])
  | marker holds =>
    have hinert : Inert (Reading.marker holds).text := by
      cases holds <;> exact inert_of_all rfl
    rw [← List.append_nil (Reading.text _)]
    exact hinert.sound .nil
  | group r ih => exact .code rfl ((ih h).append (.code rfl .nil fun _ => rfl) rfl) (by simp)
  | either l r ihl ihr =>
    have hl := ihl fun a ha => h a (List.mem_append_left _ ha)
    have hr := ihr fun a ha => h a (List.mem_append_right _ ha)
    rw [Reading.text, List.append_assoc]
    exact hl.append ((inert_of_all rfl).sound hr) rfl
  | both l r ihl ihr =>
    have hl := ihl fun a ha => h a (List.mem_append_left _ ha)
    have hr := ihr fun a ha => h a (List.mem_append_right _ ha)
    rw [Reading.text, List.append_assoc]
    exact hl.append ((inert_of_all rfl).sound hr) rfl

theorem text_of_verdict {r : Reading} {u : Text} {compound : Bool}
    (h : r.verdict = .filter u compound) : u = r.folded.text := by
  rw [Reading.verdict_eq_outcome] at h
  generalize r.folded = r' at h
  rcases r' with _ | (_ | _) | _ | _ | _ <;> cases h <;> rfl

theorem Sound.foldMarkers (h : Sound tight known s) (ht : foldMarkers s = .ok s') :
    Sound tight known s' := by
  cases hs : scan s with
  | error e => simp [WhereFilter.foldMarkers, hs] at ht
  | ok found =>
    simp only [WhereFilter.foldMarkers, hs] at ht
    split at ht
    · split at ht
      · next u compound hverdict =>
        cases ht
        rw [text_of_verdict hverdict]
        refine sound_text fun a ha => ?_
        obtain ⟨rfl, hfit, -⟩ := scan_eq_ok_iff.mp hs
        obtain ⟨rest, ha⟩ := (h.stands hfit).1.part
          (Reading.infix_of_mem_atoms (Reading.atoms_folded _ ha))
        exact ha.slice
      · cases ht
      · cases ht
        rw [← List.append_nil "1 eq 1".toList]
        exact (inert_of_all rfl).sound .nil
    · cases ht
      exact h

end

end Verbatim

end WhereFilter
