import WhereFilter.Bytewise.Translate
import WhereFilter.Proofs.Bytewise.Fold
import WhereFilter.Proofs.Bytewise.Lists
import WhereFilter.Proofs.Layout.Patterns
import WhereFilter.Proofs.Layout.Translation

namespace WhereFilter

namespace Phrase

theorem read?_text {ws : List Text} {s phrase rest : Text} (h : read? ws s = some (phrase, rest)) :
    s = phrase ++ rest := by
  fun_induction read? ws s generalizing phrase rest with
  | case1 s =>
    cases h
    rfl
  | case2 s w => exact Text.folded?_text h
  | case3 s w ws hws ih =>
    simp only [Option.bind_eq_bind, Option.bind_eq_some_iff, Prod.exists, Option.some.injEq,
      Prod.mk.injEq] at h
    obtain ⟨word, s', hword, gap, s'', hgap, more, s''', hmore, rfl, rfl⟩ := h
    rw [Text.folded?_text hword, Text.blanks?_text hgap, ih _ hmore]
    simp

theorem covers_unsupported : unsupported.Covers id := by
  intro back s phrase rest h
  obtain ⟨-, -, ws, -, hread⟩ := of_unsupported h
  exact read?_text hread

end Phrase

namespace Bytewise

open Text (bytes size)

/-- Where `text b` stands in `s`. -/
def StandsAt (s : Text) (text : β → Text) (b : β) (x : β × Nat × Nat) : Prop :=
  x.1 = b ∧ ∃ v w, s = v ++ (text b ++ w) ∧ x.2.1 = size v ∧ x.2.2 = size v + size (text b)

/-- The places are those of the hits. -/
theorem placesFrom_standsAt {p : Pattern Char β} {text : β → Text} (ha : p.Advances)
    (hc : p.Covers text) {s u t : Text} (hs : s = u ++ t) (back : Option Char) :
    List.Forall₂ (StandsAt s text) (p.renderFrom (fun _ => []) (fun b => [b]) back t)
      (placesFrom p back (size u) 0 t) := by
  induction hn : t.length using Nat.strongRecOn generalizing u t back with
  | ind n ih =>
  subst hn
  cases t with
  | nil => exact .nil
  | cons c t =>
    cases hp : p back (c :: t) with
    | none =>
      have hrest := ih t.length (by simp) (u := u ++ [c]) (t := t) (by simp [hs]) (some c) rfl
      have hsize : size (u ++ [c]) = size u + c.utf8Size := by simp
      rw [Pattern.renderFrom_of_none hp, placesFrom]
      simp only [hp]
      rwa [hsize] at hrest
    | some found =>
      obtain ⟨b, rest⟩ := found
      obtain ⟨front, hfront, he⟩ := ha back (c :: t) b rest hp
      have htext : front = text b := List.append_cancel_right (he.symm.trans (hc back _ b rest hp))
      rw [he] at hp hs ⊢
      have hlen : rest.length < (c :: t).length := by
        have := List.length_pos_iff.mpr hfront
        simp [he]
        omega
      have hrest := ih rest.length hlen (u := u ++ front) (t := rest) (by simp [hs])
        front.getLast? rfl
      rw [placesFrom_of_hit hfront hp, Pattern.renderFrom, Pattern.segmentsFrom_of_hit hfront hp,
        List.flatMap_cons]
      rw [Text.size_append] at hrest
      exact .cons ⟨rfl, u, rest, by rw [hs, htext], rfl, by rw [htext]⟩ hrest

theorem places_standsAt {p : Pattern Char β} {text : β → Text} (ha : p.Advances)
    (hc : p.Covers text) (s : Text) :
    List.Forall₂ (StandsAt s text) (p.hits s) (places p s) := by
  rw [Pattern.hits_eq_render]
  exact placesFrom_standsAt ha hc (u := []) rfl none

theorem checkSupported_eq (rule : Text) :
    checkSupported rule = some (WhereFilter.checkSupported rule) := by
  have h := places_standsAt Phrase.steady_unsupported.advances Phrase.covers_unsupported rule
  unfold checkSupported WhereFilter.checkSupported
  generalize Phrase.unsupported.hits rule = hits at h
  generalize places Phrase.unsupported rule = found at h
  cases h with
  | nil => rfl
  | cons hx _ =>
    obtain ⟨-, v, w, hs, hstart, hstop⟩ := hx
    simp only [Text.slice?_eq hs hstart hstop]
    rfl

/-- The name is what is left of a variable without its signs. -/
theorem name_of_standsAt {rule : Text} {q p : Placeholder} {start stop : Nat}
    (h : StandsAt rule Placeholder.text q (p, start, stop)) :
    ∃ last, minus? stop 1 = some last ∧
      rule.slice? (start + 1 + if p.hashed then 1 else 0) last = some q.name := by
  obtain ⟨rfl, v, w, hs, hstart, hstop⟩ := h
  simp only at hs hstart hstop
  have hat : '@'.utf8Size = 1 := rfl
  have hsign : size ('@' :: if p.hashed then ['#'] else []) = 1 + if p.hashed then 1 else 0 := by
    cases p.hashed <;> rfl
  have hsize : size p.text = size ('@' :: if p.hashed then ['#'] else []) + size p.name + 1 := by
    simp [Placeholder.text, hat]
    omega
  refine ⟨stop - 1, by rw [minus?, if_pos (by omega)], ?_⟩
  refine Text.slice?_eq (v := p.name) (u := v ++ ('@' :: if p.hashed then ['#'] else [])) (w := '@' :: w)
    (by simp [hs, Placeholder.text]) ?_ ?_
  · rw [Text.size_append, hsign]
    omega
  · rw [Text.size_append]
    omega

theorem checkBoundFrom_eq (b : Bindings) {rule : Text} {hits : List Placeholder}
    {found : List (Placeholder × Nat × Nat)}
    (h : List.Forall₂ (StandsAt rule Placeholder.text) hits found) :
    checkBoundFrom b rule found =
      some (match (hits.map Placeholder.name).find? fun name => !b.binds name with
        | none => .ok ()
        | some name => .error (.unbound name)) := by
  induction h with
  | nil => rfl
  | @cons q x hits found hx _ ih =>
    obtain ⟨last, hlast, hname⟩ := name_of_standsAt hx
    rw [checkBoundFrom]
    simp only [hlast, hname, ih, Option.bind_eq_bind, Option.bind_some, List.map_cons,
      List.find?_cons]
    cases b.binds q.name <;> rfl

theorem checkBound_eq (b : Bindings) (rule : Text) :
    checkBound b rule = some (WhereFilter.checkBound b rule) :=
  checkBoundFrom_eq b (places_standsAt Placeholder.advances_pattern Placeholder.covers_pattern rule)

end Bytewise

namespace Text

/-! One space for each run of blanks. -/

def blankRun : Pattern Char Text :=
  fun _ s => blanks? s

def oneSpaced (s : Text) : Text :=
  blankRun.replace (fun _ => [' ']) s

theorem advances_blankRun : blankRun.Advances := by
  intro back s g rest h
  refine ⟨g, ?_, blanks?_text h⟩
  simp only [blankRun, blanks?] at h
  split at h
  · cases h
  · next hg =>
    cases h
    exact hg

theorem forward_blankRun : blankRun.Forward := fun _ _ => rfl

theorem oneSpaced_run {u : Text} (hu : ∀ c ∈ u, isBlank c = false) (t : Text) :
    oneSpaced (u ++ t) = u ++ oneSpaced t := by
  induction u with
  | nil => rfl
  | cons c u ih =>
    simp only [List.mem_cons, forall_eq_or_imp] at hu
    have hnone : blankRun none (c :: (u ++ t)) = none := by simp [blankRun, blanks?, hu.1]
    rw [List.cons_append, oneSpaced,
      Pattern.replace_of_item (Pattern.segments_of_none forward_blankRun hnone)]
    exact congrArg (c :: ·) (ih hu.2)

theorem oneSpaced_blanks {g t : Text} (hg : ∀ c ∈ g, isBlank c = true) (hn : g ≠ [])
    (ht : t.head?.any isBlank = false) : oneSpaced (g ++ t) = ' ' :: oneSpaced t := by
  have hrun := run_append hg ht
  have hhit : blankRun none (g ++ t) = some (g, t) := by
    simp only [blankRun, blanks?, hrun.1, hrun.2]
  rw [oneSpaced, Pattern.replace_of_hit (Pattern.segments_of_hit forward_blankRun hn hhit)]
  rfl

theorem head?_oneSpaced {t : Text} (ht : t.head?.any isBlank = false) :
    (oneSpaced t).head? = t.head? := by
  cases t with
  | nil => rfl
  | cons c t =>
    have hc : isBlank c = false := by simpa using ht
    rw [← List.singleton_append, oneSpaced_run (by simpa using hc)]
    rfl

/-- What stands at the front, taken off before or after. -/
theorem skipBlanks_oneSpaced (s : Text) : skipBlanks (oneSpaced s) = oneSpaced (skipBlanks s) := by
  have hhead : (skipBlanks s).head?.any isBlank = false := head?_dropWhile isBlank s
  have hsplit : s.takeWhile isBlank ++ skipBlanks s = s := List.takeWhile_append_dropWhile
  generalize skipBlanks s = t at hhead hsplit ⊢
  have hstart : (oneSpaced t).head?.any isBlank = false := by rw [head?_oneSpaced hhead, hhead]
  by_cases hg : s.takeWhile isBlank = []
  · rw [hg, List.nil_append] at hsplit
    rw [← hsplit]
    exact Language.skipBlanks_append (b := []) (by simp) hstart
  · rw [← hsplit, oneSpaced_blanks holds_of_mem_takeWhile hg hhead]
    exact Language.skipBlanks_append (b := [' ']) (by simp [isBlank]) hstart

/-- The text less the blanks at its end. -/
def trimEnd (t : Text) : Text :=
  (skipBlanks t.reverse).reverse

theorem trimEnd_append {x y : Text} (hy : trimEnd y ≠ []) : trimEnd (x ++ y) = x ++ trimEnd y := by
  have hne : (y.reverse.dropWhile isBlank).isEmpty = false := by
    simpa [trimEnd, skipBlanks] using hy
  rw [trimEnd, skipBlanks, List.reverse_append, List.dropWhile_append, hne]
  simp [trimEnd, skipBlanks]

theorem trimEnd_run {u b : Text} (hu : ∀ c ∈ u, isBlank c = false) (hb : ∀ c ∈ b, isBlank c = true) :
    trimEnd (u ++ b) = u := by
  have hhead : (u.reverse).head?.any isBlank = false := by
    cases h : u.reverse with
    | nil => rfl
    | cons c r =>
      have hc : c ∈ u := by
        rw [← List.mem_reverse, h]
        simp
      simpa using hu c hc
  rw [trimEnd, List.reverse_append, skipBlanks, (run_append (by simpa using hb) hhead).2,
    List.reverse_reverse]

theorem respace_skipBlanks (s : Text) : respace (skipBlanks s) = respace s := by
  have hwords := words_of_blanks (b := s.takeWhile isBlank) holds_of_mem_takeWhile (skipBlanks s)
  rw [skipBlanks, List.takeWhile_append_dropWhile] at hwords
  rw [respace, respace, hwords]
  rfl

theorem respace_ne_nil {s : Text} (hn : skipBlanks s ≠ []) : respace s ≠ [] := by
  have hhead : (skipBlanks s).head?.any isBlank = false := head?_dropWhile isBlank s
  rw [respace, words_eq hn]
  obtain ⟨c, r, hr⟩ := List.exists_cons_of_ne_nil hn
  have hc : isBlank c = false := by simpa [hr] using hhead
  rw [hr, List.takeWhile_cons_of_pos (by simp [hc])]
  cases words ((c :: r).dropWhile fun c => !isBlank c) <;> simp [List.intercalate]

/-- The first word of a text, the blanks behind it and the other words. -/
theorem exists_word {s : Text} (hs : s.head?.any isBlank = false) (hn : s ≠ []) :
    ∃ u g t, s = u ++ (g ++ t) ∧ (∀ c ∈ u, isBlank c = false) ∧ u ≠ [] ∧
      (∀ c ∈ g, isBlank c = true) ∧ (∀ c, (g ++ t).head? = some c → isBlank c = true) ∧
      t.head?.any isBlank = false := by
  obtain ⟨c, r, rfl⟩ := List.exists_cons_of_ne_nil hn
  have hc : isBlank c = false := by simpa using hs
  have hword : (c :: r).takeWhile (fun c => !isBlank c) ≠ [] := by simp [hc]
  have hend := head?_dropWhile (fun c => !isBlank c) (c :: r)
  have hsplit := List.takeWhile_append_dropWhile (p := fun c => !isBlank c) (l := c :: r)
  generalize (c :: r).dropWhile (fun c => !isBlank c) = rest at hend hsplit
  have hbehind : rest.takeWhile isBlank ++ skipBlanks rest = rest :=
    List.takeWhile_append_dropWhile
  refine ⟨_, rest.takeWhile isBlank, skipBlanks rest, by rw [hbehind, hsplit],
    fun a ha => by simpa using holds_of_mem_takeWhile a ha, hword, holds_of_mem_takeWhile,
    fun a ha => ?_, head?_dropWhile isBlank rest⟩
  rw [hbehind] at ha
  rw [ha] at hend
  simpa using hend

theorem isBlank_of_mem_oneSpaced {g : Text} (hg : ∀ c ∈ g, isBlank c = true) :
    ∀ c ∈ oneSpaced g, isBlank c = true := by
  have hnil : oneSpaced [] = [] := rfl
  cases g with
  | nil => simp [hnil]
  | cons c g =>
    have h := oneSpaced_blanks hg (by simp) (t := []) rfl
    rw [List.append_nil, hnil] at h
    simp [h, isBlank]

theorem trimEnd_oneSpaced {s : Text} (hs : s.head?.any isBlank = false) :
    trimEnd (oneSpaced s) = respace s := by
  induction hlen : s.length using Nat.strongRecOn generalizing s with
  | ind n ih =>
  subst hlen
  by_cases hn : s = []
  · rw [hn]
    rfl
  obtain ⟨u, g, t, rfl, hu, hne, hg, hhead, ht⟩ := exists_word hs hn
  rw [oneSpaced_run hu, respace_of_run hu hne hhead, words_of_blanks hg]
  by_cases hlast : t = []
  · -- the blanks behind the last word go
    have hwords : words [] = [] := rfl
    rw [hlast, List.append_nil, hwords, if_pos rfl, List.append_nil]
    exact trimEnd_run hu (isBlank_of_mem_oneSpaced hg)
  · have hgap : g ≠ [] := by
      rintro rfl
      obtain ⟨a, t, rfl⟩ := List.exists_cons_of_ne_nil hlast
      simp [hhead a rfl] at ht
    have hstart : skipBlanks t = t := Language.skipBlanks_append (b := []) (by simp) ht
    have hskip : skipBlanks t ≠ [] := by rwa [hstart]
    have hwords : words t ≠ [] := by
      rw [words_eq hskip]
      simp
    have hrespace : respace (g ++ t) = respace t := by rw [respace, respace, words_of_blanks hg]
    have hshort : t.length < (u ++ (g ++ t)).length := by
      have := List.length_pos_iff.mpr hne
      simp only [List.length_append]
      omega
    have hrest := ih t.length hshort ht rfl
    have hend := trimEnd_append (x := u ++ [' ']) (y := oneSpaced t)
      (by rw [hrest]; exact respace_ne_nil hskip)
    rw [if_neg hwords, hrespace, oneSpaced_blanks hg hgap ht, ← hrest]
    simpa using hend

theorem trim_oneSpaced (s : Text) : trim (oneSpaced s) = respace s := by
  have hhead : (skipBlanks s).head?.any isBlank = false := head?_dropWhile isBlank s
  rw [← respace_skipBlanks, ← trimEnd_oneSpaced hhead, ← skipBlanks_oneSpaced]
  rfl

end Text

namespace Bytewise

theorem respace_eq (s : Text) : respace s = some (Text.respace s) := by
  have h := splice_eq Text.advances_blankRun (fun _ => [' ']) s
  rw [respace]
  exact (congrArg (Option.bind · _) h).trans (congrArg some (Text.trim_oneSpaced s))

/-- What a pass does by offsets is what it does to the text. -/
def Agrees (b : Bindings) (run : Bindings → Text → Option (Except Refusal Text)) (p : Pass) : Prop :=
  ∀ s, run b s = some (p.run b s)

theorem agrees_plain {b : Bindings} {run : Text → Option Text} {run' : Text → Text}
    (h : ∀ s, run s = some (run' s)) (name : String) : Agrees b (plain run) (.plain name run') := by
  intro s
  rw [plain, h]
  rfl

theorem agrees_scanning {b : Bindings} {run : Bindings → Text → Option (Except Unclosed Text)}
    {run' : Bindings → Text → Except Unclosed Text} (h : ∀ s, run b s = some (run' b s))
    (name : String) : Agrees b (scanning run) (.scanning name run') := by
  intro s
  rw [scanning, h]
  rfl

theorem passes_agree (b : Bindings) : List.Forall₂ (Agrees b) passes Pass.all :=
  .cons (agrees_scanning dropQualifiers_eq _) <|
  .cons (agrees_plain (splice_eq steady_coalesce.advances id) _) <|
  .cons (agrees_scanning (fillPlaceholders_eq b) _) <|
  .cons (agrees_plain (splice_eq YesNo.steady_comparison.advances _) _) <|
  .cons (agrees_scanning expandLists_eq _) <|
  .cons (agrees_scanning (respell_eq spells_unequal) _) <|
  .cons (agrees_scanning (respell_eq spells_equal) _) <|
  .cons (agrees_scanning (respell_eq spells_connective) _) <|
  .cons (agrees_plain (splice_eq YesNo.steady_operand.advances _) _) <|
  .cons foldMarkers_eq <|
  .cons (agrees_plain (splice_eq Wrapped.steady_clause.advances id) _) <|
  .cons (agrees_plain respace_eq _) .nil

theorem runAll_eq {b : Bindings} {runs : List (Bindings → Text → Option (Except Refusal Text))}
    {ps : List Pass} (h : List.Forall₂ (Agrees b) runs ps) (s : Text) :
    runAll b runs s = some (Pass.runAll b ps s) := by
  induction h generalizing s with
  | nil => rfl
  | @cons run p runs ps hp _ ih =>
    rw [runAll, hp s, Pass.runAll]
    cases p.run b s with
    | ok t => exact ih t
    | error e => rfl

theorem translate_eq (b : Bindings) (rule : Text) :
    translate b rule = some (WhereFilter.translate b rule) := by
  rw [translate, checkSupported_eq, WhereFilter.translate]
  cases WhereFilter.checkSupported rule with
  | error e => rfl
  | ok =>
    simp only [Option.bind_eq_bind, Option.bind_some, checkBound_eq]
    cases WhereFilter.checkBound b rule with
    | error e => rfl
    | ok =>
      simp only [Option.bind_some, runAll_eq (passes_agree b)]
      cases Pass.runAll b Pass.all rule with
      | error e => rfl
      | ok filter => cases hf : filter.isEmpty <;> simp [hf, bind, Except.bind]

/-- No access is out of range, no slice cuts a character, no count goes below zero and no loop runs
on for ever, in any text and with any bindings: there is an answer each time, and it is that of the
pass, the check or the translation. -/
theorem in_range (b : Bindings) :
    List.Forall₂ (fun run p => ∀ s, run b s = some (p.run b s)) passes Pass.all ∧
    (∀ s, checkSupported s = some (WhereFilter.checkSupported s)) ∧
    (∀ s, checkBound b s = some (WhereFilter.checkBound b s)) ∧
    ∀ s, translate b s = some (WhereFilter.translate b s) :=
  ⟨passes_agree b, checkSupported_eq, checkBound_eq b, translate_eq b⟩

end Bytewise

end WhereFilter
