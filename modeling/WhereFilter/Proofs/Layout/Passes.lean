import WhereFilter.Proofs.Language.Spacing
import WhereFilter.Proofs.Layout.Stretches
import WhereFilter.Proofs.Layout.Verdicts
import WhereFilter.Rule.Translate

namespace WhereFilter

open Text

namespace Text

/-- The texts are the same but for gaps, those at their ends included. -/
def Loose (u v : Text) : Prop :=
  Spaced (frame u) (frame v)

namespace Loose

theorem refl (u : Text) : Loose u u := Spaced.refl _

theorem symm {u v : Text} (h : Loose u v) : Loose v u := Spaced.symm h

theorem trans {u v w : Text} (h : Loose u v) (h' : Loose v w) : Loose u w := Spaced.trans h h'

theorem of_spaced {u v : Text} (h : Spaced u v) : Loose u v :=
  (h.append (.refl [' '])).cons ' '

theorem pad (u : Text) : Loose u.pad u := by
  have hgap : Spaced [' ', ' '] [' '] := rfl
  have h := (Spaced.refl u).append hgap
  rw [← List.singleton_append, ← List.append_assoc] at h
  exact h.cons ' '

theorem indent (u : Text) : Loose (' ' :: u) u := by
  have hgap : Spaced [' ', ' '] [' '] := rfl
  exact hgap.append (Spaced.refl u.pad)

end Loose

end Text

/-- Refusals of the same kind, and for the same name where one is given. -/
inductive Refusal.Alike : Refusal → Refusal → Prop
  | unsupported (p q : Text) : Alike (.unsupported p) (.unsupported q)
  | unbound (name : Text) : Alike (.unbound name) (.unbound name)
  | vacuous : Alike .vacuous .vacuous
  | malformed (e f : Unclosed) : Alike (.malformed e) (.malformed f)

/-- Outcomes that are alike: both with a result, which `R` relates, or both refused alike. -/
inductive Outcomes (R : α → α → Prop) : Except Refusal α → Except Refusal α → Prop
  | ok {a b : α} (h : R a b) : Outcomes R (.ok a) (.ok b)
  | error {e f : Refusal} (h : e.Alike f) : Outcomes R (.error e) (.error f)

theorem Refusal.Alike.refl (e : Refusal) : e.Alike e := by
  cases e <;> constructor

theorem Refusal.Alike.symm {e f : Refusal} (h : e.Alike f) : f.Alike e := by
  cases h <;> constructor

theorem Refusal.Alike.trans {e f g : Refusal} (h : e.Alike f) (h' : f.Alike g) : e.Alike g := by
  cases h <;> cases h' <;> constructor

namespace Outcomes

variable {R : α → α → Prop} {x y z : Except Refusal α}

theorem refl (hR : ∀ a, R a a) (x : Except Refusal α) : Outcomes R x x := by
  cases x with
  | ok a => exact .ok (hR a)
  | error e => exact .error (.refl e)

theorem symm (hR : ∀ {a b}, R a b → R b a) (h : Outcomes R x y) : Outcomes R y x := by
  cases h with
  | ok h => exact .ok (hR h)
  | error h => exact .error h.symm

theorem trans (hR : ∀ {a b c}, R a b → R b c → R a c) (h : Outcomes R x y)
    (h' : Outcomes R y z) : Outcomes R x z := by
  cases h with
  | ok h =>
    cases h' with
    | ok h' => exact .ok (hR h h')
  | error h =>
    cases h' with
    | error h' => exact .error (h.trans h')

end Outcomes

/-- Loose texts have loose outcomes. -/
def Respects (run : Text → Except Refusal Text) : Prop :=
  ∀ u v, Loose u v → Outcomes Loose (run u) (run v)

/-- Each way in which loose texts differ is looked at by itself. -/
theorem respects_of_moves {run : Text → Except Refusal Text}
    (hsquash : ∀ s, Outcomes Loose (run s.squash) (run s))
    (hpad : ∀ s, Outcomes Loose (run s.pad) (run s))
    (hindent : ∀ s, Outcomes Loose (run (' ' :: s)) (run s)) : Respects run := by
  have hframe (s : Text) : Outcomes Loose (run (frame s).squash) (run s) :=
    ((hsquash _).trans .trans (hindent _)).trans .trans (hpad s)
  intro u v h
  have hv := hframe v
  rw [← show (frame u).squash = (frame v).squash from h] at hv
  exact ((hframe u).symm .symm).trans .trans hv

/-- A step over text that no gap keeps from being the same step. -/
theorem respects_replace {p : Pattern Char β} {f : β → β} (hp : p.Steady f) {hit : β → Text}
    (hhit : ∀ b, Spaced (hit (f b)) (hit b)) : Respects fun s => .ok (p.replace hit s) := by
  refine respects_of_moves (fun s => ?_) (fun s => ?_) (fun s => ?_)
  · exact .ok (.of_spaced (hp.replace_squash hhit s))
  · rw [hp.replace_pad]
    exact .ok (.pad _)
  · rw [hp.replace_indent]
    exact .ok (.indent _)

/-- A step over tokens. -/
theorem respects_scanning {F : Scan → Text}
    (hsquash : ∀ s found, scan s = .ok found → Spaced (F found.squash) (F found))
    (hpad : ∀ found, F found.pad = (F found).pad)
    (hindent : ∀ found, F found.indent = ' ' :: F found) :
    Respects fun s => ((scan s).map F).mapError .malformed := by
  have hmove {s s' : Text} {G : Scan → Scan}
      (hscan : (scan s').toOption = (scan s).toOption.map G)
      (hF : ∀ found, scan s = .ok found → Loose (F (G found)) (F found)) :
      Outcomes Loose (((scan s').map F).mapError .malformed)
        (((scan s).map F).mapError .malformed) := by
    cases hs : scan s with
    | error e =>
      rw [hs] at hscan
      cases hs' : scan s' with
      | error e' => exact .error (.malformed e' e)
      | ok found' => rw [hs'] at hscan; cases hscan
    | ok found =>
      rw [hs] at hscan
      cases hs' : scan s' with
      | error e' => rw [hs'] at hscan; cases hscan
      | ok found' =>
        rw [hs'] at hscan
        cases hscan
        exact .ok (hF found hs)
  refine respects_of_moves (fun s => ?_) (fun s => ?_) (fun s => ?_)
  · exact hmove (scan_squash s) fun found h => .of_spaced (hsquash s found h)
  · refine hmove (scan_pad s) fun found _ => ?_
    rw [hpad]
    exact .pad _
  · refine hmove (scan_indent s) fun found _ => ?_
    rw [hindent]
    exact .indent _

theorem respects_dropQualifiers : Respects fun s => (dropQualifiers s).mapError .malformed := by
  refine respects_scanning (fun s found _ => ?_) (fun found => ?_) (fun found => ?_)
  · rw [text_dropQualifiers, text_dropQualifiers]
    exact (spaced_render_qualified found.lexemes).append (.squash found.tail)
  · rw [text_dropQualifiers, text_dropQualifiers, pad_append]
    rfl
  · rw [text_dropQualifiers, text_dropQualifiers]
    obtain ⟨ls, tail⟩ := found
    cases ls with
    | nil => rfl
    | cons l ls =>
      simp only [Scan.indent, render_qualified_indent]
      rfl

theorem respects_expandLists : Respects fun s => (expandLists s).mapError .malformed := by
  refine respects_scanning (fun s found _ => ?_) (fun found => ?_) (fun found => ?_)
  · exact (Membership.spaced_render found.lexemes).append (.squash found.tail)
  · exact (pad_append _ _).symm
  · obtain ⟨ls, tail⟩ := found
    cases ls with
    | nil => rfl
    | cons l ls =>
      simp only [Scan.indent, Membership.render_indent]
      rfl

theorem respects_respell {spelling : Token → Option Text}
    (h : ∀ t, spelling t.squash = spelling t) :
    Respects fun s => (respell spelling s).mapError .malformed := by
  refine respects_scanning (fun s found _ => ?_) (fun found => ?_) (fun found => ?_)
  · refine Spaced.append ?_ (.squash found.tail)
    rw [Scan.squash, List.flatMap_map]
    refine spaced_flatMap (fun l => (Spaced.squash l.gap).append ?_) found.lexemes
    have hl : spelling l.squash.token = spelling l.token := h l.token
    rw [hl]
    cases spelling l.token with
    | none => exact .squash l.token.text
    | some w => exact .refl w
  · exact (pad_append _ _).symm
  · obtain ⟨ls, tail⟩ := found
    cases ls <;> rfl

theorem respects_fillPlaceholders (b : Bindings) :
    Respects fun s => (fillPlaceholders b s).mapError .malformed := by
  refine respects_scanning (fun s found h => ?_) (fun found => ?_) (fun found => ?_)
  · exact Stretches.spaced_fill b
      (Stretches.spaced_ofLexemes (scan_eq_ok_iff.mp h).2.1 found.tail)
  · simp only [Scan.pad, Stretches.ofLexemes_pad, Stretches.fill_padded]
  · rw [Stretches.ofLexemes_indent, Stretches.fill_indent]

/-- Markers are folded alike where the lexemes are read alike. -/
theorem foldMarkers_alike {s s' : Text} {G : Scan → Scan} (hloose : Loose s' s)
    (hscan : (scan s').toOption = (scan s).toOption.map G)
    (hmarker : ∀ found, hasMarker (G found).lexemes = hasMarker found.lexemes)
    (hverdict : ∀ found, (Reading.ofLexemes (G found).lexemes).verdict.Spaced
      (Reading.ofLexemes found.lexemes).verdict) :
    Outcomes Loose (foldMarkers s') (foldMarkers s) := by
  unfold foldMarkers
  cases hs : scan s with
  | error e =>
    rw [hs] at hscan
    cases hs' : scan s' with
    | error e' => exact .error (.malformed e' e)
    | ok found' => rw [hs'] at hscan; cases hscan
  | ok found =>
    rw [hs] at hscan
    cases hs' : scan s' with
    | error e' => rw [hs'] at hscan; cases hscan
    | ok found' =>
      rw [hs'] at hscan
      cases hscan
      simp only [hmarker]
      split
      · have h := hverdict found
        generalize (Reading.ofLexemes (G found).lexemes).verdict = v' at h ⊢
        generalize (Reading.ofLexemes found.lexemes).verdict = v at h ⊢
        cases h with
        | always => exact .ok (.refl _)
        | never => exact .error .vacuous
        | filter _ h => exact .ok (.of_spaced h)
      · exact .ok hloose

theorem respects_foldMarkers : Respects foldMarkers := by
  refine respects_of_moves (fun s => ?_) (fun s => ?_) (fun s => ?_)
  · refine foldMarkers_alike (.of_spaced (.squash s)) (scan_squash s) (fun found => ?_)
      fun found => ?_
    · exact hasMarker_map Lexeme.unread_squash found.lexemes
    · have h := Reading.spaced_verdict_map (Reading.ofLexemes found.lexemes)
      rwa [← Reading.ofLexemes_map Lexeme.unread_squash] at h
  · exact foldMarkers_alike (.pad s) (scan_pad s) (fun _ => rfl) fun found => .refl _
  · have hindent (found : Scan) : found.indent.lexemes = indentFirst found.lexemes := by
      obtain ⟨ls, tail⟩ := found
      cases ls <;> rfl
    refine foldMarkers_alike (.indent s) (scan_indent s) (fun found => ?_) fun found => ?_
    · rw [hindent, hasMarker_indentFirst]
    · rw [hindent, Reading.verdict_ofLexemes_indentFirst]
      exact .refl _

end WhereFilter
