import WhereFilter.Proofs.Layout.Lexemes
import WhereFilter.Proofs.Reading.Printed
import WhereFilter.Rule.Verdict

namespace WhereFilter

theorem Lexeme.unread_squash : Lexeme.Unread Lexeme.squash where
  is _ _ := rfl
  isWord l w hw := by
    have hall : ["or".toList, "and".toList, "eq".toList].all
        (fun w => !w.any Token.isGapChar) = true := rfl
    have hsolid := List.all_eq_true.mp hall w hw
    exact l.isWord_squash (by simpa using hsolid)
  digit l c hc := by
    have hall : ['0', '1'].all (fun c => !Token.isGapChar c) = true := rfl
    have hsolid := List.all_eq_true.mp hall c hc
    have h := Text.map_squash_eq (f := id) (fun _ => rfl) (w := [c]) (by simpa using hsolid)
      l.token.text
    rw [List.map_id, List.map_id, List.map_id] at h
    rw [← Bool.coe_iff_coe, beq_iff_eq, beq_iff_eq]
    exact h

theorem hasMarker_map {f : Lexeme → Lexeme} (hf : Lexeme.Unread f) (ls : List Lexeme) :
    hasMarker (ls.map f) = hasMarker ls := by
  induction ls with
  | nil => rfl
  | cons l ls ih =>
    have h := marker?_map hf ((l :: ls).take 3)
    rw [List.map_take, List.map_cons] at h
    rw [List.map_cons, hasMarker, hasMarker, h, ih]

namespace Verdict

/-- Verdicts that differ in the gaps of their filters alone. -/
inductive Spaced : Verdict → Verdict → Prop
  | always : Spaced .always .always
  | never : Spaced .never .never
  | filter {s t : Text} (compound : Bool) (h : Text.Spaced s t) :
      Spaced (.filter s compound) (.filter t compound)

namespace Spaced

variable {v v' w w' : Verdict}

theorem refl (v : Verdict) : Spaced v v := by
  cases v with
  | always => exact .always
  | never => exact .never
  | filter s compound => exact .filter compound (.refl s)

theorem either (h : Spaced v v') (h' : Spaced w w') : Spaced (v.either w) (v'.either w') := by
  cases h with
  | always => exact .always
  | never => cases h' <;> first | exact .always | exact .never | exact .filter _ ‹_›
  | filter _ hs =>
    cases h' with
    | always => exact .always
    | never => exact .filter _ hs
    | filter _ ht => exact .filter true ((hs.append (.refl _)).append ht)

theorem both (h : Spaced v v') (h' : Spaced w w') : Spaced (v.both w) (v'.both w') := by
  cases h with
  | never => exact .never
  | always => cases h' <;> first | exact .always | exact .never | exact .filter _ ‹_›
  | filter _ hs =>
    cases h' with
    | never => exact .never
    | always => exact .filter _ hs
    | filter _ ht => exact .filter true ((hs.append (.refl _)).append ht)

theorem group (h : Spaced v v') : Spaced v.group v'.group := by
  cases h with
  | always => exact .always
  | never => exact .never
  | filter compound hs =>
    cases compound with
    | false => exact .filter false hs
    | true => exact .filter false ((hs.append (.refl [')'])).cons '(')

end Spaced

end Verdict

namespace Reading

theorem spaced_verdict_map (r : Reading) : (r.map Lexeme.squash).verdict.Spaced r.verdict := by
  induction r with
  | atom ls => exact .filter false (spaced_slice ls)
  | marker holds =>
    cases holds with
    | true => exact .always
    | false => exact .never
  | group r ih => exact ih.group
  | either l r ihl ihr => exact ihl.either ihr
  | both l r ihl ihr => exact ihl.both ihr

end Reading

/-- A space before the first of some lexemes. -/
def indentFirst : List Lexeme → List Lexeme
  | [] => []
  | l :: ls => l.indent :: ls

theorem marker?_indent (l : Lexeme) (ls : List Lexeme) :
    marker? (l.indent :: ls) = marker? (l :: ls) := by
  rcases ls with _ | ⟨a, _ | ⟨b, _ | ⟨c, ls⟩⟩⟩ <;> rfl

theorem hasMarker_indentFirst (ls : List Lexeme) : hasMarker (indentFirst ls) = hasMarker ls := by
  cases ls with
  | nil => rfl
  | cons l ls =>
    have h := marker?_indent l (ls.take 2)
    simp only [indentFirst, hasMarker, List.take_succ_cons, h]

theorem parts_indentFirst (w : Text) (d : Nat) (ls : List Lexeme) :
    parts w d (indentFirst ls) = (parts w d ls).modifyHead indentFirst := by
  have hfirst (l : Lexeme) (ps : List (List Lexeme)) :
      consFirst l.indent ps = (consFirst l ps).modifyHead indentFirst := by
    cases ps <;> rfl
  cases ls with
  | nil => rfl
  | cons l ls =>
    have his (k : Kind) : l.indent.is k = l.is k := rfl
    have hword : l.indent.isWord w = l.isWord w := rfl
    simp only [indentFirst, parts, his, hword]
    split
    · exact hfirst l _
    · split
      · exact hfirst l _
      · split
        · rfl
        · exact hfirst l _

namespace Reading

theorem verdict_chain {join : Reading → Reading → Reading} (joined : Verdict → Verdict → Verdict)
    (hj : ∀ l r, (join l r).verdict = joined l.verdict r.verdict) {rs rs' : List Reading}
    (h : rs.map verdict = rs'.map verdict) :
    (chain join rs).verdict = (chain join rs').verdict := by
  induction rs generalizing rs' with
  | nil =>
    have hrs' : rs' = [] := by simpa using h.symm
    rw [hrs']
  | cons r rs ih =>
    cases rs' with
    | nil => cases h
    | cons r' rs' =>
      obtain ⟨hr, hrs⟩ := List.cons.inj h
      have hlen : rs.length = rs'.length := by simpa using congrArg List.length hrs
      cases rs with
      | nil =>
        rw [List.length_eq_zero_iff.mp hlen.symm]
        exact hr
      | cons s rs =>
        cases rs' with
        | nil => cases hlen
        | cons s' rs' =>
          rw [chain_cons join r (List.cons_ne_nil s rs),
            chain_cons join r' (List.cons_ne_nil s' rs'), hj, hj, hr, ih hrs]

theorem verdict_ofPiece_indentFirst (piece : List Lexeme) :
    (ofPiece (indentFirst piece)).verdict = (ofPiece piece).verdict := by
  cases piece with
  | nil => rfl
  | cons l ls =>
    have hinside : inside? (l.indent :: ls) = inside? (l :: ls) := rfl
    simp only [indentFirst, ofPiece, hinside, marker?_indent]
    cases inside? (l :: ls) with
    | some inner => rfl
    | none => cases marker? (l :: ls) <;> rfl

theorem verdict_ofPart_indentFirst (part : List Lexeme) :
    (ofPart (indentFirst part)).verdict = (ofPart part).verdict := by
  unfold ofPart
  refine verdict_chain Verdict.both (fun _ _ => rfl) ?_
  rw [parts_indentFirst]
  cases parts "and".toList 0 part with
  | nil => rfl
  | cons p ps => simp [verdict_ofPiece_indentFirst]

theorem verdict_ofLexemes_indentFirst (ls : List Lexeme) :
    (ofLexemes (indentFirst ls)).verdict = (ofLexemes ls).verdict := by
  rw [ofLexemes_eq, ofLexemes_eq]
  refine verdict_chain Verdict.either (fun _ _ => rfl) ?_
  rw [parts_indentFirst]
  cases parts "or".toList 0 ls with
  | nil => rfl
  | cons p ps => simp [verdict_ofPart_indentFirst]

end Reading

end WhereFilter
