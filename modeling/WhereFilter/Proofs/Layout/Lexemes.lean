import Mathlib.Data.List.Forall2
import Mathlib.Data.Option.Defs
import WhereFilter.Proofs.Layout.Patterns
import WhereFilter.Proofs.Layout.Tokens
import WhereFilter.Rule.Membership
import WhereFilter.Rule.Operator

namespace WhereFilter

open Text

namespace Text

theorem isGapChar_toLower (c : Char) : Token.isGapChar c.toLower = Token.isGapChar c := by
  have hletter {a : Char} (ha : a.isAlpha = true) : Token.isGapChar a = false := by
    by_contra hgap
    have hnone : a.isAlpha = false := of_isGapChar Char.isAlpha rfl (by simpa using hgap)
    rw [hnone] at ha
    cases ha
  cases hupper : c.isUpper with
  | false => rw [Char.toLower_eq_of_not_isUpper (by simp [hupper])]
  | true =>
    have halpha : c.isAlpha = true := by simp [Char.isAlpha, hupper]
    rw [hletter halpha, hletter (by rw [Char.isAlpha_toLower_eq_isAlpha, halpha])]

/-- What a text without gaps is compared with may be squashed. -/
theorem map_squash_eq {f : Char → Char} (hf : ∀ c, Token.isGapChar (f c) = Token.isGapChar c)
    {w : Text} (hw : ∀ c ∈ w, Token.isGapChar c = false) (s : Text) :
    s.squash.map f = w.map f ↔ s.map f = w.map f := by
  have hgap {c : Char} (hc : Token.isGapChar c = true) {w : Text}
      (hw : ∀ c ∈ w, Token.isGapChar c = false) (t : Text) : (c :: t).map f ≠ w.map f := by
    intro he
    have hm : f c ∈ w.map f := by rw [← he]; simp
    obtain ⟨d, hd, hdc⟩ := List.mem_map.mp hm
    have hsolid := hw d hd
    rw [← hf, hdc, hf, hc] at hsolid
    cases hsolid
  induction s generalizing w with
  | nil => rfl
  | cons c s ih =>
    cases hc : Token.isGapChar c with
    | true =>
      rw [squash_gap hc]
      exact iff_of_false (hgap rfl hw _) (hgap hc hw _)
    | false =>
      rw [squash_solid hc]
      cases w with
      | nil => simp
      | cons d w =>
        simp only [List.mem_cons, forall_eq_or_imp] at hw
        simp only [List.map_cons, List.cons.injEq]
        exact and_congr_right fun _ => ih hw.2

end Text

namespace Lexeme

@[simp] theorem is_squash (l : Lexeme) (k : Kind) : l.squash.is k = l.is k := rfl

theorem isWord_squash {w : Text} (hw : w.any Token.isGapChar = false) (l : Lexeme) :
    l.squash.isWord w = l.isWord w := by
  have h := Text.map_squash_eq isGapChar_toLower (solid_of_any hw) l.token.text
  rw [← Bool.coe_iff_coe]
  simp only [isWord, Token.isWord, squash, Token.squash, lower, Bool.and_eq_true, beq_iff_eq, h]

@[simp] theorem gap_isEmpty_squash (l : Lexeme) : l.squash.gap.isEmpty = l.gap.isEmpty := by
  obtain ⟨gap, t⟩ := l
  cases gap with
  | nil => rfl
  | cons c gap =>
    cases hc : Token.isGapChar c with
    | true => simp [squash, squash_gap hc]
    | false => simp [squash, squash_solid hc]

theorem spaced_text (l : Lexeme) : Spaced l.squash.text l.text :=
  (Spaced.squash l.gap).append (Spaced.squash l.token.text)

end Lexeme

theorem spaced_flatMap {α : Type} {f g : α → Text} (h : ∀ a, Spaced (f a) (g a)) (l : List α) :
    Spaced (l.flatMap f) (l.flatMap g) := by
  induction l with
  | nil => rfl
  | cons a l ih => exact (h a).append ih

theorem spaced_slice (ls : List Lexeme) : Spaced (slice (ls.map Lexeme.squash)) (slice ls) := by
  cases ls with
  | nil => rfl
  | cons l ls =>
    refine (Spaced.squash l.token.text).append ?_
    rw [List.flatMap_map]
    exact spaced_flatMap Lexeme.spaced_text ls

theorem spaced_intercalate (joint : Text) {us vs : List Text} (h : List.Forall₂ Spaced us vs) :
    Spaced (joint.intercalate us) (joint.intercalate vs) := by
  induction h with
  | nil => rfl
  | cons huv h ih =>
    cases h with
    | nil => simpa [List.intercalate] using huv
    | cons _ _ =>
      simp only [List.intercalate, List.intersperse, List.flatten_cons] at ih ⊢
      exact huv.append ((Spaced.refl joint).append ih)

namespace Pattern

variable {p : Pattern Lexeme β} {item : Lexeme → Text} {hit : β → Text}

theorem render_of_item {a : Lexeme} {l r : List Lexeme}
    (h : segments p l = .item a :: segments p r) :
    render p item hit l = item a ++ render p item hit r := by
  simp [render, h]

theorem render_of_hit {b : β} {l r : List Lexeme}
    (h : segments p l = .hit b :: segments p r) :
    render p item hit l = hit b ++ render p item hit r := by
  simp [render, h]

/-- What is written for squashed lexemes, where hits are found in the same places. -/
theorem spaced_render (hf : p.Forward) (ha : p.Advances)
    (hitem : ∀ l, Spaced (item l.squash) (item l))
    (hhit : ∀ ls, Option.Rel (fun x y => Spaced (hit x.1) (hit y.1) ∧ x.2 = y.2.map Lexeme.squash)
      (p none (ls.map Lexeme.squash)) (p none ls)) (ls : List Lexeme) :
    Spaced (p.render item hit (ls.map Lexeme.squash)) (p.render item hit ls) := by
  induction hn : ls.length using Nat.strongRecOn generalizing ls with
  | ind n ih =>
    subst hn
    have hrel := hhit ls
    rcases segments_cases hf ha ls with rfl | ⟨l, r, rfl, hnone, hs⟩ |
      ⟨b, front, rest, hn, rfl, hsome, hs⟩
    · rfl
    · rw [hnone] at hrel
      cases h : p none ((l :: r).map Lexeme.squash) with
      | some found => rw [h] at hrel; cases hrel
      | none =>
        rw [List.map_cons] at h
        rw [List.map_cons, render_of_item (segments_of_none hf h), render_of_item hs]
        exact (hitem l).append (ih r.length (by simp) r rfl)
    · rw [hsome] at hrel
      cases h : p none ((front ++ rest).map Lexeme.squash) with
      | none => rw [h] at hrel; cases hrel
      | some found =>
        rw [h] at hrel
        cases hrel with
        | some hfound =>
          obtain ⟨b', rest'⟩ := found
          obtain ⟨hb, rfl⟩ := hfound
          rw [List.map_append] at h
          have hn' : front.map Lexeme.squash ≠ [] := by simpa using hn
          have hlen := List.length_pos_iff.mpr hn
          rw [List.map_append, render_of_hit (segments_of_hit hf hn' h), render_of_hit hs]
          exact hb.append (ih rest.length (by simp; omega) rest rfl)

/-- A space before the first lexeme is written before all else. -/
theorem render_indent (hf : p.Forward) (ha : p.Advances) {g : β → β}
    (hitem : ∀ l, item l.indent = ' ' :: item l) (hhit : ∀ b, hit (g b) = ' ' :: hit b)
    {l : Lexeme} {ls : List Lexeme}
    (h : p none (l.indent :: ls) = (p none (l :: ls)).map (Prod.map g id)) :
    p.render item hit (l.indent :: ls) = ' ' :: p.render item hit (l :: ls) := by
  cases hp : p none (l :: ls) with
  | none =>
    rw [hp] at h
    rw [render_of_item (segments_of_none hf hp), render_of_item (segments_of_none hf h), hitem]
    rfl
  | some found =>
    obtain ⟨b, rest⟩ := found
    have h' : p none (l.indent :: ls) = some (g b, rest) := by
      rw [h, hp]
      rfl
    obtain ⟨front, hn, he⟩ := ha _ _ _ _ hp
    obtain ⟨front', hn', he'⟩ := ha _ _ _ _ h'
    rw [he] at hp ⊢
    rw [he'] at h' ⊢
    rw [render_of_hit (segments_of_hit hf hn hp), render_of_hit (segments_of_hit hf hn' h'), hhit]
    rfl

end Pattern

theorem squash_reverse (s : Text) : squash s.reverse = (squash s).reverse := by
  induction s using squash_induction with
  | nil => rfl
  | solid c s hc ih =>
    rw [List.reverse_cons, squash_append_solid hc, ih, squash_solid hc, List.reverse_cons]
    rfl
  | gap g s hg hn hs ih =>
    have hrun : squash g.reverse = [' '] := by
      have h := squash_run (s := []) (g := g.reverse) (fun c hc => hg c (by simpa using hc))
        (by simpa using hn) rfl
      simpa using h
    rw [List.reverse_append, squash_run hg hn hs, List.reverse_cons, ← ih]
    cases s with
    | nil => simpa using hrun
    | cons c s =>
      have hc : Token.isGapChar c = false := by simpa using hs
      rw [List.reverse_cons, List.append_assoc, List.singleton_append, squash_append_solid hc,
        squash_append_solid hc, hrun]
      simp

theorem squash_trim (s : Text) : squash (trim s) = trim (squash s) := by
  rw [trim, trim, skipBlanks_squash, ← squash_reverse, skipBlanks_squash, squash_reverse]

theorem spaced_trim {u v : Text} (h : Spaced u v) : Spaced (trim u) (trim v) := by
  rw [Spaced, squash_trim, squash_trim, h]

/-! ### Qualified names -/

theorem qualified_squash (ls : List Lexeme) :
    qualified none (ls.map Lexeme.squash) =
      (qualified none ls).map (Prod.map Lexeme.squash (List.map Lexeme.squash)) := by
  cases ls with
  | nil => rfl
  | cons table ls =>
    cases ls with
    | nil => rfl
    | cons dot ls =>
      cases ls with
      | nil => rfl
      | cons column rest =>
        simp only [qualified, List.map_cons, Lexeme.is_squash, Lexeme.gap_isEmpty_squash]
        split <;> rfl

theorem text_dropQualifiers (found : Scan) :
    ({ found with lexemes := qualified.replace (fun column => [column]) found.lexemes } : Scan).text =
      qualified.render Lexeme.text Lexeme.text found.lexemes ++ found.tail := by
  rw [Scan.text]
  congr 1
  rw [Pattern.replace, Pattern.render, Pattern.render]
  induction qualified.segments found.lexemes with
  | nil => rfl
  | cons x xs ih => cases x <;> simp [ih]

theorem spaced_render_qualified (ls : List Lexeme) :
    Spaced (qualified.render Lexeme.text Lexeme.text (ls.map Lexeme.squash))
      (qualified.render Lexeme.text Lexeme.text ls) := by
  refine Pattern.spaced_render forward_qualified advances_qualified Lexeme.spaced_text
    (fun ls => ?_) ls
  rw [qualified_squash]
  cases qualified none ls with
  | none => exact .none
  | some found => exact .some ⟨found.1.spaced_text, rfl⟩

theorem render_qualified_indent (l : Lexeme) (ls : List Lexeme) :
    qualified.render Lexeme.text Lexeme.text (l.indent :: ls) =
      ' ' :: qualified.render Lexeme.text Lexeme.text (l :: ls) := by
  refine Pattern.render_indent (g := Lexeme.indent) forward_qualified advances_qualified
    (fun l => rfl) (fun l => rfl) ?_
  cases ls with
  | nil => rfl
  | cons dot ls =>
    cases ls with
    | nil => rfl
    | cons column rest =>
      have hword : l.indent.is .word = l.is .word := rfl
      simp only [qualified, hword]
      split <;> rfl

/-! ### Lists -/

theorem cut_map {α β : Type} (f : α → β) (p : β → Bool) (l : List α) :
    cut p (l.map f) = (cut (fun a => p (f a)) l).map (List.map f) := by
  induction l with
  | nil => rfl
  | cons a l ih =>
    rw [List.map_cons, cut, cut, ih]
    split
    · rfl
    · cases cut (fun a => p (f a)) l <;> rfl

theorem items?_squash (ls : List Lexeme) :
    Option.Rel (fun x y => List.Forall₂ Spaced x.1 y.1 ∧ x.2 = y.2.map Lexeme.squash)
      (Membership.items? (ls.map Lexeme.squash)) (Membership.items? ls) := by
  simp only [Membership.items?, List.dropWhile_map, List.takeWhile_map, Function.comp_def,
    Lexeme.is_squash]
  cases hrest : ls.dropWhile fun l => !(l.is .parenLeft || l.is .parenRight) with
  | nil => exact .none
  | cons close rest =>
    simp only [List.map_cons, Lexeme.is_squash, cut_map, List.all_map, Function.comp_def,
      List.isEmpty_map]
    split
    · refine .some ⟨?_, rfl⟩
      rw [List.map_map, List.forall₂_map_left_iff, List.forall₂_map_right_iff, List.forall₂_same]
      exact fun item _ => spaced_trim (spaced_slice item)
    · exact .none

namespace Membership

/-- Reads the rest of a list, behind the column and the word that negates it. -/
def behind? (column : Lexeme) (negated : Bool) (ls : List Lexeme) :
    Option (Membership × List Lexeme) :=
  match ls with
  | word :: open_ :: ls =>
    if word.isWord "IN".toList && open_.is .parenLeft then
      (items? ls).map fun found => (⟨column.gap, column.token.text, negated, found.1⟩, found.2)
    else none
  | _ => none

theorem pattern_cons (back : Option Lexeme) (column : Lexeme) (ls : List Lexeme) :
    pattern back (column :: ls) =
      if !column.is .word || column.isWord "NOT".toList then none
      else if ls.head?.any (·.isWord "NOT".toList) then behind? column true ls.tail
      else behind? column false ls := by
  cases ls with
  | nil => rfl
  | cons l ls =>
    rw [pattern]
    split
    · rfl
    · cases hnot : l.isWord "NOT".toList with
      | true =>
        simp only [List.head?_cons, Option.any_some, hnot, if_true, List.tail_cons]
        rfl
      | false =>
        simp only [List.head?_cons, Option.any_some, hnot, Bool.false_eq_true, if_false]
        rfl

theorem forward_pattern : pattern.Forward := fun _ _ => rfl

theorem items?_suffix {ls rest : List Lexeme} {items : List Text}
    (h : items? ls = some (items, rest)) : rest <:+ ls := by
  unfold items? at h
  dsimp only at h
  split at h
  · cases h
  · next close rest' hrest =>
    split at h
    · cases h
      exact (List.suffix_cons close rest).trans (hrest ▸ List.dropWhile_suffix _)
    · cases h

theorem behind?_suffix {column : Lexeme} {negated : Bool} {ls rest : List Lexeme} {m : Membership}
    (h : behind? column negated ls = some (m, rest)) : rest <:+ ls := by
  unfold behind? at h
  split at h
  · next word open_ ls =>
    split at h
    · obtain ⟨⟨items, rest'⟩, hitems, he⟩ := Option.map_eq_some_iff.mp h
      cases he
      exact (items?_suffix hitems).trans ((List.suffix_cons open_ ls).trans (List.suffix_cons word _))
    · cases h
  · cases h

theorem advances_pattern : pattern.Advances := by
  intro back l m rest h
  cases l with
  | nil => cases h
  | cons column ls =>
    have hsuffix : rest <:+ ls := by
      rw [pattern_cons] at h
      split at h
      · cases h
      · split at h
        · exact (behind?_suffix h).trans (List.tail_suffix ls)
        · exact behind?_suffix h
    obtain ⟨front, hfront⟩ := hsuffix
    exact ⟨column :: front, by simp, by rw [← hfront, List.cons_append]⟩

/-- Memberships with the same texts but for gaps are written alike. -/
theorem spaced_text {g g' column column' : Text} (hg : Spaced g g') (hc : Spaced column column')
    (negated : Bool) {items items' : List Text} (h : List.Forall₂ Spaced items items') :
    Spaced (text ⟨g, column, negated, items⟩) (text ⟨g', column', negated, items'⟩) := by
  have hitems (op : Text) : List.Forall₂ Spaced (items.map fun item => column ++ op ++ item)
      (items'.map fun item => column' ++ op ++ item) := by
    rw [List.forall₂_map_left_iff, List.forall₂_map_right_iff]
    exact h.imp fun item item' hi => (hc.append (.refl op)).append hi
  exact (hg.append (.cons '(' (spaced_intercalate _ (hitems _)))).append (.refl [')'])

theorem behind?_squash (column : Lexeme) (negated : Bool) (ls : List Lexeme) :
    Option.Rel (fun x y => Spaced (text x.1) (text y.1) ∧ x.2 = y.2.map Lexeme.squash)
      (behind? column.squash negated (ls.map Lexeme.squash)) (behind? column negated ls) := by
  cases ls with
  | nil => exact .none
  | cons word ls =>
    cases ls with
    | nil => exact .none
    | cons open_ ls =>
      simp only [behind?, List.map_cons, Lexeme.isWord_squash (w := "IN".toList) rfl, Lexeme.is_squash]
      split
      · have hrel := items?_squash ls
        generalize items? (ls.map Lexeme.squash) = found' at hrel ⊢
        generalize items? ls = found at hrel ⊢
        cases hrel with
        | none => exact .none
        | some h =>
          exact .some ⟨spaced_text (.squash column.gap) (.squash column.token.text) negated h.1, h.2⟩
      · exact .none

theorem spaced_render (ls : List Lexeme) :
    Spaced (pattern.render Lexeme.text text (ls.map Lexeme.squash))
      (pattern.render Lexeme.text text ls) := by
  refine Pattern.spaced_render forward_pattern advances_pattern Lexeme.spaced_text
    (fun ls => ?_) ls
  cases ls with
  | nil => exact .none
  | cons column ls =>
    have hnot : (ls.map Lexeme.squash).head?.any (·.isWord "NOT".toList) =
        ls.head?.any (·.isWord "NOT".toList) := by
      cases ls with
      | nil => rfl
      | cons l ls => exact Lexeme.isWord_squash (w := "NOT".toList) rfl l
    rw [List.map_cons, pattern_cons, pattern_cons, Lexeme.is_squash,
      Lexeme.isWord_squash (w := "NOT".toList) rfl, hnot]
    split
    · exact .none
    · split
      · rw [← List.map_tail]
        exact behind?_squash column true ls.tail
      · exact behind?_squash column false ls

theorem render_indent (l : Lexeme) (ls : List Lexeme) :
    pattern.render Lexeme.text text (l.indent :: ls) =
      ' ' :: pattern.render Lexeme.text text (l :: ls) := by
  have hbehind (negated : Bool) (ls : List Lexeme) : behind? l.indent negated ls =
      (behind? l negated ls).map (Prod.map (fun m => { m with gap := ' ' :: m.gap }) id) := by
    cases ls with
    | nil => rfl
    | cons word ls =>
      cases ls with
      | nil => rfl
      | cons open_ ls =>
        simp only [behind?]
        split
        · rw [Option.map_map]
          rfl
        · rfl
  refine Pattern.render_indent (g := fun m : Membership => { m with gap := ' ' :: m.gap })
    forward_pattern advances_pattern (fun l => rfl) (fun m => rfl) ?_
  have his : l.indent.is .word = l.is .word := rfl
  have hword : l.indent.isWord "NOT".toList = l.isWord "NOT".toList := rfl
  rw [pattern_cons, pattern_cons, his, hword, hbehind, hbehind]
  split
  · rfl
  · split <;> rfl

end Membership

end WhereFilter
