import WhereFilter.Proofs.Bytewise.Scan
import WhereFilter.Proofs.Bytewise.Splice
import WhereFilter.Proofs.Layout.Patterns
import WhereFilter.Proofs.Rule.Placeholder

namespace WhereFilter

namespace Bytewise

open Text (bytes size)

/-- The token of `l`, where its gap starts at `offset`. -/
def markOf (offset : Nat) (l : Lexeme) : Mark :=
  ⟨l.token.kind, offset + size l.gap, offset + size l.text⟩

theorem marksOf_cons (offset : Nat) (l : Lexeme) (ls : List Lexeme) :
    marksOf offset (l :: ls) = markOf offset l :: marksOf (offset + size l.text) ls := by
  simp [marksOf, place, Placed.mark, markOf, Lexeme.text, Nat.add_assoc]

theorem marksOf_append (offset : Nat) (ls ls' : List Lexeme) :
    marksOf offset (ls ++ ls') =
      marksOf offset ls ++ marksOf (offset + size (ls.flatMap Lexeme.text)) ls' := by
  induction ls generalizing offset with
  | nil => simp [marksOf, place]
  | cons l ls ih => simp [marksOf_cons, ih, Nat.add_assoc]

@[simp] theorem length_marksOf (offset : Nat) (ls : List Lexeme) :
    (marksOf offset ls).length = ls.length := by
  induction ls generalizing offset with
  | nil => rfl
  | cons l ls ih => simp [marksOf_cons, ih]

theorem getElem?_marksOf (offset : Nat) (done todo : List Lexeme) (l : Lexeme) {i : Nat}
    (hi : i = done.length) : (marksOf offset (done ++ l :: todo))[i]? =
      some (markOf (offset + size (done.flatMap Lexeme.text)) l) := by
  rw [marksOf_append, marksOf_cons, List.getElem?_append_right (by simp [hi])]
  simp [hi]

theorem drop_marksOf (offset : Nat) (done todo : List Lexeme) {n : Nat} (hn : n = done.length) :
    (marksOf offset (done ++ todo)).drop n =
      marksOf (offset + size (done.flatMap Lexeme.text)) todo := by
  rw [marksOf_append, List.drop_append_of_le_length (by simp [hn]), hn,
    List.drop_eq_nil_of_le (by simp), List.nil_append]

theorem source?_markOf {s u rest : Text} {l : Lexeme} (hs : s = u ++ (l.text ++ rest)) :
    source? s (markOf (size u) l) = some l.token.text :=
  Text.slice?_eq (u := u ++ l.gap) (w := rest) (by simp [hs, Lexeme.text])
    (by simp [markOf]) (by simp [markOf, Lexeme.text, Nat.add_assoc])

theorem isWord?_markOf {s u rest : Text} {l : Lexeme} (hs : s = u ++ (l.text ++ rest)) (w : Text) :
    isWord? s (markOf (size u) l) w = some (l.isWord w) := by
  rw [isWord?, source?_markOf hs]
  simp only [markOf, Lexeme.isWord, Token.isWord]
  by_cases h : l.token.kind = .word <;> simp [h]

/-- A literal is long enough for both of its quotes. -/
theorem contents?_markOf {s u rest : Text} {l : Lexeme} (hs : s = u ++ (l.text ++ rest))
    (hf : l.token.Formed) : contents? s (markOf (size u) l) = some l.token.contents := by
  rw [contents?, source?_markOf hs]
  obtain ⟨gap, kind, text⟩ := l
  have hquotes {q : Char} (hq : q.utf8Size = 1) (h : ∃ b, Token.Paired q b ∧ text = q :: b ++ [q]) :
      (minus? (size text) 1).bind (fun last => text.slice? 1 last) =
        some text.tail.dropLast := by
    obtain ⟨b, -, rfl⟩ := h
    have hsize : size (q :: b ++ [q]) = size b + 2 := by simp [hq]; omega
    have hslice : Text.slice? (q :: b ++ [q]) 1 (size b + 2 - 1) = some b :=
      Text.slice?_eq (u := [q]) (w := [q]) rfl (by simp [hq]) (by simp [hq]; omega)
    rw [minus?, hsize, if_pos (by omega), Option.bind_some, hslice]
    simp
  cases kind
  case literal => simpa [markOf, Token.contents] using hquotes (q := '\'') rfl hf
  case quoted => simpa [markOf, Token.contents] using hquotes (q := '"') rfl hf
  all_goals rfl

theorem start_eq_iff (offset : Nat) (g : Text) : (offset == offset + size g) = g.isEmpty := by
  have hz := Text.size_eq_zero (t := g)
  cases g with
  | nil => simp
  | cons c g =>
    have := c.utf8Size_pos
    simp
    omega

/-- Offsets tell that tokens touch. -/
theorem qualified_marks (n : Nat) (a b c : Lexeme) :
    ((markOf n a).kind == .word && (markOf (n + size a.text) b).kind == .dot &&
      (markOf (n + size a.text + size b.text) c).kind == .word &&
      (markOf n a).stop == (markOf (n + size a.text) b).start &&
      (markOf (n + size a.text) b).stop == (markOf (n + size a.text + size b.text) c).start) =
    (a.is .word && b.is .dot && c.is .word && b.gap.isEmpty && c.gap.isEmpty) := by
  simp only [markOf, Lexeme.is, start_eq_iff]

/-- From where copying starts to the end. -/
theorem slice?_rest (u t : Text) : (u ++ t).slice? (size u) (size (u ++ t)) = some t :=
  Text.slice?_eq (w := []) (by simp) rfl (by simp)

/-- From where copying starts to the next token. -/
theorem slice?_before {s u pending rest : Text} {l : Lexeme}
    (hs : s = u ++ (pending ++ (l.text ++ rest))) :
    s.slice? (size u) (markOf (size (u ++ pending)) l).start = some (pending ++ l.gap) :=
  Text.slice?_eq (w := l.token.text ++ rest) (by simp [hs, Lexeme.text]) rfl
    (by simp [markOf, Nat.add_assoc])

/-- Whether a name stands at token `a`, by the tokens and not by their places. -/
theorem dropQualifiersFrom_cons {n : Nat} (s : Text) (done : List Lexeme) (a b c : Lexeme)
    (rest : List Lexeme) (hn : n = size (done.flatMap Lexeme.text)) (copied : Nat) (out : Text) :
    dropQualifiersFrom s (marksOf 0 (done ++ a :: b :: c :: rest)) done.length copied out =
      if a.is .word && b.is .dot && c.is .word && b.gap.isEmpty && c.gap.isEmpty then
        (s.slice? copied (markOf n a).start).bind fun before =>
          dropQualifiersFrom s (marksOf 0 (done ++ a :: b :: c :: rest)) (done.length + 3)
            (markOf (n + size a.text + size b.text) c).start (out ++ before)
      else
        dropQualifiersFrom s (marksOf 0 (done ++ a :: b :: c :: rest)) (done.length + 1) copied
          out := by
  have ha := getElem?_marksOf 0 done (b :: c :: rest) a rfl
  have hb := getElem?_marksOf 0 (done ++ [a]) (c :: rest) b (i := done.length + 1) (by simp)
  have hc := getElem?_marksOf 0 (done ++ [a, b]) rest c (i := done.length + 2) (by simp)
  simp only [List.append_assoc, List.cons_append, List.nil_append, List.flatMap_append,
    List.flatMap_cons, List.flatMap_nil, List.append_nil, Nat.zero_add, Text.size_append,
    ← Nat.add_assoc, ← hn] at ha hb hc
  rw [dropQualifiersFrom, if_pos (by simp)]
  simp only [ha, hb, hc, Option.bind_eq_bind, Option.bind_some]
  rw [qualified_marks]

/-- The tokens read from `done` on, and what is to be copied from behind `u` on. -/
theorem dropQualifiersFrom_eq {s tail : Text} (u pending : Text) (done todo : List Lexeme)
    (hs : s = u ++ (pending ++ (todo.flatMap Lexeme.text ++ tail)))
    (hdone : done.flatMap Lexeme.text = u ++ pending) (back : Option Lexeme) (out : Text) :
    dropQualifiersFrom s (marksOf 0 (done ++ todo)) done.length (size u) out =
      some (out ++ (pending ++ ((qualified.renderFrom (fun l => [l]) (fun c => [c]) back todo).flatMap
        Lexeme.text ++ tail))) := by
  induction hn : todo.length using Nat.strongRecOn generalizing u pending done todo back out with
  | ind n ih =>
  subst hn
  have hlast := slice?_rest u (pending ++ (todo.flatMap Lexeme.text ++ tail))
  rw [← hs] at hlast
  match todo with
  | [] | [_] | [_, _] =>
    rw [dropQualifiersFrom, if_neg (by simp), hlast]
    rfl
  | a :: b :: c :: rest =>
    rw [dropQualifiersFrom_cons s done a b c rest (congrArg size hdone).symm]
    cases hq : (a.is .word && b.is .dot && c.is .word && b.gap.isEmpty && c.gap.isEmpty) with
    | false =>
      have hnone : qualified back (a :: b :: c :: rest) = none := by simp [qualified, hq]
      have hrest := ih (b :: c :: rest).length (by simp) u (pending ++ a.text) (done ++ [a])
        (b :: c :: rest) (by simp [hs]) (by simp [hdone]) (some a) out rfl
      rw [Pattern.renderFrom_of_none hnone]
      simpa using hrest
    | true =>
      have hread : s =
          u ++ (pending ++ (a.text ++ ((b :: c :: rest).flatMap Lexeme.text ++ tail))) := by
        simp [hs]
      have hhit : qualified back ([a, b] ++ c :: rest) = some ({ c with gap := a.gap }, rest) := by
        simp [qualified, hq]
      have hgap : c.gap = [] := by simp only [Bool.and_eq_true, List.isEmpty_iff] at hq; exact hq.2
      have hstart : (markOf (size (u ++ pending) + size a.text + size b.text) c).start =
          size (u ++ (pending ++ (a.text ++ b.text))) := by
        simp [markOf, hgap, Nat.add_assoc]
      have hrest := ih rest.length (by simp; omega) (u ++ (pending ++ (a.text ++ b.text))) c.text
        (done ++ [a, b, c]) rest (by simp [hs]) (by simp [hdone]) (some c)
        (out ++ (pending ++ a.gap)) rfl
      have hrender : qualified.renderFrom (fun l => [l]) (fun c => [c]) back (a :: b :: c :: rest) =
          { c with gap := a.gap } ::
            qualified.renderFrom (fun l => [l]) (fun c => [c]) (some c) rest :=
        Pattern.renderFrom_of_hit hhit
      have hlen : (done ++ [a, b, c]).length = done.length + 3 := by simp
      rw [hlen] at hrest
      rw [hrender, if_pos rfl, slice?_before hread, Option.bind_some, hstart]
      simpa [Lexeme.text, hgap] using hrest

theorem marks_text (s : Text) : marks (bytes s) 0 =
    some (match scan s with
      | .ok found => .ok (marksOf 0 found.lexemes)
      | .error e => .error e) := by
  have h := marks_bytes [] s
  simp only [List.nil_append, Text.size_nil, Nat.zero_add] at h
  refine h.trans ?_
  cases scan s <;> rfl

theorem dropQualifiers_eq (s : Text) :
    dropQualifiers s = some (WhereFilter.dropQualifiers s) := by
  rw [dropQualifiers, marks_text, WhereFilter.dropQualifiers]
  cases hs : scan s with
  | error e => rfl
  | ok found =>
    have htext : s = found.lexemes.flatMap Lexeme.text ++ found.tail := (scan_text hs).symm
    have h := dropQualifiersFrom_eq [] [] [] found.lexemes htext rfl none []
    simp only [List.nil_append, List.length_nil, Text.size_nil] at h
    simp only [Option.bind_eq_bind, Option.bind_some, h]
    rfl

/-- What is spelled anew goes by the token alone. -/
def Spells (spell : Text → Mark → Option (Option Text)) (spelling : Token → Option Text) : Prop :=
  ∀ u l rest, spell (u ++ (l.text ++ rest)) (markOf (size u) l) = some (spelling l.token)

section

variable {s u pending t rest : Text} {l : Lexeme}

theorem next_done (ht : step t = .done rest) (u pending : Text) :
    next (bytes (u ++ (pending ++ t))) (size u + size pending) = some .done := by
  rw [← List.append_assoc, ← Text.size_append, next_bytes, ht]

theorem next_unclosed (ht : step t = .unclosed rest) (u pending : Text) :
    next (bytes (u ++ (pending ++ t))) (size u + size pending) =
      some (.unclosed (size u + size pending + size rest)) := by
  rw [← List.append_assoc, ← Text.size_append, next_bytes, ht]

theorem next_lexeme (ht : step t = .lexeme l rest) (u pending : Text) :
    next (bytes (u ++ (pending ++ t))) (size u + size pending) =
      some (.mark (markOf (size (u ++ pending)) l)) := by
  rw [← List.append_assoc, ← Text.size_append, next_bytes, ht]
  rfl

theorem stop_markOf (u pending : Text) (l : Lexeme) :
    (markOf (size (u ++ pending)) l).stop = size (u ++ (pending ++ l.text)) := by
  simp [markOf, Nat.add_assoc]

end

/-- What a token adds to the text, and what is to be copied from then on. -/
theorem respellFrom_lexeme {spell : Text → Mark → Option (Option Text)}
    {spelling : Token → Option Text} (hspell : Spells spell spelling) {t rest : Text} {l : Lexeme}
    (ht : step t = .lexeme l rest) (u pending out : Text) :
    respellFrom spell (u ++ (pending ++ t)) (size u + size pending) (size u) out =
      match spelling l.token with
      | some new =>
        respellFrom spell (u ++ (pending ++ l.text) ++ ([] ++ rest))
          (size (u ++ (pending ++ l.text)) + size []) (size (u ++ (pending ++ l.text)))
          (out ++ (pending ++ l.gap) ++ new)
      | none =>
        respellFrom spell (u ++ ((pending ++ l.text) ++ rest)) (size u + size (pending ++ l.text))
          (size u) out := by
  have htext : t = l.text ++ rest := (step_lexeme ht).1
  have hslice := slice?_before (s := u ++ (pending ++ t)) (u := u) (by rw [htext])
  have hread := hspell (u ++ pending) l rest
  rw [List.append_assoc, ← htext] at hread
  rw [respellFrom_unfold, next_lexeme ht]
  simp only [Option.bind_eq_bind, Option.bind_some, hread, stop_markOf]
  cases spelling l.token with
  | some new =>
    simp only [hslice, Option.bind_some]
    simp [htext]
  | none => simp [htext]

theorem respellFrom_eq {spell : Text → Mark → Option (Option Text)}
    {spelling : Token → Option Text} (hspell : Spells spell spelling) (u pending t out : Text) :
    respellFrom spell (u ++ (pending ++ t)) (size u + size pending) (size u) out =
      some (match scan t with
        | .ok found => .ok (out ++ (pending ++ (found.lexemes.flatMap (fun l =>
            l.gap ++ (spelling l.token).getD l.token.text) ++ found.tail)))
        | .error e => .error ⟨size u + size pending + e.offset⟩) := by
  fun_induction scan t generalizing u pending out with
  | case1 t gap ht =>
    rw [respellFrom_unfold, next_done ht]
    simp only [Option.bind_eq_bind, Option.bind_some, slice?_rest]
    simp [step_done ht]
  | case2 t gap ht =>
    rw [respellFrom_unfold, next_unclosed ht]
    rfl
  | case3 t l rest ht found hf ih =>
    rw [respellFrom_lexeme hspell ht]
    cases hl : spelling l.token with
    | some new =>
      simp only [ih, hf]
      simp [Scan.cons, hl]
    | none =>
      simp only [ih, hf]
      simp [Scan.cons, hl, Lexeme.text]
  | case4 t l rest ht e hf ih =>
    rw [respellFrom_lexeme hspell ht]
    cases spelling l.token <;> (simp only [ih, hf]; simp [Nat.add_assoc])

theorem respell_eq {spell : Text → Mark → Option (Option Text)} {spelling : Token → Option Text}
    (hspell : Spells spell spelling) (s : Text) :
    respell spell s = some (WhereFilter.respell spelling s) := by
  have h := respellFrom_eq hspell [] [] s []
  simp only [List.nil_append, Text.size_nil, Nat.zero_add] at h
  rw [respell, h, WhereFilter.respell]
  cases scan s <;> rfl

theorem spells_unequal : Spells unequalSpelling WhereFilter.unequalSpelling := by
  intro u l rest
  simp only [unequalSpelling, WhereFilter.unequalSpelling, markOf]
  cases l.token.kind <;> rfl

theorem spells_equal : Spells equalSpelling WhereFilter.equalSpelling := by
  intro u l rest
  simp only [equalSpelling, WhereFilter.equalSpelling, markOf]
  cases l.token.kind <;> rfl

theorem spells_connective : Spells connectiveSpelling WhereFilter.connectiveSpelling := by
  intro u l rest
  have hword := isWord?_markOf (s := u ++ (l.text ++ rest)) (u := u) rfl
  simp only [connectiveSpelling, WhereFilter.connectiveSpelling, hword, Option.bind_eq_bind,
    Option.bind_some, Lexeme.isWord]
  cases l.token.isWord "AND".toList <;> cases l.token.isWord "OR".toList <;> rfl

theorem fill_eq (b : Bindings) (render : Value → Text) (s : Text) :
    fill b render s = some (Placeholder.fill b render s) :=
  splice_eq Placeholder.advances_pattern _ s

/-- The contents of a literal are filled at once, and what is between two literals before the
second. -/
theorem fillPlaceholdersFrom_lexeme (b : Bindings) {t rest : Text} {l : Lexeme}
    (ht : step t = .lexeme l rest) (u pending out : Text) :
    fillPlaceholdersFrom b (u ++ (pending ++ t)) (size u + size pending) (size u) out =
      if l.is .literal then
        fillPlaceholdersFrom b (u ++ (pending ++ l.text) ++ ([] ++ rest))
          (size (u ++ (pending ++ l.text)) + size []) (size (u ++ (pending ++ l.text)))
          (out ++ Placeholder.fill b Value.operand (pending ++ l.gap) ++
            '\'' :: Placeholder.fill b Value.inLiteral l.token.contents ++ ['\''])
      else
        fillPlaceholdersFrom b (u ++ ((pending ++ l.text) ++ rest))
          (size u + size (pending ++ l.text)) (size u) out := by
  have htext : t = l.text ++ rest := (step_lexeme ht).1
  have hslice := slice?_before (s := u ++ (pending ++ t)) (u := u) (by rw [htext])
  have hsplit : u ++ (pending ++ t) = u ++ pending ++ (l.text ++ rest) := by simp [htext]
  have hread := contents?_markOf hsplit (fit_of_step ht).2.1
  rw [fillPlaceholdersFrom_unfold, next_lexeme ht]
  simp only [Option.bind_eq_bind, Option.bind_some, stop_markOf]
  cases hl : l.is .literal with
  | true =>
    have hkind : ((markOf (size (u ++ pending)) l).kind == .literal) = true := hl
    simp only [hkind, if_true, hslice, fill_eq, hread,
      Option.bind_some]
    simp [htext]
  | false =>
    have hkind : ((markOf (size (u ++ pending)) l).kind == .literal) = false := hl
    simp only [hkind]
    simp [htext]

theorem fillPlaceholdersFrom_eq (b : Bindings) (u pending t out : Text) :
    fillPlaceholdersFrom b (u ++ (pending ++ t)) (size u + size pending) (size u) out =
      some (match scan t with
        | .ok found =>
          let st := Stretches.ofLexemes found.tail found.lexemes
          .ok (out ++ { st with lead := pending ++ st.lead }.fill b)
        | .error e => .error ⟨size u + size pending + e.offset⟩) := by
  fun_induction scan t generalizing u pending out with
  | case1 t gap ht =>
    rw [fillPlaceholdersFrom_unfold, next_done ht]
    simp only [Option.bind_eq_bind, Option.bind_some, slice?_rest, fill_eq]
    simp [step_done ht, Stretches.ofLexemes, Stretches.fill]
  | case2 t gap ht =>
    rw [fillPlaceholdersFrom_unfold, next_unclosed ht]
    rfl
  | case3 t l rest ht found hf ih =>
    rw [fillPlaceholdersFrom_lexeme b ht]
    cases hl : l.is .literal with
    | true =>
      simp only [ih, hf, if_true]
      simp [Scan.cons, Stretches.ofLexemes, Stretches.fill, hl]
    | false =>
      simp only [ih, hf]
      simp [Scan.cons, Stretches.ofLexemes, Stretches.fill, hl]
  | case4 t l rest ht e hf ih =>
    rw [fillPlaceholdersFrom_lexeme b ht]
    cases l.is .literal <;> (simp only [ih, hf]; simp [Nat.add_assoc])

theorem fillPlaceholders_eq (b : Bindings) (s : Text) :
    fillPlaceholders b s = some (WhereFilter.fillPlaceholders b s) := by
  have h := fillPlaceholdersFrom_eq b [] [] s []
  simp only [List.nil_append, Text.size_nil, Nat.zero_add] at h
  rw [fillPlaceholders, h, WhereFilter.fillPlaceholders]
  cases scan s <;> rfl

end Bytewise

end WhereFilter
