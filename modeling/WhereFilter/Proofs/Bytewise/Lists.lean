import WhereFilter.Proofs.Bytewise.Rewrite
import WhereFilter.Proofs.Rule.Memberships

namespace WhereFilter

namespace Membership

theorem eq_of_behind? {column : Lexeme} {negated : Bool} {ls rest : List Lexeme} {m : Membership}
    (h : behind? column negated ls = some (m, rest)) :
    m = ⟨column.gap, column.token.text, negated, m.items⟩ := by
  unfold behind? at h
  split at h
  · split at h
    · obtain ⟨found, -, he⟩ := Option.map_eq_some_iff.mp h
      cases he
      rfl
    · cases h
  · cases h

theorem text_of_pattern {back : Option Lexeme} {column : Lexeme} {ls rest : List Lexeme}
    {m : Membership} (h : pattern back (column :: ls) = some (m, rest)) :
    m.text = column.gap ++ (⟨[], column.token.text, m.negated, m.items⟩ : Membership).text := by
  have heq : m = ⟨column.gap, column.token.text, m.negated, m.items⟩ := by
    rw [pattern_cons] at h
    split at h
    · cases h
    · split at h
      · have hm := eq_of_behind? h
        rw [hm]
      · have hm := eq_of_behind? h
        rw [hm]
  rw [heq]
  simp [text]

end Membership

namespace Bytewise

open Text (bytes size)

/-- The start of the item `cur` that is being read, if there is a token in it. -/
def firstOf (offset : Nat) (cur : List Lexeme) : Option Nat :=
  cur.head?.map fun l => (markOf offset l).start

theorem firstOf_nil (offset : Nat) : firstOf offset [] = none := rfl

section

variable {s u rest : Text} {cur : List Lexeme} {l : Lexeme} {last : Nat}

theorem slice?_item (hs : s = u ++ (cur.flatMap Lexeme.text ++ rest))
    (hlast : cur ≠ [] → last = size u + size (cur.flatMap Lexeme.text)) {start : Nat}
    (hf : firstOf (size u) cur = some start) : s.slice? start last = some (slice cur) := by
  cases cur with
  | nil => cases hf
  | cons l cur =>
    cases hf
    rw [hlast (by simp)]
    exact Text.slice?_eq (u := u ++ l.gap) (w := rest) (by simp [hs, slice, Lexeme.text])
      (by simp [markOf]) (by simp [slice, Lexeme.text]; omega)

/-- An item keeps the start of its first token. -/
theorem firstOf_concat (u : Text) (cur : List Lexeme) (l : Lexeme) :
    firstOf (size u) (cur ++ [l]) = some ((firstOf (size u) cur).getD
      (markOf (size u + size (cur.flatMap Lexeme.text)) l).start) := by
  cases cur with
  | nil => simp [firstOf]
  | cons c cur => rfl

theorem itemsFrom_open (hk : l.token.kind = .parenLeft) (n : Nat) (ms : List Mark) (i : Nat)
    (first : Option Nat) (items : List Text) :
    itemsFrom s (markOf n l :: ms) i first last items = some none := by
  simp [itemsFrom, markOf, hk]

/-- A closing parenthesis ends the list, where there is an item to end. -/
theorem itemsFrom_close (hs : s = u ++ (cur.flatMap Lexeme.text ++ rest))
    (hlast : cur ≠ [] → last = size u + size (cur.flatMap Lexeme.text))
    (hk : l.token.kind = .parenRight) (n : Nat) (ms : List Mark) (i : Nat) (items : List Text) :
    itemsFrom s (markOf n l :: ms) i (firstOf (size u) cur) last items =
      some (if cur.isEmpty then none else some (items ++ [Text.trim (slice cur)], i)) := by
  have hkind : (markOf n l).kind = .parenRight := hk
  cases cur with
  | nil => simp [itemsFrom, hkind, firstOf]
  | cons c cur =>
    have hitem := slice?_item hs hlast rfl
    simp only [firstOf, List.head?_cons, Option.map_some] at hitem ⊢
    simp [itemsFrom, hkind, hitem]

/-- A comma ends the item in front of it, where there is one. -/
theorem itemsFrom_comma (hs : s = u ++ (cur.flatMap Lexeme.text ++ rest))
    (hlast : cur ≠ [] → last = size u + size (cur.flatMap Lexeme.text))
    (hk : l.token.kind = .comma) (n : Nat) (ms : List Mark) (i : Nat) (items : List Text) :
    itemsFrom s (markOf n l :: ms) i (firstOf (size u) cur) last items =
      if cur.isEmpty then some none
      else itemsFrom s ms (i + 1) none last (items ++ [Text.trim (slice cur)]) := by
  have hkind : (markOf n l).kind = .comma := hk
  cases cur with
  | nil => simp [itemsFrom, hkind, firstOf]
  | cons c cur =>
    have hitem := slice?_item hs hlast rfl
    simp only [firstOf, List.head?_cons, Option.map_some] at hitem ⊢
    simp [itemsFrom, hkind, hitem]

/-- Any other token belongs to the item. -/
theorem itemsFrom_inner
    (hk : l.token.kind ≠ .parenLeft ∧ l.token.kind ≠ .comma ∧ l.token.kind ≠ .parenRight)
    (ms : List Mark) (i : Nat) (items : List Text) :
    itemsFrom s (markOf (size u + size (cur.flatMap Lexeme.text)) l :: ms) i
        (firstOf (size u) cur) last items =
      itemsFrom s ms (i + 1) (firstOf (size u) (cur ++ [l]))
        (markOf (size u + size (cur.flatMap Lexeme.text)) l).stop items := by
  rw [itemsFrom.eq_def, firstOf_concat]
  simp only [markOf]
  split
  · next h => exact absurd h hk.1
  · next h => exact absurd h hk.2.1
  · next h => exact absurd h hk.2.2
  · rfl

end

theorem itemsFrom_eq {s : Text} (u tail : Text) (cur ls : List Lexeme)
    (hs : s = u ++ (cur.flatMap Lexeme.text ++ (ls.flatMap Lexeme.text ++ tail)))
    (hin : ∀ c ∈ cur, (!(c.is .parenLeft || c.is .parenRight)) = true)
    (hcomma : ∀ c ∈ cur, c.is .comma = false) (last : Nat)
    (hlast : cur ≠ [] → last = size u + size (cur.flatMap Lexeme.text))
    (i : Nat) (items : List Text) :
    itemsFrom s (marksOf (size u + size (cur.flatMap Lexeme.text)) ls) i (firstOf (size u) cur) last
        items =
      some ((Membership.items? (cur ++ ls)).map fun (more, rest) =>
        (items ++ more, i + ls.length - (rest.length + 1))) := by
  induction ls generalizing u cur last i items with
  | nil =>
    rw [List.append_nil, Membership.items?_of_open hin]
    rfl
  | cons l ls ih =>
    rw [marksOf_cons]
    by_cases hopen : l.token.kind = .parenLeft
    · rw [itemsFrom_open hopen, Membership.items?_stop hin hcomma (by simp [Lexeme.is, hopen])]
      simp [Lexeme.is, hopen]
    by_cases hclose : l.token.kind = .parenRight
    · rw [itemsFrom_close hs hlast hclose,
        Membership.items?_stop hin hcomma (by simp [Lexeme.is, hclose])]
      cases cur <;> simp [Lexeme.is, hclose]
    by_cases hk : l.token.kind = .comma
    · rw [itemsFrom_comma hs hlast hk,
        Membership.items?_comma hin hcomma (by simp [Lexeme.is, hk])]
      have hrest := ih (u ++ (cur.flatMap Lexeme.text ++ l.text)) [] (by simp [hs]) (by simp)
        (by simp) last (by simp) (i + 1) (items ++ [Text.trim (slice cur)])
      have hoffset : size (u ++ (cur.flatMap Lexeme.text ++ l.text)) + 0 =
          size u + size (cur.flatMap Lexeme.text) + size l.text := by
        simp [Nat.add_assoc]
      simp only [firstOf_nil, List.flatMap_nil, Text.size_nil, List.nil_append, hoffset] at hrest
      cases hcur : cur.isEmpty with
      | true => rfl
      | false =>
        rw [if_neg (by simp), if_neg (by simp), hrest]
        cases Membership.items? ls with
        | none => rfl
        | some found =>
          have hindex : i + 1 + ls.length - (found.2.length + 1) =
              i + (l :: ls).length - (found.2.length + 1) := by
            simp only [List.length_cons]
            omega
          simp [hindex]
    · have hrest := ih u (cur ++ [l]) (by simp [hs])
        (List.forall_mem_append.mpr ⟨hin, by simp [Lexeme.is, hopen, hclose]⟩)
        (List.forall_mem_append.mpr ⟨hcomma, by simp [Lexeme.is, hk]⟩)
        (markOf (size u + size (cur.flatMap Lexeme.text)) l).stop
        (by simp [markOf, Nat.add_assoc]) (i + 1) items
      have hoffset : size u + size ((cur ++ [l]).flatMap Lexeme.text) =
          size u + size (cur.flatMap Lexeme.text) + size l.text := by simp [Nat.add_assoc]
      have hindex (n : Nat) : i + 1 + ls.length - n = i + (l :: ls).length - n := by
        simp only [List.length_cons]
        omega
      rw [itemsFrom_inner ⟨hopen, hk, hclose⟩]
      rw [hoffset, List.append_assoc, List.singleton_append] at hrest
      simpa only [hindex] using hrest

section

variable {s : Text}

theorem wordAt?_eq (done ls : List Lexeme) (tail : Text)
    (hs : s = done.flatMap Lexeme.text ++ (ls.flatMap Lexeme.text ++ tail)) (w : Text) :
    wordAt? s (marksOf 0 (done ++ ls)) done.length w = some (ls.head?.any (·.isWord w)) := by
  cases ls with
  | nil => simp [wordAt?]
  | cons l ls =>
    have hl := getElem?_marksOf 0 done ls l rfl
    rw [Nat.zero_add] at hl
    rw [wordAt?, hl]
    exact isWord?_markOf (by simpa using hs) w

theorem itemsAt?_eq (column : Lexeme) (negated : Bool) (done ls : List Lexeme) (tail : Text)
    (hs : s = done.flatMap Lexeme.text ++ (ls.flatMap Lexeme.text ++ tail)) :
    itemsAt? s (marksOf 0 (done ++ ls)) done.length =
      some ((Membership.behind? column negated ls).map fun (m, rest) =>
        (m.items, done.length + ls.length - (rest.length + 1))) := by
  rw [itemsAt?, wordAt?_eq _ _ _ hs]
  rcases ls with _ | ⟨word, _ | ⟨open_, ls⟩⟩
  · rfl
  · cases word.isWord "IN".toList <;> simp [Membership.behind?]
  · have hopen := getElem?_marksOf 0 (done ++ [word]) ls open_ (i := done.length + 1) (by simp)
    have hdrop := drop_marksOf 0 (done ++ [word, open_]) ls (n := done.length + 2) (by simp)
    have hitems := itemsFrom_eq (s := s) (done.flatMap Lexeme.text ++ (word.text ++ open_.text))
      tail [] ls (by simp [hs]) (by simp) (by simp) 0 (by simp) (done.length + 2) []
    simp only [List.append_assoc, List.cons_append, List.nil_append] at hopen hdrop
    have hoffset : 0 + size ((done ++ [word, open_]).flatMap Lexeme.text) =
        size (done.flatMap Lexeme.text ++ (word.text ++ open_.text)) +
          size (([] : List Lexeme).flatMap Lexeme.text) := by simp
    rw [hoffset] at hdrop
    simp only [List.head?_cons, Option.any_some, Option.bind_eq_bind, Option.bind_some, hopen, hdrop]
    have hkind (n : Nat) : ((markOf n open_).kind == .parenLeft) = open_.is .parenLeft := rfl
    rw [hkind, Membership.behind?]
    cases hlist : word.isWord "IN".toList && open_.is .parenLeft with
    | false => rfl
    | true =>
      rw [if_pos rfl, if_pos rfl]
      rw [firstOf_nil] at hitems
      rw [hitems, List.nil_append]
      cases Membership.items? ls with
      | none => rfl
      | some found =>
        have hindex : done.length + 2 + ls.length = done.length + (word :: open_ :: ls).length := by
          simp only [List.length_cons]
          omega
        simp [hindex]

/-- The list behind `column`, as the pattern reads it. -/
theorem listAt?_eq {tail : Text} {column : Lexeme} {done ls : List Lexeme}
    (hs : s = done.flatMap Lexeme.text ++ ((column :: ls).flatMap Lexeme.text ++ tail))
    (hword : column.is .word = true) (hnot : column.isWord "NOT".toList = false)
    (back : Option Lexeme) :
    listAt? s (marksOf 0 (done ++ column :: ls)) done.length =
      some ((Membership.pattern back (column :: ls)).map fun (m, rest) =>
        (m.negated, m.items, done.length + (column :: ls).length - (rest.length + 1))) := by
  have hnegated := wordAt?_eq (s := s) (done ++ [column]) ls tail (by simp [hs]) "NOT".toList
  have hlen : (done ++ [column]).length = done.length + 1 := by simp
  rw [List.append_assoc, List.singleton_append, hlen] at hnegated
  rw [listAt?, hnegated, Membership.pattern_cons, hword, hnot]
  have hfound {negated : Bool} (ls' : List Lexeme) {i : Nat}
      (hi : i + ls'.length = done.length + (column :: ls).length)
      (h : itemsAt? s (marksOf 0 (done ++ column :: ls)) i =
        some ((Membership.behind? column negated ls').map fun (m, rest) =>
          (m.items, i + ls'.length - (rest.length + 1)))) :
      (itemsAt? s (marksOf 0 (done ++ column :: ls)) i).bind (fun found =>
          some (found.map (negated, ·))) =
        some ((Membership.behind? column negated ls').map fun (m, rest) =>
          (m.negated, m.items, done.length + (column :: ls).length - (rest.length + 1))) := by
    rw [h, hi]
    cases hb : Membership.behind? column negated ls' with
    | none => rfl
    | some found =>
      obtain ⟨m, rest⟩ := found
      have hm : m.negated = negated := by rw [Membership.eq_of_behind? hb]
      simp [hm]
  cases hhead : ls.head?.any (·.isWord "NOT".toList) with
  | false =>
    have hitems := itemsAt?_eq (s := s) column false (done ++ [column]) ls tail (by simp [hs])
    rw [List.append_assoc, List.singleton_append, hlen] at hitems
    exact hfound ls (i := done.length + 1) (by simp only [List.length_cons]; omega) hitems
  | true =>
    cases ls with
    | nil => cases hhead
    | cons l ls =>
      have hitems := itemsAt?_eq (s := s) column true (done ++ [column, l]) ls tail (by simp [hs])
      have hlen' : (done ++ [column, l]).length = done.length + 2 := by simp
      rw [List.append_assoc, List.cons_append, List.singleton_append, hlen'] at hitems
      exact hfound ls (i := done.length + 2) (by simp only [List.length_cons]; omega) hitems

end

section

variable {s tail : Text} {done ls rest : List Lexeme} {column : Lexeme} {back : Option Lexeme}

/-- A token that no list stands at is passed over. -/
theorem expandListsFrom_none
    (hs : s = done.flatMap Lexeme.text ++ ((column :: ls).flatMap Lexeme.text ++ tail))
    (hnone : Membership.pattern back (column :: ls) = none) (copied : Nat) (out : Text) :
    expandListsFrom s (marksOf 0 (done ++ column :: ls)) done.length copied out =
      expandListsFrom s (marksOf 0 (done ++ column :: ls)) (done.length + 1) copied out := by
  have hcolumn := getElem?_marksOf 0 done ls column rfl
  have hread : s = done.flatMap Lexeme.text ++
      (column.text ++ (ls.flatMap Lexeme.text ++ tail)) := by simpa using hs
  have hkind (n : Nat) : (markOf n column).kind = column.token.kind := rfl
  rw [Nat.zero_add] at hcolumn
  rw [expandListsFrom_unfold, if_pos (by simp), hcolumn]
  simp only [Option.bind_eq_bind, Option.bind_some, isWord?_markOf hread, hkind]
  cases hcol : column.token.kind != .word || column.isWord "NOT".toList with
  | true => rfl
  | false =>
    have hword : column.is .word = true ∧ column.isWord "NOT".toList = false := by
      simpa [Lexeme.is] using hcol
    rw [if_neg (by simp), listAt?_eq hs hword.1 hword.2 back, hnone]
    rfl

/-- A list is written out behind what was still to be copied, and reading goes on behind the
parenthesis that closes it. -/
theorem expandListsFrom_some {u pending : Text} {front : List Lexeme} {close : Lexeme}
    {m : Membership} (hs : s = u ++ (pending ++ ((column :: ls).flatMap Lexeme.text ++ tail)))
    (hdone : done.flatMap Lexeme.text = u ++ pending)
    (hp : Membership.pattern back (column :: ls) = some (m, rest))
    (he : column :: ls = front ++ close :: rest) (out : Text) :
    expandListsFrom s (marksOf 0 (done ++ column :: ls)) done.length (size u) out =
      expandListsFrom s (marksOf 0 (done ++ column :: ls)) ((done ++ front).length + 1)
        (size (u ++ (pending ++ (front ++ [close]).flatMap Lexeme.text)))
        (out ++ (pending ++ m.text)) := by
  have hread : s = (u ++ pending) ++ (column.text ++ (ls.flatMap Lexeme.text ++ tail)) := by
    simp [hs]
  have hpending : s = u ++ (pending ++ (column.text ++ (ls.flatMap Lexeme.text ++ tail))) := by
    simp [hs]
  have hdone' : s = done.flatMap Lexeme.text ++ ((column :: ls).flatMap Lexeme.text ++ tail) := by
    simp [hs, hdone]
  have hcolumn := getElem?_marksOf 0 done ls column rfl
  rw [hdone, Nat.zero_add] at hcolumn
  have hclose := getElem?_marksOf 0 (done ++ front) rest close rfl
  have hmarks : done ++ column :: ls = done ++ front ++ close :: rest := by simp [he]
  rw [← hmarks] at hclose
  have hkind : (markOf (size (u ++ pending)) column).kind = column.token.kind := rfl
  have hword : column.is .word = true ∧ column.isWord "NOT".toList = false := by
    rw [Membership.pattern_cons] at hp
    split at hp
    · cases hp
    · next hcol => simpa [Lexeme.is] using hcol
  have hindex : done.length + (column :: ls).length - (rest.length + 1) =
      (done ++ front).length := by
    rw [he]
    simp
    omega
  have hstop : (markOf (0 + size ((done ++ front).flatMap Lexeme.text)) close).stop =
      size (u ++ (pending ++ (front ++ [close]).flatMap Lexeme.text)) := by
    simp [markOf, hdone, Nat.add_assoc]
  rw [expandListsFrom_unfold, if_pos (by simp), hcolumn]
  simp only [Option.bind_eq_bind, Option.bind_some, isWord?_markOf hread, hkind]
  rw [if_neg (by simpa [Lexeme.is] using hword), listAt?_eq hdone' hword.1 hword.2 back, hp]
  simp only [Option.map_some, Option.bind_some, source?_markOf hread,
    slice?_before hpending, hindex, hclose, hstop]
  rw [Membership.text_of_pattern hp]
  simp

end

/-- The tokens read from `done` on, and what is to be copied from behind `u` on. -/
theorem expandListsFrom_eq {s tail : Text} (u pending : Text) (done todo : List Lexeme)
    (hs : s = u ++ (pending ++ (todo.flatMap Lexeme.text ++ tail)))
    (hdone : done.flatMap Lexeme.text = u ++ pending) (back : Option Lexeme) (out : Text) :
    expandListsFrom s (marksOf 0 (done ++ todo)) done.length (size u) out =
      some (out ++ (pending ++ (Membership.pattern.renderFrom Lexeme.text Membership.text back todo ++
        tail))) := by
  induction hn : todo.length using Nat.strongRecOn generalizing u pending done todo back out with
  | ind n ih =>
  subst hn
  cases todo with
  | nil =>
    have hslice := slice?_rest u (pending ++ tail)
    rw [expandListsFrom_unfold, if_neg (by simp)]
    simp only [List.flatMap_nil, List.nil_append] at hs
    rw [hs, hslice]
    rfl
  | cons column ls =>
    cases hp : Membership.pattern back (column :: ls) with
    | none =>
      have hrest := ih ls.length (by simp) u (pending ++ column.text) (done ++ [column]) ls
        (by simp [hs]) (by simp [hdone]) (some column) out rfl
      have hread : s = done.flatMap Lexeme.text ++ ((column :: ls).flatMap Lexeme.text ++ tail) := by
        simp [hs, hdone]
      rw [expandListsFrom_none hread hp, Pattern.renderFrom_of_none hp]
      simpa using hrest
    | some found =>
      obtain ⟨m, rest⟩ := found
      obtain ⟨read, hread, he⟩ := Membership.advances_pattern back _ m rest hp
      obtain ⟨front, close, rfl⟩ : ∃ front close, read = front ++ [close] :=
        ⟨_, _, (List.dropLast_append_getLast hread).symm⟩
      have hclose : column :: ls = front ++ close :: rest := by simp [he]
      have hrest := ih rest.length (by simp [he]; omega)
        (u ++ (pending ++ (front ++ [close]).flatMap Lexeme.text)) [] (done ++ (front ++ [close]))
        rest (by simp [hs, he]) (by simp [hdone]) (some close) (out ++ (pending ++ m.text)) rfl
      rw [expandListsFrom_some hs hdone hp hclose]
      rw [hclose] at hp ⊢
      rw [Pattern.renderFrom_of_hit hp]
      simpa [Nat.add_assoc] using hrest

theorem expandLists_eq (s : Text) : expandLists s = some (WhereFilter.expandLists s) := by
  rw [expandLists, marks_text, WhereFilter.expandLists]
  cases hs : scan s with
  | error e => rfl
  | ok found =>
    have htext : s = found.lexemes.flatMap Lexeme.text ++ found.tail := (scan_text hs).symm
    have h := expandListsFrom_eq [] [] [] found.lexemes htext rfl none []
    simp only [List.nil_append, List.length_nil, Text.size_nil] at h
    simp only [Option.bind_eq_bind, Option.bind_some, h]
    rfl

end Bytewise

end WhereFilter
