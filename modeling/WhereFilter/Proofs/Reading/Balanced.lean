import WhereFilter.Proofs.Bytewise.Fold

namespace WhereFilter

/-! ### Balanced parentheses -/

def openedIn (ls : List Lexeme) : Nat :=
  ls.countP (·.is .parenLeft)

def closedIn (ls : List Lexeme) : Nat :=
  ls.countP (·.is .parenRight)

/-- As many parentheses open as close, and none closes before there is one to close. -/
structure Balanced (ls : List Lexeme) : Prop where
  even : openedIn ls = closedIn ls
  upTo : ∀ front, front <+: ls → closedIn front ≤ openedIn front

theorem Lexeme.not_parenLeft {l : Lexeme} (h : l.is .parenRight = true) :
    l.is .parenLeft = false := by
  simp only [Lexeme.is, beq_iff_eq] at h
  simp [Lexeme.is, h]

theorem Lexeme.not_parenRight {l : Lexeme} (h : l.is .parenLeft = true) :
    l.is .parenRight = false := by
  simp only [Lexeme.is, beq_iff_eq] at h
  simp [Lexeme.is, h]

theorem openedIn_cons (l : Lexeme) (ls : List Lexeme) :
    openedIn (l :: ls) = openedIn ls + if l.is .parenLeft then 1 else 0 :=
  List.countP_cons

theorem closedIn_cons (l : Lexeme) (ls : List Lexeme) :
    closedIn (l :: ls) = closedIn ls + if l.is .parenRight then 1 else 0 :=
  List.countP_cons

theorem Lexeme.not_paren_of_isWord {l : Lexeme} {w : Text} (h : l.isWord w = true) :
    l.is .parenLeft = false ∧ l.is .parenRight = false := by
  have hkind : l.token.kind = .word := by
    simp only [Lexeme.isWord, Token.isWord, Bool.and_eq_true, beq_iff_eq] at h
    exact h.1
  simp [Lexeme.is, hkind]

/-- A condition on the fronts of a list, read from its first lexeme on. -/
theorem forall_front_cons {p : List Lexeme → Prop} {l : Lexeme} {ls : List Lexeme} :
    (∀ front, front <+: l :: ls → p front) ↔ p [] ∧ ∀ front, front <+: ls → p (l :: front) := by
  constructor
  · intro h
    exact ⟨h [] List.nil_prefix, fun front hf => h _ (List.cons_prefix_cons.mpr ⟨rfl, hf⟩)⟩
  · rintro ⟨hnil, hcons⟩ front hf
    rcases List.prefix_cons_iff.mp hf with rfl | ⟨t, rfl, ht⟩
    · exact hnil
    · exact hcons t ht

/-- The height is what has been opened and not closed. There is one as long as no front closes
more than was open. -/
theorem heightAfter?_eq_some_iff {h k : Nat} {ls : List Lexeme} :
    heightAfter? h ls = some k ↔
      h + openedIn ls = k + closedIn ls ∧
        ∀ front, front <+: ls → closedIn front ≤ h + openedIn front := by
  induction ls generalizing h with
  | nil => simp [heightAfter?, openedIn, closedIn]
  | cons l ls ih =>
    have hzero : closedIn [] ≤ h + openedIn [] := Nat.zero_le _
    rw [forall_front_cons, and_iff_right hzero]
    simp only [openedIn_cons, closedIn_cons]
    rcases l.paren_cases with hl | ⟨hl, hr⟩ | ⟨hl, hr⟩
    · have hr := Lexeme.not_parenRight hl
      simp only [heightAfter?, hl, hr, if_true, Bool.false_eq_true, if_false, ih, Nat.add_zero]
      simp only [Nat.add_assoc, Nat.add_comm 1]
    · cases h with
      | zero =>
        simp only [heightAfter?, hl, hr, Bool.false_eq_true, if_false, if_true, reduceCtorEq,
          false_iff, not_and]
        intro _ hfront
        have := hfront [] List.nil_prefix
        simp [openedIn, closedIn] at this
      | succ h =>
        simp only [heightAfter?, hl, hr, Bool.false_eq_true, if_false, if_true, ih, Nat.add_zero]
        refine and_congr (by omega) (forall₂_congr fun front _ => by omega)
    · simp only [heightAfter?, hl, hr, Bool.false_eq_true, if_false, ih, Nat.add_zero]

theorem balanced_iff {ls : List Lexeme} : Balanced ls ↔ heightAfter? 0 ls = some 0 := by
  rw [heightAfter?_eq_some_iff]
  simp only [Nat.zero_add]
  exact ⟨fun h => ⟨h.even, h.upTo⟩, fun h => ⟨h.1, h.2⟩⟩

/-- What stands in the parentheses around a whole is balanced, and nothing else does. -/
theorem inside?_eq_some_iff_balanced {ls inner : List Lexeme} :
    inside? ls = some inner ↔
      ∃ o c, ls = o :: inner ++ [c] ∧ o.is .parenLeft = true ∧ c.is .parenRight = true ∧
        Balanced inner := by
  rw [inside?_eq_some_iff]
  constructor
  · rintro ⟨o, c, hls, ho, -, hc, hh⟩
    exact ⟨o, c, hls, ho, hc, balanced_iff.mpr hh⟩
  · rintro ⟨o, c, hls, ho, hc, hh⟩
    exact ⟨o, c, hls, ho, Lexeme.not_parenLeft hc, hc, balanced_iff.mp hh⟩

/-- Where a balanced list is cut, no parenthesis is open. -/
theorem Balanced.parts {ls : List Lexeme} (h : Balanced ls) (w : Text) :
    ∀ p ∈ parts w 0 ls, Balanced p := by
  revert h
  refine parts_induction (motive := fun ls ps => Balanced ls → ∀ p ∈ ps, Balanced p) ?_ ?_ ls
  · intro ls _ h
    simpa using h
  · intro p c rest hw _ hd ih h
    obtain ⟨hcl, hcr⟩ := Lexeme.not_paren_of_isWord hw
    rw [balanced_iff, heightAfter?_append, Option.bind_eq_some_iff] at h
    obtain ⟨k, hp, hrest⟩ := h
    obtain rfl : k = 0 := (depthAfter_of_height hp).symm.trans hd
    have hrest : heightAfter? 0 rest = some 0 := by simpa [heightAfter?, hcl, hcr] using hrest
    exact List.forall_mem_cons.mpr ⟨balanced_iff.mpr hp, ih (balanced_iff.mpr hrest)⟩

/-! ### What a split leaves -/

/-- The parts with one of `cs` behind each but the last. -/
def interleave : List (List α) → List α → List α
  | p :: ps, c :: cs => p ++ c :: interleave ps cs
  | ps, _ => ps.flatten

/-- Where the items between some parts stand in the whole. -/
def cutPlaces : List (List α) → List Nat
  | [] | [_] => []
  | p :: q :: ps => p.length :: (cutPlaces (q :: ps)).map (p.length + 1 + ·)

/-- `ps` are the stretches of `ls` between the words `w` that stand outside parentheses. -/
structure SplitAt (w : Text) (ls : List Lexeme) (ps : List (List Lexeme)) : Prop where
  whole : ∃ cs, ps.length = cs.length + 1 ∧ interleave ps cs = ls
  cut_iff : ∀ front c back, ls = front ++ c :: back →
    (front.length ∈ cutPlaces ps ↔ c.isWord w = true ∧ depthAfter 0 front = 0)
  uncut : ∀ p ∈ ps, parts w 0 p = [p]

theorem cutPlaces_cons (p : List α) {ps : List (List α)} (h : ps ≠ []) :
    cutPlaces (p :: ps) = p.length :: (cutPlaces ps).map (p.length + 1 + ·) := by
  cases ps with
  | nil => exact absurd rfl h
  | cons q ps => rfl

/-- In a list that is one part, a word `w` stands in parentheses. -/
theorem not_cut_of_whole {w : Text} {d : Nat} {front back : List Lexeme} {c : Lexeme}
    (h : parts w d (front ++ c :: back) = [front ++ c :: back]) :
    ¬(c.isWord w = true ∧ depthAfter d front = 0) := by
  rintro ⟨hw, hd⟩
  obtain ⟨hcl, hcr⟩ := Lexeme.not_paren_of_isWord hw
  have hback := (parts_of_append h).2
  rw [hd] at hback
  simp [parts, hcl, hcr, hw] at hback

theorem splitAt_whole {w : Text} {ls : List Lexeme} (h : parts w 0 ls = [ls]) :
    SplitAt w ls [ls] where
  whole := ⟨[], rfl, by simp [interleave]⟩
  cut_iff := by
    rintro front c back rfl
    simp only [cutPlaces, List.not_mem_nil, false_iff]
    exact not_cut_of_whole h
  uncut := by simpa using h

/-- Of two items in one list, one stands before the other, or they are the same. -/
theorem append_cons_cases {p rest front back : List α} {c x : α}
    (h : p ++ c :: rest = front ++ x :: back) :
    (∃ m, p = front ++ x :: m) ∨ (front = p ∧ x = c) ∨
      ∃ m, front = p ++ c :: m ∧ rest = m ++ x :: back := by
  rcases List.append_eq_append_iff.mp h with ⟨m, rfl, hm⟩ | ⟨m, rfl, hm⟩
  · cases m with
    | nil => exact .inr (.inl ⟨List.append_nil p, (List.cons.inj hm).1.symm⟩)
    | cons d m =>
      obtain ⟨rfl, hrest⟩ := List.cons.inj hm
      exact .inr (.inr ⟨m, rfl, hrest⟩)
  · cases m with
    | nil => exact .inr (.inl ⟨(List.append_nil front).symm, (List.cons.inj hm).1⟩)
    | cons d m =>
      obtain ⟨rfl, -⟩ := List.cons.inj hm
      exact .inl ⟨m, rfl⟩

theorem SplitAt.cons {w : Text} {p rest : List Lexeme} {c : Lexeme} {ps : List (List Lexeme)}
    (hw : c.isWord w = true) (hp : parts w 0 p = [p]) (hd : depthAfter 0 p = 0) (hn : ps ≠ [])
    (h : SplitAt w rest ps) : SplitAt w (p ++ c :: rest) (p :: ps) where
  whole := by
    obtain ⟨cs, hlen, hwhole⟩ := h.whole
    exact ⟨c :: cs, by simp [hlen], by simp [interleave, hwhole]⟩
  cut_iff := by
    intro front x back he
    simp only [cutPlaces_cons p hn, List.mem_cons, List.mem_map]
    rcases append_cons_cases he with ⟨m, rfl⟩ | ⟨rfl, rfl⟩ | ⟨m, rfl, hrest⟩
    · have hnone := not_cut_of_whole hp
      simp only [List.length_append, List.length_cons]
      constructor
      · rintro (hlen | ⟨i, -, hlen⟩) <;> omega
      · exact fun hcut => absurd hcut hnone
    · exact iff_of_true (.inl rfl) ⟨hw, hd⟩
    · have hdepth : depthAfter 0 (p ++ c :: m) = depthAfter 0 m := by
        obtain ⟨hcl, hcr⟩ := Lexeme.not_paren_of_isWord hw
        rw [depthAfter_append, hd]
        simp [depthAfter, hcl, hcr]
      rw [hdepth, ← h.cut_iff m x back hrest, List.length_append, List.length_cons]
      constructor
      · rintro (hlen | ⟨i, hi, hlen⟩)
        · omega
        · obtain rfl : i = m.length := by omega
          exact hi
      · exact fun hm => .inr ⟨m.length, hm, by omega⟩
  uncut := List.forall_mem_cons.mpr ⟨hp, h.uncut⟩

theorem splitAt_parts (w : Text) (ls : List Lexeme) : SplitAt w ls (parts w 0 ls) := by
  refine parts_induction (fun ls => splitAt_whole) ?_ ls
  intro p c rest hw hp hd ih
  exact ih.cons hw hp hd (parts_ne_nil w 0 rest)

/-! ### Reading in rounds -/

namespace Reading

/-- One round of reading, where `read` stands for the reading of what is in parentheses. -/
def round (read : List Lexeme → Reading) (ls : List Lexeme) : Reading :=
  chain .either <| (parts "or".toList 0 ls).map fun part =>
    chain .both <| (parts "and".toList 0 part).map fun piece =>
      match inside? piece with
      | some inner => .group (read inner)
      | none =>
        match marker? piece with
        | some holds => .marker holds
        | none => .atom piece

theorem ofLexemes_eq_round (ls : List Lexeme) : ofLexemes ls = round ofLexemes ls :=
  ofLexemes_eq ls

/-- What is read in a round is balanced, and two parentheses shorter at least. -/
theorem round_congr {f g : List Lexeme → Reading} {ls : List Lexeme}
    (h : ∀ inner, Balanced inner → inner.length + 2 ≤ ls.length → f inner = g inner) :
    round f ls = round g ls := by
  refine congrArg (chain .either) (List.map_congr_left fun part hpart => ?_)
  refine congrArg (chain .both) (List.map_congr_left fun piece hpiece => ?_)
  cases hi : inside? piece with
  | none => rfl
  | some inner =>
    obtain ⟨o, c, rfl, -, -, hb⟩ := inside?_eq_some_iff_balanced.mp hi
    have hlen := (length_of_mem_parts _ hpiece).trans (length_of_mem_parts part hpart)
    simp only [List.length_append, List.length_cons, List.length_nil] at hlen
    exact congrArg group (h inner hb (by omega))

/-- A list takes no more rounds than it has pairs of lexemes, and one. -/
theorem iterate_round (read : List Lexeme → Reading) {n : Nat} {ls : List Lexeme}
    (hn : ls.length < 2 * n) : (round^[n] read) ls = ofLexemes ls := by
  induction n generalizing ls with
  | zero => omega
  | succ n ih =>
    rw [Function.iterate_succ_apply', ofLexemes_eq_round]
    exact round_congr fun inner _ hlen => ih (by omega)

end Reading

namespace Bytewise

/-- The places `ms` in `s` are split, opened and judged as the lexemes `ls` on them are. -/
structure Tracks (s : Text) (ls : List Lexeme) (ms : List Mark) : Prop where
  parts : ∀ w, ∃ found, parts s w ms = some found ∧
    List.Forall₂ (Spans s) (WhereFilter.parts w 0 ls) found
  inside : ∃ found, inside? ms = some found ∧ Option.Rel (Spans s) (WhereFilter.inside? ls) found
  verdict : either s ms = some (Reading.ofLexemes ls).verdict

theorem Spans.tracks {s : Text} {ls : List Lexeme} {ms : List Mark} (h : Spans s ls ms) :
    Tracks s ls ms :=
  ⟨fun _ => parts_eq h, inside?_eq h, either_eq h⟩

end Bytewise

/-- A list is split at just the words outside its parentheses, and a group is what stands in one
pair of parentheses that belong together. So what a round of reading leaves to the next is
balanced and shorter, whatever the list, and the rounds come to an end. The readers that go by
offsets, with a count of their own, find the same. -/
theorem parts_and_groups_exact (ls : List Lexeme) :
    (∀ w, SplitAt w ls (parts w 0 ls)) ∧
    (∀ inner, inside? ls = some inner ↔
      ∃ o c, ls = o :: inner ++ [c] ∧ o.is .parenLeft = true ∧ c.is .parenRight = true ∧
        Balanced inner) ∧
    (Balanced ls → ∀ w, ∀ p ∈ parts w 0 ls, Balanced p) ∧
    (∀ f g, (∀ inner, Balanced inner → inner.length < ls.length → f inner = g inner) →
      Reading.round f ls = Reading.round g ls) ∧
    (∀ read n, ls.length < 2 * n → (Reading.round^[n] read) ls = Reading.ofLexemes ls) ∧
    ∀ s ms, Bytewise.Spans s ls ms → Bytewise.Tracks s ls ms := by
  refine ⟨fun w => splitAt_parts w ls, fun _ => inside?_eq_some_iff_balanced, fun h w => h.parts w,
    fun f g h => ?_, fun read n => Reading.iterate_round read, fun s ms => Bytewise.Spans.tracks⟩
  exact Reading.round_congr fun inner hb hlen => h inner hb (by omega)

/-- A parenthesis that closes nothing leaves the depth at zero, so the `or` behind it is a cut.
The one in the group is not, and what is in the group is balanced. -/
theorem parts_and_groups_exact_stray :
    ∃ found inner, scan "A) or (B or (C)) or D".toList = .ok found ∧
      scan "B or (C)".toList = .ok inner ∧
      cutPlaces (parts "or".toList 0 found.lexemes) = [2, 10] ∧
      SplitAt "or".toList found.lexemes (parts "or".toList 0 found.lexemes) ∧
      Balanced inner.lexemes ∧ (∀ p ∈ parts "or".toList 0 inner.lexemes, Balanced p) ∧
      Reading.round (Reading.round^[6] Reading.atom) found.lexemes =
        Reading.round Reading.ofLexemes found.lexemes ∧
      (Reading.round^[7] Reading.atom) found.lexemes = Reading.ofLexemes found.lexemes ∧
      Bytewise.Tracks "A) or (B or (C)) or D".toList found.lexemes
        (Bytewise.marksOf 0 found.lexemes) := by
  obtain ⟨found, hs, hcuts, hlen⟩ : ∃ found, scan "A) or (B or (C)) or D".toList = .ok found ∧
      cutPlaces (parts "or".toList 0 found.lexemes) = [2, 10] ∧ found.lexemes.length = 12 :=
    ⟨_, by cbv, by cbv, by decide⟩
  obtain ⟨inner, hi, hheight⟩ : ∃ inner, scan "B or (C)".toList = .ok inner ∧
      heightAfter? 0 inner.lexemes = some 0 := ⟨_, by cbv, by cbv⟩
  have hspans : Bytewise.Spans "A) or (B or (C)) or D".toList found.lexemes
      (Bytewise.marksOf 0 found.lexemes) := ⟨[], found.tail, (scan_text hs).symm, rfl⟩
  have hinner : Balanced inner.lexemes := balanced_iff.mpr hheight
  obtain ⟨hsplit, -, -, hcongr, hrounds, htracks⟩ := parts_and_groups_exact found.lexemes
  obtain ⟨-, -, hparts, -⟩ := parts_and_groups_exact inner.lexemes
  refine ⟨found, inner, hs, hi, hcuts, hsplit _, hinner, hparts hinner _, ?_,
    hrounds _ 7 (by omega), htracks _ _ hspans⟩
  refine hcongr _ _ fun ls _ hls => ?_
  obtain ⟨-, -, -, -, hshort, -⟩ := parts_and_groups_exact ls
  exact hshort _ 6 (by omega)

end WhereFilter
