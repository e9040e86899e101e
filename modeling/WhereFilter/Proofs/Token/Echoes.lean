import WhereFilter.Proofs.Layout.Tokens
import WhereFilter.Proofs.Token.Front
import WhereFilter.Proofs.Text.Segments

namespace WhereFilter

open Token (isGapChar)

/-! ### Texts that have the same tokens -/

/-- Two texts that go on alike behind a character each, neither of them white space, have the same
character there. -/
def Agree (s t : Text) : Prop :=
  ∀ u v c d z, s = u ++ c :: z → t = v ++ d :: z → isGapChar c = false → isGapChar d = false → c = d

theorem Agree.of_append {s t z : Text} (h : Agree (s ++ z) (t ++ z)) : Agree s t := by
  intro u v c d y hs ht
  exact h u v c d (y ++ z) (by simp [hs]) (by simp [ht])

/-- What follows a character stands in the end of a text, or the character does. -/
theorem append_eq_of_end {s w u z : Text} {c : Char} (h : s ++ w = u ++ c :: z) :
    (∃ x, s = u ++ c :: x ∧ z = x ++ w) ∨ ∃ x, w = x ++ c :: z := by
  rcases List.append_eq_append_iff.mp h with ⟨x, -, hw⟩ | ⟨x, hs, hz⟩
  · exact .inr ⟨x, hw⟩
  · cases x with
    | nil => exact .inr ⟨[], hz.symm⟩
    | cons a x =>
      obtain ⟨rfl, rfl⟩ := List.cons.inj hz
      exact .inl ⟨x, hs, rfl⟩

theorem Agree.append {s t : Text} (h : Agree s t) (w : Text) : Agree (s ++ w) (t ++ w) := by
  intro u v c d z hs ht hc hd
  rcases append_eq_of_end hs with ⟨x, rfl, rfl⟩ | ⟨x, hx⟩
  · rcases append_eq_of_end ht with ⟨y, rfl, hy⟩ | ⟨y, hy⟩
    · obtain rfl := List.append_cancel_right hy
      exact h _ _ _ _ _ rfl rfl hc hd
    · have hlen := congrArg List.length hy
      simp only [List.length_append, List.length_cons] at hlen
      omega
  · rcases append_eq_of_end ht with ⟨y, rfl, rfl⟩ | ⟨y, hy⟩
    · have hlen := congrArg List.length hx
      simp only [List.length_append, List.length_cons] at hlen
      omega
    · exact (List.cons.inj (List.append_inj_right' (hx.symm.trans hy) (by simp))).1

/-- A text does not end in white space. -/
def Solid (s : Text) : Prop :=
  s.getLast?.any isGapChar = false

/-- A text is its front and the run at its end in one way only. -/
theorem run_inj_right {p : α → Bool} {l l' r r' : List α} (hl : l.getLast?.any p = false)
    (hr : ∀ a ∈ r, p a = true) (hl' : l'.getLast?.any p = false) (hr' : ∀ a ∈ r', p a = true)
    (h : l ++ r = l' ++ r') : l = l' ∧ r = r' := by
  have hrev := congrArg List.reverse h
  rw [List.reverse_append, List.reverse_append] at hrev
  obtain ⟨hrun, hfront⟩ := run_inj (fun a ha => hr a (List.mem_reverse.mp ha)) (by simpa using hl)
    (fun a ha => hr' a (List.mem_reverse.mp ha)) (by simpa using hl') hrev
  exact ⟨List.reverse_injective hfront, List.reverse_injective hrun⟩

theorem getLast?_concat_any {p : α → Bool} {a : α} (ha : p a = false) (l : List α) :
    (l ++ [a]).getLast?.any p = false := by
  simpa using ha

theorem Agree.append_gaps {s t g h : Text} (hst : Agree s t) (hs : Solid s) (hg : IsGap g)
    (ht : Solid t) (hh : IsGap h) : Agree (s ++ g) (t ++ h) := by
  intro u v c d z hu hv hc hd
  have hbefore {s g u : Text} {c : Char} (hg : IsGap g) (hc : isGapChar c = false)
      (h : s ++ g = u ++ c :: z) : ∃ x, s = u ++ c :: x ∧ z = x ++ g := by
    rcases append_eq_of_end h with hx | ⟨x, rfl⟩
    · exact hx
    · rw [hg c (by simp)] at hc
      cases hc
  have hsolid {u x : Text} {c : Char} (hc : isGapChar c = false) (h : Solid (u ++ c :: x)) :
      Solid x := by
    cases x with
    | nil => rfl
    | cons a x =>
      rw [List.append_cons] at h
      rwa [Solid, List.getLast?_append_of_ne_nil _ (by simp)] at h
  obtain ⟨x, rfl, rfl⟩ := hbefore hg hc hu
  obtain ⟨y, rfl, hy⟩ := hbefore hh hd hv
  obtain ⟨rfl, -⟩ := run_inj_right (hsolid hc hs) hg (hsolid hd ht) hh hy
  exact hst _ _ _ _ _ rfl rfl hc hd

theorem Token.Formed.solid {t : Token} (ht : t.Formed) (u : Text) : Solid (u ++ t.text) := by
  obtain ⟨c, r, hhead, -⟩ := ht.head
  rw [Solid, List.getLast?_append_of_ne_nil _ (by simp [hhead])]
  have hall (h : ∀ c ∈ t.text, isGapChar c = false) : t.text.getLast?.any isGapChar = false := by
    cases hlast : t.text.getLast? with
    | none => rfl
    | some d => exact h d (List.mem_of_getLast? hlast)
  obtain ⟨kind, text⟩ := t
  cases kind
  case word => exact hall fun c hc => not_isGapChar_of_isNameChar (ht.word.2 c hc)
  case number => exact hall (solid_numeral ht)
  case literal | quoted =>
    obtain ⟨b, -, rfl⟩ := ht
    rw [List.getLast?_concat]
    rfl
  case other =>
    obtain ⟨a, rfl, ha⟩ := ht
    cases hgap : isGapChar a with
    | false => simpa using hgap
    | true => simp [isOtherChar, hgap] at ha
  all_goals exact hall (solid_sign ht)

theorem agree_of_tokens {ls ms : List Lexeme} {g h : Text}
    (htokens : ls.map Lexeme.token = ms.map Lexeme.token)
    (hls : ∀ l ∈ ls, IsGap l.gap ∧ l.token.Formed) (hms : ∀ m ∈ ms, IsGap m.gap)
    (hg : IsGap g) (hh : IsGap h) :
    Agree (ls.flatMap Lexeme.text ++ g) (ms.flatMap Lexeme.text ++ h) := by
  induction ls using List.reverseRecOn generalizing ms g h with
  | nil =>
    obtain rfl : ms = [] := by simpa using htokens.symm
    intro u v c d z hu _ hc
    rw [hg c (by rw [← List.nil_append g]; simp at hu; simp [hu])] at hc
    cases hc
  | append_singleton ls l ih =>
    rw [List.map_append, List.map_singleton] at htokens
    obtain ⟨ms, last, rfl, hfront, hlast⟩ := List.map_eq_append_iff.mp htokens.symm
    obtain ⟨m, rfl, htoken⟩ := List.map_eq_singleton_iff.mp hlast
    simp only [List.mem_append, List.mem_singleton] at hls hms
    have hbefore := ih hfront.symm (fun l hl => hls l (.inl hl)) (fun m hm => hms m (.inl hm))
      (hls l (.inr rfl)).1 (hms m (.inr rfl))
    have hsolid := (hls l (.inr rfl)).2.solid
    have htext (xs : List Lexeme) (x : Lexeme) :
        (xs ++ [x]).flatMap Lexeme.text = (xs.flatMap Lexeme.text ++ x.gap) ++ x.token.text := by
      simp [Lexeme.text]
    rw [htext, htext, htoken]
    exact (hbefore.append _).append_gaps (hsolid _) hg (hsolid _) hh

/-! ### Hits among characters and hits among tokens -/

namespace Pattern

/-- The parts that a text falls into where its tokens fall into `parts`: a hit stands behind the
gap `gap b`, and all else is read character by character. -/
def spellOut (gap : β → Text) (hit : β → δ) (tail : Text) (parts : List (Segment Lexeme β)) :
    List (Segment Char δ) :=
  (parts.flatMap fun
    | .item l => l.text.map .item
    | .hit b => (gap b).map .item ++ [.hit (hit b)]) ++ tail.map .item

section

variable {gap : β → Text} {hit : β → δ} {tail : Text}

theorem spellOut_item (l : Lexeme) (parts : List (Segment Lexeme β)) :
    spellOut gap hit tail (.item l :: parts) =
      l.text.map .item ++ spellOut gap hit tail parts := by
  simp [spellOut]

theorem spellOut_hit (b : β) (parts : List (Segment Lexeme β)) :
    spellOut gap hit tail (.hit b :: parts) =
      (gap b).map .item ++ .hit (hit b) :: spellOut gap hit tail parts := by
  simp [spellOut]

/-- The text of the lexemes falls into hits of `p` and single characters as the lexemes fall into hits
of `q` and others. -/
def Parted (p : Pattern Char δ) (q : Pattern Lexeme β) (gap : β → Text) (hit : β → δ)
    (ls : List Lexeme) (tail : Text) : Prop :=
  p.segments (ls.flatMap Lexeme.text ++ tail) = spellOut gap hit tail (q.segments ls)

/-- What is written for the parts of a text. -/
def written (write : δ → Text) (parts : List (Segment Char δ)) : Text :=
  parts.flatMap fun
    | .item c => [c]
    | .hit d => write d

theorem replace_eq_written (p : Pattern Char δ) (write : δ → Text) (s : Text) :
    p.replace write s = written write (p.segments s) := by
  rw [replace, render, written]
  congr 1
  funext part
  cases part <;> rfl

theorem written_spellOut {q : Pattern Lexeme β} {write : δ → Text} {lexemes : β → List Lexeme}
    (hwrite : ∀ b, (lexemes b).flatMap Lexeme.text = gap b ++ write (hit b)) (ls : List Lexeme) :
    written write (spellOut gap hit tail (q.segments ls)) =
      (q.replace lexemes ls).flatMap Lexeme.text ++ tail := by
  rw [replace, render]
  induction q.segments ls with
  | nil => simp [written, spellOut, List.flatMap_map]
  | cons part parts ih =>
    rw [written] at ih ⊢
    cases part with
    | item l => simp [spellOut_item, List.flatMap_map, ih]
    | hit b => simp [spellOut_hit, List.flatMap_map, ih, hwrite]

/-- A text that falls into the same parts as its tokens is written as they are. -/
theorem replace_of_spellOut {p : Pattern Char δ} {q : Pattern Lexeme β} {write : δ → Text}
    {lexemes : β → List Lexeme} {s : Text} {ls : List Lexeme}
    (hwrite : ∀ b, (lexemes b).flatMap Lexeme.text = gap b ++ write (hit b))
    (h : p.segments s = spellOut gap hit tail (q.segments ls)) :
    p.replace write s = (q.replace lexemes ls).flatMap Lexeme.text ++ tail := by
  rw [← written_spellOut hwrite, ← h, replace_eq_written]

end

/-- The text is what the parts are read from: `call w d` says that `w` is taken for the hit `d`. -/
inductive ReadFrom (call : Text → δ → Prop) : Text → List (Segment Char δ) → Prop
  | nil : ReadFrom call [] []
  | item (c : Char) {s parts} (h : ReadFrom call s parts) :
    ReadFrom call (s ++ [c]) (parts ++ [.item c])
  | hit {w d s parts} (hw : call w d) (h : ReadFrom call s parts) :
    ReadFrom call (s ++ w) (parts ++ [.hit d])

section

variable {call : Text → δ → Prop}

theorem ReadFrom.append {s t : Text} {ps qs : List (Segment Char δ)} (hs : ReadFrom call s ps)
    (ht : ReadFrom call t qs) : ReadFrom call (s ++ t) (ps ++ qs) := by
  induction ht with
  | nil => simpa using hs
  | item c _ ih => simpa only [List.append_assoc] using ih.item c
  | hit hw _ ih => simpa only [List.append_assoc] using ih.hit hw

theorem readFrom_items (s : Text) : ReadFrom call s (s.map .item) := by
  induction s using List.reverseRecOn with
  | nil => exact .nil
  | append_singleton s c ih => simpa using ih.item c

theorem readFrom_hit {w : Text} {d : δ} (hw : call w d) : ReadFrom call w [.hit d] :=
  ReadFrom.nil.hit hw

theorem readFrom_segments {p : Pattern Char δ} (hf : p.Forward) (ha : p.Advances)
    (hcall : ∀ s d rest, p none s = some (d, rest) → ∃ w, s = w ++ rest ∧ call w d) (s : Text) :
    ReadFrom call s (p.segments s) := by
  induction hn : s.length using Nat.strongRecOn generalizing s with
  | ind n ih =>
  subst hn
  rcases segments_cases hf ha s with rfl | ⟨c, r, rfl, -, hseg⟩ | ⟨d, front, r, hne, rfl, hhit, hseg⟩
  · exact .nil
  · rw [hseg]
    exact (readFrom_items [c]).append (ih r.length (by simp) r rfl)
  · obtain ⟨w, hw, hd⟩ := hcall _ _ _ hhit
    obtain rfl := List.append_cancel_right hw
    have hpos := List.length_pos_iff.mpr hne
    rw [hseg]
    exact (readFrom_hit hd).append (ih r.length (by simp; omega) r rfl)

/-- What is cut shows at its end, and one place where a cut ends has one cut. -/
structure Cuts (call : Text → δ → Prop) (write : δ → Text) : Prop where
  ends : ∀ {w d}, call w d → ∃ u a v b, w = u ++ [a] ∧ write d = v ++ [b] ∧
    isGapChar a = false ∧ isGapChar b = false ∧ a ≠ b
  unique : ∀ {w d w' d' u u'}, call w d → call w' d' → u ++ w = u' ++ w' → u = u' ∧ d = d'

/-- From the end on, both readings have the same parts as long as the same is written. -/
theorem ReadFrom.eq {write : δ → Text} (hc : Cuts call write) {s t : Text}
    {ps qs : List (Segment Char δ)} (hs : ReadFrom call s ps) (ht : ReadFrom call t qs) (hst : s = t)
    (hagree : Agree (written write ps) (written write qs)) : ps = qs := by
  have hlast (ps : List (Segment Char δ)) (p : Segment Char δ) :
      written write (ps ++ [p]) = written write ps ++ written write [p] := by simp [written]
  have hone {d : δ} : written write [.hit d] = write d := by simp [written]
  induction hs generalizing t qs with
  | nil =>
    cases ht with
    | nil => rfl
    | item c _ => simp at hst
    | hit hw _ =>
      obtain ⟨u, a, -, -, rfl, -⟩ := hc.ends hw
      simp at hst
  | @item c s ps h ih =>
    cases ht with
    | nil => simp at hst
    | item c' h' =>
      obtain ⟨hfront, hcc⟩ := List.append_inj' hst rfl
      obtain rfl := List.singleton_inj.mp hcc
      rw [hlast, hlast] at hagree
      rw [ih h' hfront hagree.of_append]
    | @hit w d t qs hw h' =>
      obtain ⟨u, a, v, b, rfl, hwrite, ha, hb, hab⟩ := hc.ends hw
      rw [← List.append_assoc] at hst
      obtain ⟨-, hca⟩ := List.append_inj' hst rfl
      rw [List.singleton_inj.mp hca, hlast, hlast, hone, hwrite, ← List.append_assoc] at hagree
      exact absurd (hagree _ _ a b [] rfl rfl ha hb) hab
  | @hit w d s ps hw h ih =>
    cases ht with
    | nil =>
      obtain ⟨u, a, -, -, rfl, -⟩ := hc.ends hw
      simp at hst
    | item c' h' =>
      obtain ⟨u, a, v, b, rfl, hwrite, ha, hb, hab⟩ := hc.ends hw
      rw [← List.append_assoc] at hst
      obtain ⟨-, hca⟩ := List.append_inj' hst rfl
      rw [← List.singleton_inj.mp hca, hlast, hlast, hone, hwrite, ← List.append_assoc] at hagree
      exact absurd (hagree _ _ b a [] rfl rfl hb ha).symm hab
    | hit hw' h' =>
      obtain ⟨hfront, rfl⟩ := hc.unique hw hw' hst
      rw [hlast, hlast] at hagree
      rw [ih h' hfront hagree.of_append]

end

/-- A pattern of tokens whose hits are calls among the characters: behind the gap `gap b` stands
what `p` would take for the hit `hit b`, and the same is written for both. -/
structure Echoes (p : Pattern Char δ) (write : δ → Text) (q : Pattern Lexeme β)
    (lexemes : β → List Lexeme) (gap : β → Text) (hit : β → δ) : Prop where
  forward : p.Forward
  advances : p.Advances
  forward_tokens : q.Forward
  advances_tokens : q.Advances
  writes : ∀ b, (lexemes b).flatMap Lexeme.text = gap b ++ write (hit b)
  formed : ∀ {ls b rest}, q none ls = some (b, rest) →
    (∀ l ∈ ls, IsGap l.gap ∧ l.token.Formed) → ∀ l ∈ lexemes b, IsGap l.gap ∧ l.token.Formed
  calls : ∃ call, Cuts call write ∧
    (∀ s d rest, p none s = some (d, rest) → ∃ w, s = w ++ rest ∧ call w d) ∧
    ∀ front b rest, q none (front ++ rest) = some (b, rest) →
      (∀ l ∈ front, IsGap l.gap ∧ l.token.Formed) →
      ∃ w, front.flatMap Lexeme.text = gap b ++ w ∧ call w (hit b)

namespace Echoes

variable {p : Pattern Char δ} {write : δ → Text} {q : Pattern Lexeme β}
  {lexemes : β → List Lexeme} {gap : β → Text} {hit : β → δ} {ls : List Lexeme} {tail : Text}

theorem formed_replace (h : Echoes p write q lexemes gap hit)
    (hls : ∀ l ∈ ls, IsGap l.gap ∧ l.token.Formed) :
    ∀ l ∈ q.replace lexemes ls, IsGap l.gap ∧ l.token.Formed := by
  induction hn : ls.length using Nat.strongRecOn generalizing ls with
  | ind n ih =>
  subst hn
  rcases segments_cases h.forward_tokens h.advances_tokens ls with
    rfl | ⟨l, ls, rfl, -, hseg⟩ | ⟨b, front, rest, hne, rfl, hhit, hseg⟩
  · exact hls
  · rw [replace_of_item hseg]
    obtain ⟨hl, hls⟩ := List.forall_mem_cons.mp hls
    exact List.forall_mem_cons.mpr ⟨hl, ih ls.length (by simp) hls rfl⟩
  · rw [replace_of_hit hseg]
    have hpos := List.length_pos_iff.mpr hne
    have hrest := ih rest.length (by simp; omega)
      (fun l hl => hls l (List.mem_append_right _ hl)) rfl
    exact List.forall_mem_append.mpr ⟨h.formed hhit hls, hrest⟩

theorem readFrom_spellOut (h : Echoes p write q lexemes gap hit) {call : Text → δ → Prop}
    (hcalls : ∀ front b rest, q none (front ++ rest) = some (b, rest) →
      (∀ l ∈ front, IsGap l.gap ∧ l.token.Formed) →
      ∃ w, front.flatMap Lexeme.text = gap b ++ w ∧ call w (hit b))
    (hls : ∀ l ∈ ls, IsGap l.gap ∧ l.token.Formed) :
    ReadFrom call (ls.flatMap Lexeme.text ++ tail) (spellOut gap hit tail (q.segments ls)) := by
  induction hn : ls.length using Nat.strongRecOn generalizing ls with
  | ind n ih =>
  subst hn
  rcases segments_cases h.forward_tokens h.advances_tokens ls with
    rfl | ⟨l, ls, rfl, -, hseg⟩ | ⟨b, front, rest, hne, rfl, hhit, hseg⟩
  · have htail : ReadFrom call tail (tail.map .item) := readFrom_items tail
    simpa [spellOut] using htail
  · rw [hseg, spellOut_item, List.flatMap_cons, List.append_assoc]
    have hrest := ih ls.length (by simp) (List.forall_mem_cons.mp hls).2 rfl
    exact (readFrom_items l.text).append hrest
  · obtain ⟨hfront, hback⟩ := List.forall_mem_append.mp hls
    obtain ⟨w, htext, hw⟩ := hcalls front b rest hhit hfront
    have hpos := List.length_pos_iff.mpr hne
    have hrest := ih rest.length (by simp; omega) hback rfl
    rw [hseg, spellOut_hit, List.flatMap_append, htext, List.append_assoc, List.append_assoc]
    exact (readFrom_items (gap b)).append ((readFrom_hit hw).append hrest)

/-- Where the pass reads the tokens right, what it cuts is what the pattern of tokens cuts. -/
theorem tokensOf_replace_iff (h : Echoes p write q lexemes gap hit) (hfit : Fit ls tail)
    (htail : IsGap tail) :
    tokensOf (p.replace write (ls.flatMap Lexeme.text ++ tail)) =
        .ok ((q.replace lexemes ls).map Lexeme.token) ↔
      p.Parted q gap hit ls tail ∧ Fit (q.replace lexemes ls) tail := by
  have hls : ∀ l ∈ ls, IsGap l.gap ∧ l.token.Formed :=
    fun l hl => ⟨hfit.gap_of_mem hl, hfit.formed_of_mem hl⟩
  have hformed := h.formed_replace hls
  have hread : tokensOf ((q.replace lexemes ls).flatMap Lexeme.text ++ tail) =
      .ok ((q.replace lexemes ls).map Lexeme.token) ↔ Fit (q.replace lexemes ls) tail := by
    have hiff := @tokensOf_lexemes_append_iff _ tail [] hformed
    rwa [List.append_nil, and_iff_left (tokensOf_gap htail)] at hiff
  constructor
  · intro htokens
    obtain ⟨call, hcuts, hchars, hcalls⟩ := h.calls
    obtain ⟨ms, g, htext, hms, hg, hsame⟩ := tokensOf_eq_ok_iff.mp htokens
    have hagree : Agree (written write (p.segments (ls.flatMap Lexeme.text ++ tail)))
        (written write (spellOut gap hit tail (q.segments ls))) := by
      rw [written_spellOut h.writes, ← replace_eq_written, htext]
      exact agree_of_tokens hsame
        (fun m hm => ⟨hms.gap_of_mem hm, hms.formed_of_mem hm⟩)
        (fun l hl => (hformed l hl).1) hg htail
    have hparts := (readFrom_segments h.forward h.advances hchars _).eq hcuts
      (h.readFrom_spellOut hcalls hls) rfl hagree
    rw [replace_of_spellOut h.writes hparts, hread] at htokens
    exact ⟨hparts, htokens⟩
  · rintro ⟨hparts, hreplaced⟩
    rw [replace_of_spellOut h.writes hparts]
    exact hread.mpr hreplaced

end Echoes

end Pattern

end WhereFilter
