import WhereFilter.Proofs.Token.Munch

namespace WhereFilter

variable {α : Type} {feed ret : α}

/-- A text as the lines in it: each ends at `feed`, with one `ret` right before that belonging
to the end, and what is left behind the last end is a line of its own. -/
inductive Lined (feed ret : α) : List α → List (List α) → Prop
  | nil : Lined feed ret [] []
  | last {l : List α} (hn : l ≠ []) (hl : feed ∉ l) : Lined feed ret l [l]
  | plain {l r : List α} {ls : List (List α)} (hl : feed ∉ l) (hr : l.getLast? ≠ some ret)
      (h : Lined feed ret r ls) : Lined feed ret (l ++ feed :: r) (l :: ls)
  | returned {l r : List α} {ls : List (List α)} (hl : feed ∉ l) (h : Lined feed ret r ls) :
      Lined feed ret (l ++ ret :: feed :: r) (l :: ls)

theorem Lined.feed_not_mem {input : List α} {ls : List (List α)} (h : Lined feed ret input ls) :
    ∀ l ∈ ls, feed ∉ l := by
  induction h with
  | nil => simp
  | last _ hl => simpa using hl
  | plain hl _ _ ih => exact List.forall_mem_cons.mpr ⟨hl, ih⟩
  | returned hl _ ih => exact List.forall_mem_cons.mpr ⟨hl, ih⟩

/-- The first line grows to the front. -/
theorem Lined.cons {c d : α} {r : List α} {ls : List (List α)} (hc : c ≠ feed)
    (hcd : ¬(c = ret ∧ d = feed)) (h : Lined feed ret (d :: r) ls) :
    Lined feed ret (c :: d :: r) (consFirst c ls) := by
  generalize hi : d :: r = input at h
  cases h with
  | nil => cases hi
  | last hn hl =>
    refine .last (by simp) ?_
    rw [List.mem_cons, not_or]
    exact ⟨Ne.symm hc, hl⟩
  | @plain l r' ls hl hr h =>
    have hmem : feed ∉ c :: l := by
      rw [List.mem_cons, not_or]
      exact ⟨Ne.symm hc, hl⟩
    refine .plain (l := c :: l) hmem ?_ h
    cases l with
    | nil =>
      intro he
      have hd : d = feed := (List.cons.inj hi).1
      exact hcd ⟨by simpa using he, hd⟩
    | cons a l => simpa using hr
  | @returned l r' ls hl h =>
    have hmem : feed ∉ c :: l := by
      rw [List.mem_cons, not_or]
      exact ⟨Ne.symm hc, hl⟩
    exact .returned (l := c :: l) hmem h

variable [DecidableEq α]

theorem lined_lines (feed ret : α) (input : List α) :
    Lined feed ret input (lines feed ret input) := by
  fun_induction lines feed ret input with
  | case1 => exact .nil
  | case2 => exact .plain (l := []) (by simp) (by simp) .nil
  | case3 c hc => exact .last (by simp) (by simpa using Ne.symm hc)
  | case4 d r ih => exact .plain (l := []) (by simp) (by simp) ih
  | case5 c d r hc hcd ih =>
    obtain ⟨rfl, rfl⟩ := hcd
    exact .returned (l := []) (by simp) ih
  | case6 c d r hc hcd ih => exact ih.cons hc hcd

theorem lines_cons {c d : α} {r : List α} (hc : c ≠ feed) (hcd : ¬(c = ret ∧ d = feed)) :
    lines feed ret (c :: d :: r) = consFirst c (lines feed ret (d :: r)) := by
  rw [lines, if_neg hc, if_neg hcd]

theorem lines_of_not_mem {l : List α} (hn : l ≠ []) (hl : feed ∉ l) : lines feed ret l = [l] := by
  induction l with
  | nil => exact absurd rfl hn
  | cons c l ih =>
    simp only [List.mem_cons, not_or] at hl
    cases l with
    | nil => simp [lines, Ne.symm hl.1]
    | cons d l =>
      have hd : d ≠ feed := fun he => hl.2 (by simp [he])
      rw [lines_cons (Ne.symm hl.1) fun he => hd he.2, ih (by simp) hl.2]
      rfl

theorem lines_feed (r : List α) : lines feed ret (feed :: r) = [] :: lines feed ret r := by
  cases r <;> simp [lines]

theorem lines_plain {l : List α} (hl : feed ∉ l) (hr : l.getLast? ≠ some ret) (r : List α) :
    lines feed ret (l ++ feed :: r) = l :: lines feed ret r := by
  induction l with
  | nil => exact lines_feed r
  | cons c l ih =>
    simp only [List.mem_cons, not_or] at hl
    cases l with
    | nil =>
      have hc : c ≠ ret := by simpa using hr
      rw [List.cons_append, List.nil_append, lines_cons (Ne.symm hl.1) fun he => hc he.1,
        lines_feed]
      rfl
    | cons d l =>
      have hd : d ≠ feed := fun he => hl.2 (by simp [he])
      have hrest := ih hl.2 (by simpa using hr)
      rw [List.cons_append] at hrest
      rw [List.cons_append, List.cons_append, lines_cons (Ne.symm hl.1) fun he => hd he.2, hrest]
      rfl

theorem lines_returned (h : ret ≠ feed) {l : List α} (hl : feed ∉ l) (r : List α) :
    lines feed ret (l ++ ret :: feed :: r) = l :: lines feed ret r := by
  induction l with
  | nil => simp [lines, h]
  | cons c l ih =>
    simp only [List.mem_cons, not_or] at hl
    have hrest := ih hl.2
    cases l with
    | nil =>
      rw [List.nil_append] at hrest
      rw [List.cons_append, List.nil_append, lines_cons (Ne.symm hl.1) fun he => h he.2, hrest]
      rfl
    | cons d l =>
      have hd : d ≠ feed := fun he => hl.2 (by simp [he])
      rw [List.cons_append] at hrest
      rw [List.cons_append, List.cons_append, lines_cons (Ne.symm hl.1) fun he => hd he.2, hrest]
      rfl

/-- There is one way to see a text as lines, and it is found. -/
theorem lined_iff (h : ret ≠ feed) {input : List α} {ls : List (List α)} :
    Lined feed ret input ls ↔ lines feed ret input = ls := by
  constructor
  · intro hl
    induction hl with
    | nil => rfl
    | last hn hl => exact lines_of_not_mem hn hl
    | plain hl hr _ ih => rw [lines_plain hl hr, ih]
    | returned hl _ ih => rw [lines_returned h hl, ih]
  · rintro rfl
    exact lined_lines feed ret input

end WhereFilter
