import WhereFilter.Proofs.Bytewise.Rewrite
import WhereFilter.Proofs.Token.Unclosed
import WhereFilter.Token.Cursor

namespace WhereFilter

open Text (bytes size)

namespace Text

theorem head?_encode (c : Char) :
    (String.utf8EncodeChar c).head?.map UInt8.toNat = some (leadByte c) := by
  -- the widest form keeps three bits for its first byte, which is enough up to U+10FFFF
  have hvalid : c.toNat < 1114112 := by
    rcases c.valid with h | h
    · exact Nat.lt_trans h (by decide)
    · exact h.2
  have hn : c.val.toNat = c.toNat := rfl
  unfold String.utf8EncodeChar leadByte Char.utf8Size
  simp only [UInt32.le_iff_toNat_le, hn, UInt32.toNat_ofNatLT]
  split_ifs
  all_goals
    simp only [List.head?_cons, Option.map_some, UInt8.toNat_ofNat', Option.some.injEq]
    omega

end Text

/-- What a reader of the bytes sees where a cursor gives `found`. -/
def Bytewise.sightOf : Except Unclosed (Option Placed) → Sight
  | .ok none => .done
  | .ok (some p) => .mark (Placed.mark p)
  | .error e => .unclosed e.offset

namespace Cursor

/-- The cursor stands between two characters of `s`, and tells of `s` what its bytes tell from
the offset on. -/
structure Faithful (s : Text) (c : Cursor) : Prop where
  bounded : c.offset ≤ size s
  boundary : s.dropBytes? c.offset = some c.rest
  peek : c.peek? = (bytes s)[c.offset]?.map UInt8.toNat
  atEnd : c.isAtEnd = decide ((bytes s).length ≤ c.offset)
  skip : ∀ a : Char, a.toNat < 128 →
    (c.skip? a).map Cursor.offset = Bytewise.skip? a (bytes s) c.offset
  next : Bytewise.next (bytes s) c.offset = some (Bytewise.sightOf c.next.1)

/-- The token `p` comes next at `c`, and `d` is the cursor behind it. -/
structure Reads (s : Text) (c : Cursor) (p : Placed) (d : Cursor) : Prop where
  behind : c.offset ≤ p.start
  nonempty : p.start < p.stop
  bounded : p.stop ≤ size s
  stops : d.offset = p.stop
  source : Bytewise.source? s (Bytewise.Placed.mark p) = some p.token.text
  contents : Bytewise.contents? s (Bytewise.Placed.mark p) = some p.token.contents
  quotes : ∀ q : Char, p.token.kind = .literal ∧ q = '\'' ∨ p.token.kind = .quoted ∧ q = '"' →
    p.token.text = q :: p.token.contents ++ [q]

/-- Nothing is left of `s`. -/
def atEndOf (s : Text) : Cursor :=
  ⟨size s, []⟩

variable {s : Text} {c d : Cursor} {p : Placed} {e : Unclosed}

/-! What comes next -/

theorem next_of_done {gap : Text} (h : step c.rest = .done gap) :
    c.next = (.ok none, ⟨c.offset + size gap, []⟩) := by
  rw [next, h]

theorem next_of_unclosed {gap : Text} (h : step c.rest = .unclosed gap) :
    c.next = (.error ⟨c.offset + size gap⟩, ⟨c.offset + size c.rest, []⟩) := by
  rw [next, h]

theorem next_of_lexeme {l : Lexeme} {rest : Text} (h : step c.rest = .lexeme l rest) :
    c.next = (.ok (some ⟨l.token, c.offset + size l.gap, c.offset + size l.text⟩),
      ⟨c.offset + size l.text, rest⟩) := by
  rw [next, h]
  simp [Lexeme.text, Nat.add_assoc]

theorem Within.size_eq (h : Within s c) : c.offset + size c.rest = size s := by
  obtain ⟨passed, rfl, ho⟩ := h
  rw [ho, Text.size_append]

theorem peek?_bytes (u r : Text) :
    peek? ⟨size u, r⟩ = (bytes (u ++ r))[size u]?.map UInt8.toNat := by
  rw [Bytewise.getElem?_bytes, peek?]
  cases r with
  | nil => rfl
  | cons a r =>
    have hlead := Text.head?_encode a
    rw [Text.bytes_cons]
    cases he : String.utf8EncodeChar a with
    | nil => simp [he] at hlead
    | cons b bs => simpa [he] using hlead.symm

theorem isAtEnd_bytes (u r : Text) :
    isAtEnd ⟨size u, r⟩ = decide ((bytes (u ++ r)).length ≤ size u) := by
  rw [Text.length_bytes, Text.size_append, isAtEnd]
  cases r with
  | nil => simp
  | cons a r =>
    have hpos := a.utf8Size_pos
    simp
    omega

theorem skip?_bytes {a : Char} (ha : a.toNat < 128) (u r : Text) :
    (skip? a ⟨size u, r⟩).map Cursor.offset = Bytewise.skip? a (bytes (u ++ r)) (size u) := by
  rw [Bytewise.skip?_bytes ha]
  cases r with
  | nil => rfl
  | cons b r =>
    by_cases hb : b = a
    · have hone : a.utf8Size = 1 := by simpa using Bytewise.size_concat ha []
      simp [skip?, hb, hone]
    · simp [skip?, hb]

theorem next_bytes (u r : Text) :
    Bytewise.next (bytes (u ++ r)) (size u) = some (Bytewise.sightOf (next ⟨size u, r⟩).1) := by
  rw [Bytewise.next_bytes]
  cases hs : step r with
  | done gap => rw [next_of_done hs]; rfl
  | unclosed gap => rw [next_of_unclosed hs]; rfl
  | lexeme l rest => rw [next_of_lexeme hs]; rfl

theorem Within.faithful (h : Within s c) : Faithful s c := by
  obtain ⟨offset, rest⟩ := c
  obtain ⟨passed, rfl, ho⟩ := h
  obtain rfl : offset = size passed := ho
  exact {
    bounded := by simp
    boundary := Text.dropBytes?_size passed rest
    peek := peek?_bytes passed rest
    atEnd := isAtEnd_bytes passed rest
    skip := fun _ ha => skip?_bytes ha passed rest
    next := next_bytes passed rest }

/-- All that can come next. -/
theorem next_cases (c : Cursor) :
    c.next = (.ok none, ⟨c.offset + size c.rest, []⟩) ∨
    (∃ e : Unclosed, c.offset ≤ e.offset ∧ e.offset < c.offset + size c.rest ∧
      c.next = (.error e, ⟨c.offset + size c.rest, []⟩)) ∨
    ∃ l rest, step c.rest = .lexeme l rest ∧
      c.next = (.ok (some ⟨l.token, c.offset + size l.gap, c.offset + size l.text⟩),
        ⟨c.offset + size l.text, rest⟩) := by
  cases hstep : step c.rest with
  | done gap =>
    have hnext := next_of_done hstep
    rw [← step_done hstep] at hnext
    exact .inl hnext
  | unclosed gap =>
    obtain ⟨q, rest, hrest, -⟩ := step_eq_unclosed_iff.mp hstep
    have hq := q.utf8Size_pos
    refine .inr (.inl ⟨⟨c.offset + size gap⟩, Nat.le_add_right _ _, ?_, next_of_unclosed hstep⟩)
    simp [hrest, hq]
  | lexeme l rest => exact .inr (.inr ⟨l, rest, rfl, next_of_lexeme hstep⟩)

theorem Within.reads (h : Within s c) (hp : c.next.1 = .ok (some p)) : Reads s c p c.next.2 := by
  obtain ⟨passed, hs, ho⟩ := h
  rcases c.next_cases with hnext | ⟨e, -, -, hnext⟩ | ⟨l, rest, hstep, hnext⟩
  · rw [hnext] at hp
    cases hp
  · rw [hnext] at hp
    cases hp
  · rw [hnext] at hp ⊢
    cases hp
    obtain ⟨hrest, hne⟩ := step_lexeme hstep
    have hformed := (fit_of_step hstep).2.1
    have hpos : size l.token.text ≠ 0 := fun hz => hne (Text.size_eq_zero.mp hz)
    have hsplit : s = passed ++ (l.text ++ rest) := by rw [hs, hrest]
    have hmark : Bytewise.Placed.mark
        ⟨l.token, c.offset + size l.gap, c.offset + size l.text⟩ =
          Bytewise.markOf (size passed) l := by rw [ho]; rfl
    refine ⟨Nat.le_add_right _ _, ?_, ?_, rfl, ?_, ?_, fun q => hformed.eq_quotes⟩
    · simp [Lexeme.text]
      omega
    · simp [hsplit, ho]
    · rw [hmark]
      exact Bytewise.source?_markOf hsplit
    · rw [hmark]
      exact Bytewise.contents?_markOf hsplit hformed

theorem offset_le_next (c : Cursor) : c.offset ≤ c.next.2.offset := by
  rcases c.next_cases with hnext | ⟨e, -, -, hnext⟩ | ⟨l, rest, -, hnext⟩
  all_goals
    rw [hnext]
    exact Nat.le_add_right _ _

/-- Where a quote is never closed, it opens at or behind the cursor and before the end. -/
theorem Within.unclosed (h : Within s c) (he : c.next.1 = .error e) :
    c.offset ≤ e.offset ∧ e.offset < size s := by
  rcases c.next_cases with hnext | ⟨e', hle, hlt, hnext⟩ | ⟨l, rest, -, hnext⟩
  · rw [hnext] at he
    cases he
  · rw [hnext] at he
    cases he
    exact ⟨hle, h.size_eq ▸ hlt⟩
  · rw [hnext] at he
    cases he

/-- Without a token to give, a cursor goes to the end. -/
theorem Within.ends (h : Within s c) (hnone : ∀ p, c.next.1 ≠ .ok (some p)) :
    c.next.2 = atEndOf s := by
  rw [atEndOf, ← h.size_eq]
  rcases c.next_cases with hnext | ⟨e, -, -, hnext⟩ | ⟨l, rest, -, hnext⟩
  · rw [hnext]
  · rw [hnext]
  · rw [hnext] at hnone
    exact absurd rfl (hnone _)

end Cursor

/-- A cursor in use, with copies of it from earlier on. -/
structure Session where
  cursor : Cursor
  kept : List Cursor := []

namespace Session

/-- What can be done with a cursor. Any copy can be gone back to, any number of times. -/
inductive Use
  | next
  | peek
  | isAtEnd
  | skip (a : Char) (ascii : a.toNat < 128)
  | keep
  | goBack (i : Nat)

inductive Answer
  | read (found : Except Unclosed (Option Placed))
  | byte (b : Option Nat)
  | flag (b : Bool)
  | silent

def Answer.token? : Answer → Option Placed
  | .read (.ok found) => found
  | _ => none

/-- All but a return to a copy. -/
def Use.Onward : Use → Prop
  | .goBack _ => False
  | _ => True

def start (s : Text) : Session :=
  ⟨Cursor.start s, []⟩

def apply (n : Session) : Use → Answer × Session
  | .next => (.read n.cursor.next.1, { n with cursor := n.cursor.next.2 })
  | .peek => (.byte n.cursor.peek?, n)
  | .isAtEnd => (.flag n.cursor.isAtEnd, n)
  | .skip a _ =>
    match n.cursor.skip? a with
    | some c => (.flag true, { n with cursor := c })
    | none => (.flag false, n)
  | .keep => (.silent, { n with kept := n.kept ++ [n.cursor] })
  | .goBack i =>
    match n.kept[i]? with
    | some c => (.silent, { n with cursor := c })
    | none => (.silent, n)

def after (n : Session) (us : List Use) : Session :=
  us.foldl (fun n u => (n.apply u).2) n

/-- The tokens among the answers, in turn. -/
def tokens (n : Session) : List Use → List Placed
  | [] => []
  | u :: us => (n.apply u).1.token?.toList ++ (n.apply u).2.tokens us

variable {s : Text} {n : Session} {u : Use} {us : List Use}

theorem after_cons (n : Session) (u : Use) (us : List Use) :
    n.after (u :: us) = (n.apply u).2.after us := rfl

/-- The cursor and all copies are cursors into `s`. -/
structure Into (s : Text) (n : Session) : Prop where
  cursor : n.cursor.Within s
  kept : ∀ c ∈ n.kept, c.Within s

theorem into_start (s : Text) : Into s (start s) :=
  ⟨Cursor.within_start s, by simp [start]⟩

/-- Whatever is done, no cursor leaves `s`. -/
theorem Into.apply (h : Into s n) (u : Use) : Into s (n.apply u).2 := by
  cases u with
  | next => exact ⟨h.cursor.next, h.kept⟩
  | peek | isAtEnd => exact h
  | skip a _ =>
    rw [Session.apply]
    cases hc : n.cursor.skip? a with
    | some c => exact ⟨h.cursor.skip hc, h.kept⟩
    | none => exact h
  | keep =>
    refine ⟨h.cursor, fun c hc => ?_⟩
    rcases List.mem_append.mp hc with hc | hc
    · exact h.kept c hc
    · exact List.mem_singleton.mp hc ▸ h.cursor
  | goBack i =>
    rw [Session.apply]
    cases hc : n.kept[i]? with
    | some c => exact ⟨h.kept c (List.mem_of_getElem? hc), h.kept⟩
    | none => exact h

theorem Into.after (h : Into s n) (us : List Use) : Into s (n.after us) := by
  induction us generalizing n with
  | nil => exact h
  | cons u us ih => exact ih (h.apply u)

/-- A token takes the cursor on by a byte or more, and only a return to a copy takes it back. -/
theorem Into.onward (h : Into s n) (hu : u.Onward) :
    n.cursor.offset + (n.apply u).1.token?.toList.length ≤ (n.apply u).2.cursor.offset := by
  cases u with
  | next =>
    show _ + (Answer.read n.cursor.next.1).token?.toList.length ≤ n.cursor.next.2.offset
    rcases hfound : n.cursor.next.1 with e | _ | p
    · exact n.cursor.offset_le_next
    · exact n.cursor.offset_le_next
    · have hreads := h.cursor.reads hfound
      rw [hreads.stops]
      exact Nat.lt_of_le_of_lt hreads.behind hreads.nonempty
  | peek | isAtEnd | keep => exact Nat.le_refl _
  | skip a ascii =>
    rw [Session.apply]
    cases hc : n.cursor.skip? a with
    | some c =>
      have hskip := h.cursor.faithful.skip a ascii
      rw [hc] at hskip
      exact Nat.le_of_lt (Nat.lt_of_lt_of_eq (Nat.lt_succ_self _)
        (Bytewise.skip?_eq_some hskip.symm).symm)
    | none => exact Nat.le_refl _
  | goBack i => exact hu.elim

theorem Into.progress (h : Into s n) (hus : ∀ u ∈ us, u.Onward) :
    n.cursor.offset + (n.tokens us).length ≤ (n.after us).cursor.offset := by
  induction us generalizing n with
  | nil => exact Nat.le_refl _
  | cons u us ih =>
    rw [List.forall_mem_cons] at hus
    have hstep := h.onward hus.1
    have hrest := ih (h.apply u) hus.2
    rw [tokens, List.length_append, after_cons]
    omega

/-- At the end there is nothing to read and nothing to step over. -/
theorem apply_atEnd (hn : n.cursor = Cursor.atEndOf s) (hu : u.Onward) :
    (n.apply u).2.cursor = Cursor.atEndOf s := by
  cases u with
  | next =>
    show n.cursor.next.2 = _
    rw [hn]
    rfl
  | peek | isAtEnd | keep => exact hn
  | skip a _ =>
    rw [apply, hn]
    exact hn
  | goBack i => exact hu.elim

theorem after_atEnd (hn : n.cursor = Cursor.atEndOf s) (hus : ∀ u ∈ us, u.Onward) :
    (n.after us).cursor = Cursor.atEndOf s := by
  induction us generalizing n with
  | nil => exact hn
  | cons u us ih =>
    rw [List.forall_mem_cons] at hus
    exact ih (apply_atEnd hn hus.1) hus.2

/-- Only a reading gives a token. -/
theorem next_of_token? (n : Session) (u : Use) {p : Placed} (hp : (n.apply u).1.token? = some p) :
    n.cursor.next.1 = .ok (some p) := by
  cases u with
  | next =>
    have htoken : (Answer.read n.cursor.next.1).token? = some p := hp
    rcases hfound : n.cursor.next.1 with e | found
    · rw [hfound] at htoken
      cases htoken
    · rw [hfound] at htoken
      exact congrArg Except.ok htoken
  | skip a _ =>
    rw [apply] at hp
    cases hc : n.cursor.skip? a <;> rw [hc] at hp <;> cases hp
  | goBack i =>
    rw [apply] at hp
    cases hc : n.kept[i]? <;> rw [hc] at hp <;> cases hp
  | peek | isAtEnd | keep => cases hp

theorem Into.exists_reads (h : Into s n) (us : List Use) {p : Placed} (hp : p ∈ n.tokens us) :
    ∃ c d, Cursor.Reads s c p d := by
  induction us generalizing n with
  | nil => cases hp
  | cons u us ih =>
    rcases List.mem_append.mp hp with hp | hp
    · exact ⟨_, _, h.cursor.reads (next_of_token? n u (Option.mem_toList.mp hp))⟩
    · exact ih (h.apply u) hp

/-- What can be relied on at some point of a session over `s`. -/
structure Sound (s : Text) (n : Session) : Prop where
  faithful : n.cursor.Faithful s
  reads : ∀ p, n.cursor.next.1 = .ok (some p) → n.cursor.Reads s p n.cursor.next.2
  unclosed : ∀ e, n.cursor.next.1 = .error e → n.cursor.offset ≤ e.offset ∧ e.offset < size s
  progress : ∀ us, (∀ u ∈ us, u.Onward) → n.cursor.offset + (n.tokens us).length ≤ size s
  ended : (∀ p, n.cursor.next.1 ≠ .ok (some p)) → ∀ us, (∀ u ∈ us, u.Onward) →
    (n.after (.next :: us)).cursor = Cursor.atEndOf s ∧
      ((n.after (.next :: us)).apply .next).1 = .read (.ok none)

theorem Into.sound (h : Into s n) : Sound s n := by
  refine ⟨h.cursor.faithful, fun p => h.cursor.reads, fun e => h.cursor.unclosed,
    fun us hus => ?_, fun hnone us hus => ?_⟩
  · exact (h.progress hus).trans (h.after us).cursor.faithful.bounded
  · have hnext : (n.apply .next).2.cursor = Cursor.atEndOf s := h.cursor.ends hnone
    have hend : (n.after (.next :: us)).cursor = Cursor.atEndOf s := by
      rw [after_cons]
      exact after_atEnd hnext hus
    refine ⟨hend, ?_⟩
    rw [Session.apply, hend]
    rfl

/-- Whatever is done with a cursor and its copies: it stands between two characters of the text
or at the end, each token lies whole in what it had not read, reading comes to an end, and a quote
that is never closed ends it. -/
theorem reached_sound (s : Text) (us : List Use) :
    Sound s ((start s).after us) ∧ ∀ p ∈ (start s).tokens us,
      Bytewise.source? s (Bytewise.Placed.mark p) = some p.token.text ∧
      Bytewise.contents? s (Bytewise.Placed.mark p) = some p.token.contents := by
  refine ⟨((into_start s).after us).sound, fun p hp => ?_⟩
  obtain ⟨c, d, hreads⟩ := (into_start s).exists_reads us hp
  exact ⟨hreads.source, hreads.contents⟩

/-- The quote is never closed, and nothing comes after it. -/
theorem reached_sound_unclosed :
    ((start "A 'x".toList).after [.next]).cursor.next.1 = .error ⟨2⟩ ∧
    (((start "A 'x".toList).after [.next, .next, .peek, .keep]).apply .next).1 =
      .read (.ok none) := by
  have herror : ((start "A 'x".toList).after [.next]).cursor.next.1 = .error ⟨2⟩ := by decide
  refine ⟨herror, ((reached_sound "A 'x".toList [.next]).1.ended ?_ [.peek, .keep] ?_).2⟩
  · rw [herror]
    exact fun p hp => nomatch hp
  · simp [Use.Onward]

end Session

end WhereFilter
