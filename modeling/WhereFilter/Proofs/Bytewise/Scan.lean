import WhereFilter.Bytewise.Scan
import WhereFilter.Proofs.Layout.Tokens
import WhereFilter.Proofs.Token.Front

namespace WhereFilter

namespace Text

theorem encode_ascii {c : Char} (h : c.toNat < 128) :
    String.utf8EncodeChar c = [UInt8.ofNat c.toNat] := by
  unfold String.utf8EncodeChar
  exact if_pos (by show c.toNat ≤ 127; omega)

/-- Beyond ASCII, the first byte of a character and the others each have a range of their own. -/
theorem encode_wide {c : Char} (h : 128 ≤ c.toNat) :
    ∃ b bs, String.utf8EncodeChar c = b :: bs ∧ 192 ≤ b.toNat ∧
      ∀ x ∈ bs, 128 ≤ x.toNat ∧ x.toNat < 192 := by
  have h' : ¬c.val.toNat ≤ 127 := by show ¬c.toNat ≤ 127; omega
  unfold String.utf8EncodeChar
  simp only [if_neg h']
  split
  · refine ⟨_, _, rfl, ?_, ?_⟩ <;> simp <;> omega
  · split
    · refine ⟨_, _, rfl, ?_, ?_⟩ <;> simp <;> omega
    · refine ⟨_, _, rfl, ?_, ?_⟩ <;> simp <;> omega

end Text

namespace Bytewise

open Text (bytes size)

/-- The bytes of the characters that `p` holds of are those that `P` holds of. -/
def Follows (P : UInt8 → Bool) (p : Char → Bool) : Prop :=
  ∀ c, (p c = true → ∀ b ∈ String.utf8EncodeChar c, P b = true) ∧
    (p c = false → ∃ b bs, String.utf8EncodeChar c = b :: bs ∧ P b = false)

/-- Beyond ASCII both say the same throughout. -/
theorem follows_of_ascii {P : UInt8 → Bool} {p : Char → Bool} (side : Bool)
    (ascii : ∀ n < 128, P (.ofNat n) = p (.ofNat n))
    (beyond : ∀ n < 128, P (.ofNat (128 + n)) = side)
    (hp : ∀ c : Char, 128 ≤ c.toNat → p c = side) : Follows P p := by
  intro c
  have hP (b : UInt8) (hb : 128 ≤ b.toNat) : P b = side := by
    have hlt := b.toNat_lt
    have hn : 128 + (b.toNat - 128) = b.toNat := by omega
    have hb := beyond (b.toNat - 128) (by omega)
    rwa [hn, UInt8.ofNat_toNat] at hb
  by_cases hc : c.toNat < 128
  · have hsame : P (.ofNat c.toNat) = p c := by
      rw [ascii _ hc, Char.ofNat_toNat]
    rw [Text.encode_ascii hc]
    exact ⟨fun h => by simpa [hsame] using h, fun h => ⟨_, [], rfl, hsame.trans h⟩⟩
  · obtain ⟨b, bs, he, hb, hbs⟩ := Text.encode_wide (c := c) (by omega)
    rw [hp c (by omega), he]
    constructor
    · rintro rfl x hx
      rcases List.mem_cons.mp hx with rfl | hx
      · exact hP x (by omega)
      · exact hP x (hbs x hx).1
    · rintro rfl
      exact ⟨b, bs, rfl, hP b (by omega)⟩

theorem takeWhile_bytes {P : UInt8 → Bool} {p : Char → Bool} (h : Follows P p) (s : Text) :
    (bytes s).takeWhile P = bytes (s.takeWhile p) := by
  induction s with
  | nil => rfl
  | cons c s ih =>
    cases hc : p c with
    | true =>
      rw [Text.bytes_cons, List.takeWhile_append_of_pos ((h c).1 hc), ih,
        List.takeWhile_cons_of_pos hc, Text.bytes_cons]
    | false =>
      obtain ⟨b, bs, he, hb⟩ := (h c).2 hc
      rw [Text.bytes_cons, he, List.takeWhile_cons_of_neg (by simp [hc]), List.cons_append,
        List.takeWhile_cons_of_neg (by simp [hb]), Text.bytes_nil]

theorem drop_bytes (u s : Text) : (bytes (u ++ s)).drop (size u) = bytes s := by
  rw [Text.bytes_append, ← Text.length_bytes, List.drop_left]

theorem getElem?_bytes (u s : Text) : (bytes (u ++ s))[size u]? = (bytes s).head? := by
  rw [Text.bytes_append, ← Text.length_bytes, List.getElem?_append_right (Nat.le_refl _),
    Nat.sub_self, List.head?_eq_getElem?]

theorem runEnd_bytes {P : UInt8 → Bool} {p : Char → Bool} (h : Follows P p) (u s : Text) :
    runEnd P (bytes (u ++ s)) (size u) = size (u ++ s.takeWhile p) := by
  rw [runEnd, drop_bytes, takeWhile_bytes h, Text.length_bytes, Text.size_append]

theorem follows_gap : Follows isGapByte Token.isGapChar := by
  refine follows_of_ascii false (by decide +kernel) (by decide +kernel) fun c hc => ?_
  by_contra hg
  have hnarrow : decide (c.toNat < 128) = true :=
    of_isGapChar (fun c => decide (c.toNat < 128)) rfl (by simpa using hg)
  exact absurd hc (by simpa using hnarrow)

theorem not_isNameChar_wide {c : Char} (hc : 128 ≤ c.toNat) : Token.isNameChar c = false := by
  cases hn : Token.isNameChar c with
  | false => rfl
  | true =>
    have := (Language.toNat_of_isNameChar hn).2
    omega

theorem follows_name : Follows isNameByte Token.isNameChar :=
  follows_of_ascii false (by decide +kernel) (by decide +kernel) fun _ => not_isNameChar_wide

theorem follows_digit : Follows isDigitByte Char.isDigit := by
  refine follows_of_ascii false (by decide +kernel) (by decide +kernel) fun c hc => ?_
  cases hd : c.isDigit with
  | false => rfl
  | true => rw [← not_isNameChar_wide hc, Token.isNameChar_of_isDigit hd]

theorem follows_nameStart : Follows isNameStartByte Token.isNameStart := by
  refine follows_of_ascii false (by decide +kernel) (by decide +kernel) fun c hc => ?_
  cases hs : Token.isNameStart c with
  | false => rfl
  | true => rw [← not_isNameChar_wide hc, Token.isNameChar_of_isNameStart hs]

theorem follows_ne {q : Char} (hq : q = '\'' ∨ q = '"') :
    Follows (· != q.toUInt8) (· != q) := by
  refine follows_of_ascii true ?_ ?_ fun c hc => ?_
  · rcases hq with rfl | rfl <;> decide +kernel
  · rcases hq with rfl | rfl <;> decide +kernel
  · simp only [bne_iff_ne, ne_eq]
    rintro rfl
    rcases hq with rfl | rfl <;> exact absurd hc (by decide)

/-- What holds of the first byte of a character holds of the character. -/
theorem Follows.lead {P : UInt8 → Bool} {p : Char → Bool} (h : Follows P p) {c : Char} {b : UInt8}
    {bs : List UInt8} (he : String.utf8EncodeChar c = b :: bs) : P b = p c := by
  cases hc : p c with
  | true => exact (h c).1 hc b (by simp [he])
  | false =>
    obtain ⟨d, ds, hd, hP⟩ := (h c).2 hc
    rw [he, List.cons.injEq] at hd
    rw [hd.1, hP]

theorem lead_eq {c a : Char} {b : UInt8} {bs : List UInt8}
    (he : String.utf8EncodeChar c = b :: bs) (ha : a.toNat < 128) : b = a.toUInt8 ↔ c = a := by
  have hlead : String.utf8EncodeChar a = [a.toUInt8] := Text.encode_ascii ha
  have hval : a.toUInt8.toNat = a.toNat % 256 := UInt8.toNat_ofNat'
  constructor
  · rintro rfl
    by_cases hc : c.toNat < 128
    · rw [Text.encode_ascii hc, List.cons.injEq] at he
      have hnat := congrArg UInt8.toNat he.1
      simp only [hval, UInt8.toNat_ofNat'] at hnat
      exact Char.toNat_inj.mp (by omega)
    · obtain ⟨d, ds, hd, hwide, -⟩ := Text.encode_wide (c := c) (by omega)
      rw [he, List.cons.injEq] at hd
      rw [← hd.1, hval] at hwide
      omega
  · rintro rfl
    rw [hlead, List.cons.injEq] at he
    exact he.1.symm

theorem skip?_bytes {a : Char} (ha : a.toNat < 128) (u s : Text) :
    skip? a (bytes (u ++ s)) (size u) = if s.head? = some a then some (size u + 1) else none := by
  rw [skip?, getElem?_bytes]
  cases s with
  | nil => simp
  | cons c s =>
    have hlen := String.length_utf8EncodeChar c
    have hpos := c.utf8Size_pos
    obtain ⟨b, bs, he⟩ : ∃ b bs, String.utf8EncodeChar c = b :: bs :=
      List.exists_cons_of_ne_nil (by rintro h; simp [h] at hlen; omega)
    simp [he, lead_eq he ha]

theorem size_concat {c : Char} (hc : c.toNat < 128) (u : Text) : size (u ++ [c]) = size u + 1 := by
  have hlen := String.length_utf8EncodeChar c
  rw [Text.encode_ascii hc] at hlen
  simp [← hlen]

theorem bodyEnd_bytes {q : Char} (hq : q = '\'' ∨ q = '"') (u s : Text) :
    bodyEnd q (bytes (u ++ s)) (size u) =
      some ((Token.body? q s).map fun found => size u + size found.1) := by
  have hascii : q.toNat < 128 := by rcases hq with rfl | rfl <;> decide
  induction hn : s.length using Nat.strongRecOn generalizing u s with
  | ind n ih =>
  subst hn
  have hrun : q ∉ s.takeWhile (· != q) := by
    intro hm
    have hne := holds_of_mem_takeWhile q hm
    simp at hne
  have hs := List.takeWhile_append_dropWhile (p := (· != q)) (l := s)
  have hhead := head?_dropWhile (· != q) s
  rw [bodyEnd, runEnd_bytes (follows_ne hq), Text.length_bytes]
  generalize s.takeWhile (· != q) = g at hs hrun
  cases hr : s.dropWhile (· != q) with
  | nil =>
    rw [hr] at hs
    rw [← hs, if_pos (by simp), Token.body?_run hrun]
    rfl
  | cons d r =>
    have hd : d = q := by simpa [hr] using hhead
    rw [hr, hd] at hs
    have hlen : ¬size (u ++ s) ≤ size (u ++ g) := by
      have := q.utf8Size_pos
      simp [← hs]
      omega
    have hsource : u ++ s = u ++ g ++ [q] ++ r := by simp [← hs]
    rw [if_neg hlen, ← size_concat hascii, hsource, skip?_bytes hascii, ← hs,
      Token.body?_run hrun]
    by_cases hdouble : r.head? = some q
    · obtain ⟨r', rfl⟩ := List.head?_eq_some_iff.mp hdouble
      have hsource' : u ++ g ++ [q] ++ q :: r' = u ++ g ++ [q] ++ [q] ++ r' := by simp
      have hrest := ih r'.length (by rw [← hs]; simp; omega) (u ++ g ++ [q] ++ [q]) r' rfl
      rw [if_pos hdouble, ← size_concat hascii, hsource']
      simp only [hrest, Token.body?_double, Option.map_map]
      congr 2
      funext found
      simp
      omega
    · rw [if_neg hdouble, Token.body?_close hdouble]
      simp

/-- The byte at the front tells what character is. -/
theorem head?_bytes {P : UInt8 → Bool} {p : Char → Bool} (h : Follows P p) (s : Text) :
    (bytes s).head?.any P = s.head?.any p := by
  cases s with
  | nil => rfl
  | cons c s =>
    have hlen := String.length_utf8EncodeChar c
    have hpos := c.utf8Size_pos
    obtain ⟨b, bs, he⟩ : ∃ b bs, String.utf8EncodeChar c = b :: bs :=
      List.exists_cons_of_ne_nil (by rintro h; simp [h] at hlen; omega)
    simp [he, h.lead he]

theorem head?_bytes_eq {a : Char} (ha : a.toNat < 128) (s : Text) :
    (bytes s).head? = some a.toUInt8 ↔ s.head? = some a := by
  have hskip := skip?_bytes ha [] s
  rw [skip?, getElem?_bytes] at hskip
  by_cases hb : (bytes s).head? = some a.toUInt8 <;> by_cases hs : s.head? = some a <;>
    simp_all

theorem numberEnd_bytes (u : Text) {c : Char} (hc : c.isDigit = true) (r : Text) :
    numberEnd (bytes (u ++ [c] ++ r)) (size (u ++ [c])) = size (u ++ (Token.number (c :: r)).1) := by
  have hr := List.takeWhile_append_dropWhile (p := Char.isDigit) (l := r)
  rw [numberEnd, runEnd_bytes follows_digit, Token.number, List.takeWhile_cons_of_pos hc,
    List.dropWhile_cons_of_pos hc]
  generalize r.takeWhile Char.isDigit = w at hr
  have hsource : u ++ [c] ++ r = (u ++ [c] ++ w) ++ r.dropWhile Char.isDigit := by simp [hr]
  rw [hsource]
  simp only [getElem?_bytes, head?_bytes_eq (a := '.') (by decide)]
  cases hd : r.dropWhile Char.isDigit with
  | nil => simp
  | cons x t =>
    by_cases hx : x = '.'
    · have hdot : (u ++ [c] ++ w) ++ x :: t = (u ++ [c] ++ w ++ ['.']) ++ t := by simp [hx]
      rw [hdot, ← size_concat (c := '.') (by decide)]
      simp only [getElem?_bytes, head?_bytes follows_digit, runEnd_bytes follows_digit]
      cases t with
      | nil => simp [hx]
      | cons d t => cases hdd : d.isDigit <;> simp [hx, hdd]
    · simp [hx]

theorem sign?_bytes {c : Char} {b : UInt8} {bs : List UInt8}
    (he : String.utf8EncodeChar c = b :: bs) (u r : Text) :
    sign? b (bytes (u ++ c :: r)) (size u + 1) =
      match Token.sign? (c :: r) with
      | some (t, _) => some (t.kind, size u + size t.text)
      | none => if c = '!' then some (.other, size u + 1) else none := by
  have hlead {a : Char} (ha : a.toNat < 128) := lead_eq he ha
  by_cases hc : c ∈ ['(', ')', ',', '.', '-', '=', '!', '<', '>']
  · have hascii : c.toNat < 128 := by
      have hall : (['(', ')', ',', '.', '-', '=', '!', '<', '>'].all fun a => a.toNat < 128) = true := by
        decide
      simpa using List.all_eq_true.mp hall c hc
    have hsource : u ++ c :: r = u ++ [c] ++ r := by simp
    rw [hsource, ← size_concat hascii, sign?]
    simp only [skip?_bytes (a := '=') (by decide), skip?_bytes (a := '>') (by decide),
      hlead (a := '(') (by decide), hlead (a := ')') (by decide), hlead (a := ',') (by decide),
      hlead (a := '.') (by decide), hlead (a := '-') (by decide), hlead (a := '=') (by decide),
      hlead (a := '!') (by decide), hlead (a := '<') (by decide), hlead (a := '>') (by decide)]
    have hone : '='.utf8Size = 1 := rfl
    have hone' : '>'.utf8Size = 1 := rfl
    have hnone {a : Char} (h : r.head? ≠ some a) : ∀ r', r ≠ a :: r' := by
      rintro r' rfl
      exact h rfl
    simp only [List.mem_cons, List.not_mem_nil, or_false] at hc
    rw [Token.sign?_eq]
    rcases hc with rfl | rfl | rfl | rfl | rfl | rfl | rfl | rfl | rfl
    case inl | inr.inl | inr.inr.inl | inr.inr.inr.inl | inr.inr.inr.inr.inl => simp
    case inr.inr.inr.inr.inr.inl | inr.inr.inr.inr.inr.inr.inl |
        inr.inr.inr.inr.inr.inr.inr.inr =>
      by_cases hh : r.head? = some '='
      · obtain ⟨r', rfl⟩ := List.head?_eq_some_iff.mp hh
        simp [hone, Nat.add_assoc]
      · simp [hh, hnone hh]
    case inr.inr.inr.inr.inr.inr.inr.inl =>
      by_cases hh : r.head? = some '>'
      · obtain ⟨r', rfl⟩ := List.head?_eq_some_iff.mp hh
        simp [hone', Nat.add_assoc]
      · by_cases hh' : r.head? = some '='
        · obtain ⟨r', rfl⟩ := List.head?_eq_some_iff.mp hh'
          simp [hone, Nat.add_assoc]
        · simp [hh, hnone hh, hh', hnone hh']
  · have hfree : ['=', '<', '>', '(', ')', ',', '.', '-'].contains c = false := by
      simp only [List.mem_cons, List.not_mem_nil, or_false, not_or] at hc
      simp [hc]
    have hbang : c ≠ '!' := by
      rintro rfl
      exact hc (by decide)
    rw [Token.sign?_eq_none_of hfree fun h => absurd h hbang, sign?]
    simp only [List.mem_cons, List.not_mem_nil, or_false, not_or] at hc
    simp [hlead (a := '(') (by decide), hlead (a := ')') (by decide), hlead (a := ',') (by decide),
      hlead (a := '.') (by decide), hlead (a := '-') (by decide), hlead (a := '=') (by decide),
      hlead (a := '!') (by decide), hlead (a := '<') (by decide), hlead (a := '>') (by decide), hc]

/-- What follows a character starts with the first byte of one. -/
theorem takeWhile_inner {c : Char} {b : UInt8} {bs : List UInt8}
    (he : String.utf8EncodeChar c = b :: bs) (r : Text) :
    (bs ++ bytes r).takeWhile isInnerByte = bs := by
  have hinner : ∀ x ∈ bs, isInnerByte x = true := by
    by_cases hc : c.toNat < 128
    · rw [Text.encode_ascii hc, List.cons.injEq] at he
      simp [← he.2]
    · obtain ⟨d, ds, hd, -, hds⟩ := Text.encode_wide (c := c) (by omega)
      rw [he, List.cons.injEq] at hd
      intro x hx
      have hx := hds x (hd.2 ▸ hx)
      simp [isInnerByte, UInt8.le_iff_toNat_le, UInt8.lt_iff_toNat_lt]
      omega
  refine (run_append hinner ?_).1
  cases r with
  | nil => rfl
  | cons a r =>
    by_cases ha : a.toNat < 128
    · simp [Text.encode_ascii ha, isInnerByte, UInt8.le_iff_toNat_le]
      omega
    · obtain ⟨d, ds, hd, hwide, -⟩ := Text.encode_wide (c := a) (by omega)
      simp [hd, isInnerByte, UInt8.lt_iff_toNat_lt]
      omega

theorem runEnd_inner {c : Char} {b : UInt8} {bs : List UInt8}
    (he : String.utf8EncodeChar c = b :: bs) (u r : Text) :
    runEnd isInnerByte (bytes (u ++ c :: r)) (size u + 1) = size (u ++ [c]) := by
  have hlen := String.length_utf8EncodeChar c
  rw [he, List.length_cons] at hlen
  rw [runEnd, ← List.drop_drop, drop_bytes, Text.bytes_cons, he, List.cons_append, List.drop_one,
    List.tail_cons, takeWhile_inner he]
  simp [← hlen]
  omega

theorem token_bytes {c : Char} (hg : Token.isGapChar c = false) {b : UInt8} {bs : List UInt8}
    (he : String.utf8EncodeChar c = b :: bs) (u r : Text) :
    token (bytes (u ++ c :: r)) b (size u) =
      some (match Token.read? c r with
        | some (t, _) => .mark ⟨t.kind, size u, size u + size t.text⟩
        | none => .unclosed (size u)) := by
  have hsource : u ++ c :: r = u ++ [c] ++ r := by simp
  have hquote {q : Char} (hq : q = '\'' ∨ q = '"') (hc : c = q) :
      bodyEnd q (bytes (u ++ c :: r)) (size u + 1) =
        some ((Token.body? q r).map fun found => size u + size (q :: found.1)) := by
    have hascii : c.toNat < 128 := by rcases hq with rfl | rfl <;> rw [hc] <;> decide
    rw [hsource, ← size_concat hascii, bodyEnd_bytes hq]
    congr 2
    funext found
    simp [hc]
    omega
  rw [token]
  simp only [sign?_bytes he, lead_eq he (a := '\'') (by decide), lead_eq he (a := '"') (by decide),
    follows_nameStart.lead he, follows_digit.lead he, runEnd_inner he]
  unfold Token.read?
  cases hs : Token.sign? (c :: r) with
  | some found => rfl
  | none =>
    by_cases hbang : c = '!'
    · subst hbang
      have hone : size ['!'] = 1 := rfl
      simp [Token.isNameStart, hone]
    by_cases hsingle : c = '\''
    · subst hsingle
      simp only [hbang, if_false, if_true, hquote (.inl rfl)]
      cases Token.body? '\'' r <;> rfl
    by_cases hdouble : c = '"'
    · subst hdouble
      simp only [hbang, hsingle, if_false, if_true, hquote (.inr rfl)]
      cases Token.body? '"' r <;> rfl
    by_cases hname : Token.isNameStart c = true
    · have hascii := (Language.toNat_of_isNameChar (Token.isNameChar_of_isNameStart hname)).2
      simp only [hbang, hsingle, hdouble, hname, if_false, if_true]
      rw [hsource, ← size_concat hascii, runEnd_bytes follows_name]
      simp
    by_cases hdigit : c.isDigit = true
    · have hascii := (Language.toNat_of_isNameChar (Token.isNameChar_of_isDigit hdigit)).2
      simp only [hbang, hsingle, hdouble, hname, hdigit, if_false, if_true]
      rw [hsource, ← size_concat hascii, numberEnd_bytes u hdigit]
      simp
    · simp [hbang, hsingle, hdouble, hname, hdigit]

/-- What comes next in the bytes is what comes next in the text, at its offsets. -/
theorem next_bytes (u s : Text) : next (bytes (u ++ s)) (size u) =
    some (match step s with
      | .done _ => .done
      | .unclosed gap => .unclosed (size u + size gap)
      | .lexeme l _ => .mark ⟨l.token.kind, size u + size l.gap, size u + size l.text⟩) := by
  have hs := List.takeWhile_append_dropWhile (p := Token.isGapChar) (l := s)
  have hhead := head?_dropWhile Token.isGapChar s
  rw [next, runEnd_bytes follows_gap, Text.length_bytes]
  unfold step
  generalize s.takeWhile Token.isGapChar = g at hs
  cases hd : s.dropWhile Token.isGapChar with
  | nil =>
    rw [hd, List.append_nil] at hs
    simp [hs]
  | cons c r =>
    have hc : Token.isGapChar c = false := by simpa [hd] using hhead
    rw [hd] at hs
    have hlen := String.length_utf8EncodeChar c
    have hpos := c.utf8Size_pos
    obtain ⟨b, bs, he⟩ : ∃ b bs, String.utf8EncodeChar c = b :: bs :=
      List.exists_cons_of_ne_nil (by rintro h; simp [h] at hlen; omega)
    have hmore : ¬size (u ++ s) ≤ size (u ++ g) := by
      simp [← hs]
      omega
    have hsource : u ++ s = (u ++ g) ++ c :: r := by simp [← hs]
    rw [hsource] at hmore ⊢
    simp only [if_neg hmore, getElem?_bytes]
    simp only [Text.bytes_cons, he, List.cons_append, List.head?_cons, Option.bind_eq_bind,
      Option.bind_some, token_bytes hc he]
    cases Token.read? c r with
    | none => simp
    | some found => simp [Lexeme.text, Nat.add_assoc]

def Placed.mark (p : Placed) : Mark :=
  ⟨p.token.kind, p.start, p.stop⟩

/-- The tokens of `ls`, where the gap of the first starts at `offset`. -/
def marksOf (offset : Nat) (ls : List Lexeme) : List Mark :=
  (place offset ls).map Placed.mark

/-- The bytes of a text give the tokens of the text, at their offsets in it. -/
theorem marks_bytes (u s : Text) : marks (bytes (u ++ s)) (size u) =
    some (match scan s with
      | .ok found => .ok (marksOf (size u) found.lexemes)
      | .error e => .error ⟨size u + e.offset⟩) := by
  fun_induction scan s generalizing u with
  | case1 s gap hs =>
    rw [marks_unfold, next_bytes, hs]
    rfl
  | case2 s gap hs =>
    rw [marks_unfold, next_bytes, hs]
    rfl
  | case3 s l rest hs found hf ih =>
    have hsource : u ++ s = (u ++ l.text) ++ rest := by simp [(step_lexeme hs).1]
    have hrest := ih (u ++ l.text)
    rw [hf] at hrest
    rw [marks_unfold, next_bytes, hs, hsource]
    simp only [Option.bind_eq_bind, Option.bind_some, ← Text.size_append, hrest]
    simp [marksOf, place, Placed.mark, Scan.cons, Lexeme.text, Nat.add_assoc]
  | case4 s l rest hs e hf ih =>
    have hsource : u ++ s = (u ++ l.text) ++ rest := by simp [(step_lexeme hs).1]
    have hrest := ih (u ++ l.text)
    rw [hf] at hrest
    rw [marks_unfold, next_bytes, hs, hsource]
    simp only [Option.bind_eq_bind, Option.bind_some, ← Text.size_append, hrest]
    simp [Nat.add_assoc]

end Bytewise

end WhereFilter
