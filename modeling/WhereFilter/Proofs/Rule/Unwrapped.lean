import WhereFilter.Proofs.Layout.Patterns
import WhereFilter.Proofs.Token.Front
import WhereFilter.Rule.Wrapped

namespace WhereFilter

namespace Wrapped

def opening : Token := ⟨.parenLeft, ['(']⟩

def closing : Token := ⟨.parenRight, [')']⟩

/-- One value: a token of its own, or a number with its sign. -/
inductive IsOperand : List Token → Prop
  | value (t : Token) : t.kind ∈ [Kind.word, .number, .literal, .quoted] → IsOperand [t]
  | negative (sign number : Token) : sign.kind = .minus → number.kind = .number →
      IsOperand [sign, number]

/-- A column, the word `eq` and an operand. -/
inductive IsClause : List Token → Prop
  | eq (column : Token) (operand : List Token) : column.kind = .word → IsOperand operand →
      IsClause (column :: ⟨.word, "eq".toList⟩ :: operand)

/-- Pairs of parentheses are gone that each had one clause in them, and nothing else is. -/
inductive Unwrapped : List Token → List Token → Prop
  | nil : Unwrapped [] []
  | keep (t : Token) {ts us : List Token} : Unwrapped ts us → Unwrapped (t :: ts) (t :: us)
  | pair {clause ts us : List Token} : IsClause clause → Unwrapped ts us →
      Unwrapped (opening :: (clause ++ closing :: ts)) (clause ++ us)

/-- The pattern fits behind `front`, takes `inner` out of parentheses and goes on at `rest`. -/
def FitsAt (s front inner rest : Text) : Prop :=
  ∃ t, s = front ++ t ∧ clause none t = some (inner, rest)

/-- A clause in parentheses among the tokens `ls`. More closing parentheses may stand behind the
clause, since it does not matter which of them goes with the opening one. -/
structure Pair (ls : List Lexeme) where
  before : List Lexeme
  opens : Lexeme
  clause : List Lexeme
  closings : List Lexeme
  closes : Lexeme
  after : List Lexeme
  lexemes : ls = before ++ opens :: (clause ++ closings ++ closes :: after)
  opens_token : opens.token = opening
  isClause : IsClause (clause.map Lexeme.token)
  closings_token : ∀ l ∈ closings, l.token = closing
  closes_token : closes.token = closing

namespace Pair

/-- The pair stands between `front` and `rest` and has `inner` in it. -/
def Holds {ls : List Lexeme} (p : Pair ls) (tail front inner rest : Text) : Prop :=
  front = p.before.flatMap Lexeme.text ++ p.opens.gap ∧
    inner = slice (p.clause ++ p.closings) ∧ rest = p.after.flatMap Lexeme.text ++ tail

/-- No token goes on across a parenthesis of the pair. -/
def Apart {ls : List Lexeme} (p : Pair ls) (tail : Text) : Prop :=
  (∀ l, p.before.getLast? = some l → p.opens.gap = [] → l.is .word = false) ∧
    ∀ l, (p.clause ++ p.closings).getLast? = some l →
      l.token.Stops (p.after.flatMap Lexeme.text ++ tail) ∧
        (l.is .word = true → (p.after.flatMap Lexeme.text ++ tail).head? ≠ some '(')

end Pair

/-- The pattern fits around clauses only, and what it takes them out of stands apart. -/
def Clean (s : Text) (ls : List Lexeme) (tail : Text) : Prop :=
  ∀ front inner rest, FitsAt s front inner rest →
    ∃ p : Pair ls, p.Holds tail front inner rest ∧ p.Apart tail

theorem Clean.tail {l : Lexeme} {ls : List Lexeme} {tail : Text}
    (h : Clean ((l :: ls).flatMap Lexeme.text ++ tail) (l :: ls) tail) (hl : l.token.text ≠ []) :
    Clean (ls.flatMap Lexeme.text ++ tail) ls tail := by
  rintro front inner rest ⟨t, ht, hfit⟩
  obtain ⟨p, ⟨hfront, hinner, hrest⟩, hbefore, hlast⟩ :=
    h (l.text ++ front) inner rest ⟨t, by simp [ht], hfit⟩
  obtain ⟨before, opens, clause, closings, closes, after, hls, hopens, hclause, hclosings,
    hcloses⟩ := p
  cases before with
  | nil =>
    obtain ⟨rfl, -⟩ := List.cons.inj hls
    have hempty : l.token.text = [] ∧ front = [] := by simpa [Lexeme.text] using hfront
    exact absurd hempty.1 hl
  | cons l' before =>
    obtain ⟨rfl, rfl⟩ := List.cons.inj hls
    refine ⟨⟨before, opens, clause, closings, closes, after, rfl, hopens, hclause, hclosings, hcloses⟩,
      ⟨?_, hinner, hrest⟩, fun x hx hg => hbefore x ?_ hg, hlast⟩
    · simpa using hfront
    · rw [List.getLast?_cons, show before.getLast? = some x from hx]
      rfl

theorem Clean.drop {xs ls : List Lexeme} {tail : Text}
    (h : Clean ((xs ++ ls).flatMap Lexeme.text ++ tail) (xs ++ ls) tail)
    (hxs : ∀ l ∈ xs, l.token.text ≠ []) : Clean (ls.flatMap Lexeme.text ++ tail) ls tail := by
  induction xs with
  | nil => exact h
  | cons x xs ih =>
    simp only [List.mem_cons, forall_eq_or_imp] at hxs
    exact ih (Clean.tail h hxs.1) hxs.2

theorem forward_clause : clause.Forward := fun _ _ => rfl

theorem advances_clause : clause.Advances :=
  steady_clause.advances

theorem starts_of_clause {t inner rest : Text} (h : clause none t = some (inner, rest)) :
    ∃ r, t = '(' :: r := by
  unfold clause at h
  simp only [Option.bind_eq_bind, Option.bind_eq_some_iff] at h
  obtain ⟨s, hs, -⟩ := h
  exact ⟨s, Text.after?_eq_some.mp hs⟩

theorem unwrapClauses_hit {t inner rest : Text} (h : clause none t = some (inner, rest)) :
    unwrapClauses t = inner ++ unwrapClauses rest := by
  obtain ⟨front, hn, rfl⟩ := advances_clause none t inner rest h
  exact Pattern.replace_of_hit (Pattern.segments_of_hit forward_clause hn h)

theorem unwrapClauses_quiet {u s : Text}
    (h : ∀ v t, v.length < u.length → u ++ s = v ++ t → clause none t = none) :
    unwrapClauses (u ++ s) = u ++ unwrapClauses s := by
  induction u with
  | nil => rfl
  | cons c u ih =>
    have hnone := h [] (c :: u ++ s) (by simp) rfl
    have hrest := ih fun v t hlen he => h (c :: v) t (by simpa using hlen) (by simp [he])
    rw [List.cons_append] at hnone ⊢
    rw [unwrapClauses, Pattern.replace_of_item (Pattern.segments_of_none forward_clause hnone)]
    exact congrArg (c :: ·) hrest

theorem unwrapClauses_cons {c : Char} {r : Text} (h : clause none (c :: r) = none) :
    unwrapClauses (c :: r) = c :: unwrapClauses r :=
  Pattern.replace_of_item (Pattern.segments_of_none forward_clause h)

theorem kind_of_dot {t : Token} (ht : t.Formed) (h : t.text = ['.']) : t.kind = .dot := by
  have hs : t.Stops [] := .of_breaks breaks_nil
  obtain ⟨c, r, he, -, hr⟩ := Token.read?_append ht hs
  rw [h] at he
  simp only [List.singleton_append, List.cons.injEq] at he
  obtain ⟨rfl, rfl⟩ := he
  have hdot : Token.read? '.' [] = some (⟨.dot, ['.']⟩, []) := by cbv
  rw [hdot] at hr
  cases hr
  rfl

/-- A clause ends with a value. -/
theorem IsClause.last {ts : List Token} (h : IsClause ts) :
    ∃ us t, ts = us ++ [t] ∧ t.kind ∈ [Kind.word, .number, .literal, .quoted] := by
  obtain ⟨column, operand, -, ho⟩ := h
  cases ho with
  | value t ht => exact ⟨[column, ⟨.word, "eq".toList⟩], t, rfl, ht⟩
  | negative sign number _ hn =>
    exact ⟨[column, ⟨.word, "eq".toList⟩, sign], number, rfl, by simp [hn]⟩

variable {ls : List Lexeme} {tail : Text}

/-- What is in a pair ends with a value or a parenthesis. -/
theorem Pair.last (p : Pair ls) : ∃ xs y, p.clause ++ p.closings = xs ++ [y] ∧
    y.token.kind ∈ [Kind.word, .number, .literal, .quoted, .parenRight] := by
  obtain ⟨us, t, hts, hk⟩ := p.isClause.last
  rcases List.eq_nil_or_concat p.closings with hc | ⟨zs, z, hc⟩
  · obtain ⟨xs, ys, hxs, -, hys⟩ := List.map_eq_append_iff.mp hts
    obtain ⟨y, rfl, rfl⟩ := List.map_eq_singleton_iff.mp hys
    refine ⟨xs, y, by rw [hc, hxs, List.append_nil], ?_⟩
    simp only [List.mem_cons, List.not_mem_nil, or_false] at hk ⊢
    tauto
  · rw [List.concat_eq_append] at hc
    refine ⟨p.clause ++ zs, z, by rw [hc, List.append_assoc], ?_⟩
    rw [p.closings_token z (by simp [hc])]
    simp [closing]

/-- What is in a pair starts with a name. -/
theorem Pair.start (p : Pair ls) (hfit : Fit ls tail) :
    ∃ c r, slice (p.clause ++ p.closings) = c :: r ∧ Token.isNameStart c = true := by
  have hclause := p.isClause
  have hls := p.lexemes
  cases hc : p.clause with
  | nil =>
    rw [hc] at hclause
    cases hclause
  | cons x xs =>
    rw [hc] at hclause hls
    have hx : x.token.kind = .word := by
      generalize hts : (x :: xs).map Lexeme.token = ts at hclause
      obtain ⟨column, operand, hk, -⟩ := hclause
      exact (List.cons.inj hts).1 ▸ hk
    have hformed : x.token.Formed := hfit.formed_of_mem (by simp [hls])
    obtain ⟨c, r, hr, hstart, -⟩ : ∃ c r, x.token.text = c :: r ∧ Token.isNameStart c = true ∧
        ∀ a ∈ r, Token.isNameChar a = true := by
      unfold Token.Formed at hformed
      rw [hx] at hformed
      exact hformed
    exact ⟨c, r ++ (xs ++ p.closings).flatMap Lexeme.text, by simp [slice, hr], hstart⟩

theorem Clean.start {s inner rest : Text} (h : Clean s ls tail) (hfit : Fit ls tail) (front : Text)
    (hf : FitsAt s front inner rest) : ∃ c r, inner = c :: r ∧ Token.isNameStart c = true := by
  obtain ⟨p, ⟨-, rfl, -⟩, -⟩ := h front inner rest hf
  exact p.start hfit

/-- A token that ends before a text ends before it still when parentheses are gone, unless a name
joins it. -/
theorem Clean.stops {t : Token} {s : Text} (h : Clean s ls tail) (hfit : Fit ls tail)
    (hs : t.Stops s) (hword : ∀ inner rest, clause none s = some (inner, rest) → t.kind ≠ .word) :
    t.Stops (unwrapClauses s) := by
  cases hc : clause none s with
  | some found =>
    obtain ⟨inner, rest⟩ := found
    obtain ⟨c, r, rfl, hstart⟩ := h.start hfit [] ⟨s, rfl, hc⟩
    rw [unwrapClauses_hit hc]
    exact .of_nameStart (hword _ _ hc) hstart
  | none =>
    refine hs.of_front ⟨?_, ?_⟩
    · cases s with
      | nil => rfl
      | cons c r => rw [unwrapClauses_cons hc]; rfl
    · intro d r' he hd
      cases s with
      | nil => cases he
      | cons c r =>
        rw [unwrapClauses_cons hc] at he
        simp only [List.cons.injEq] at he
        obtain ⟨rfl, he⟩ := he
        cases hr : clause none r with
        | some found =>
          obtain ⟨inner, rest⟩ := found
          obtain ⟨a, q, rfl, hstart⟩ := h.start hfit ['.'] ⟨r, rfl, hr⟩
          rw [unwrapClauses_hit hr, List.cons_append] at he
          obtain ⟨rfl, -⟩ := List.cons.inj he
          rw [Token.digit_not_nameStart hd] at hstart
          cases hstart
        | none =>
          cases r with
          | nil => cases he
          | cons e r =>
            rw [unwrapClauses_cons hr] at he
            exact ⟨r, by rw [(List.cons.inj he).1]⟩

/-- The pattern starts at parentheses only. -/
theorem no_clause {u s v t : Text} (hu : '(' ∉ u) (hlen : v.length < u.length)
    (he : u ++ s = v ++ t) : clause none t = none := by
  cases h : clause none t with
  | none => rfl
  | some found =>
    obtain ⟨inner, rest⟩ := found
    obtain ⟨r, rfl⟩ := starts_of_clause h
    rcases List.append_eq_append_iff.mp he with ⟨w, rfl, -⟩ | ⟨w, rfl, hw⟩
    · simp at hlen
    · cases w with
      | nil => simp at hlen
      | cons c w =>
        obtain ⟨rfl, -⟩ := List.cons.inj hw
        exact absurd (by simp) hu

theorem open_not_mem_gap {g : Text} (hg : IsGap g) : '(' ∉ g :=
  fun h => absurd (hg '(' h) (by decide)

/-- A pair that starts in the first token starts with it. -/
theorem Pair.before_eq_nil {l : Lexeme} (p : Pair (l :: ls)) {front inner rest : Text}
    (hp : p.Holds tail front inner rest) (hlen : front.length < l.text.length) :
    p.before = [] ∧ p.opens = l ∧ ls = p.clause ++ p.closings ++ p.closes :: p.after ∧
      front = l.gap := by
  obtain ⟨hfront, -, -⟩ := hp
  have hls := p.lexemes
  cases hb : p.before with
  | nil =>
    rw [hb] at hls hfront
    obtain ⟨hl, hrest⟩ := List.cons.inj hls
    exact ⟨rfl, hl.symm, hrest, by rw [hl]; exact hfront⟩
  | cons l' before =>
    rw [hb] at hls hfront
    obtain ⟨rfl, -⟩ := List.cons.inj hls
    rw [hfront] at hlen
    simp at hlen

/-- A pair right behind the first token. -/
theorem Pair.before_eq_singleton {l : Lexeme} (p : Pair (l :: ls))
    (hne : ∀ x ∈ l :: ls, x.token.text ≠ []) {inner rest : Text}
    (hp : p.Holds tail l.text inner rest) : p.before = [l] ∧ p.opens.gap = [] := by
  obtain ⟨hfront, -, -⟩ := hp
  have hls := p.lexemes
  cases hb : p.before with
  | nil =>
    rw [hb] at hls hfront
    obtain ⟨hl, -⟩ := List.cons.inj hls
    rw [← hl] at hfront
    exact absurd (by simpa [Lexeme.text] using hfront) (hne l (by simp))
  | cons l' before =>
    rw [hb] at hls hfront
    obtain ⟨rfl, hrest⟩ := List.cons.inj hls
    have hempty : before.flatMap Lexeme.text = [] ∧ p.opens.gap = [] := by simpa using hfront
    cases before with
    | nil => exact ⟨rfl, hempty.2⟩
    | cons x xs =>
      have hx : x.token.text = [] := by
        have h := hempty.1
        simp [Lexeme.text] at h
        exact h.2.1
      exact absurd hx (hne x (by simp [hrest]))

/-- Which of some closing parentheses is the first does not matter. -/
theorem unwrapped_pair {clause closings ts us : List Token} (hc : IsClause clause)
    (h : Unwrapped ts us) (hz : ∀ t ∈ closings, t = closing) :
    Unwrapped (opening :: (clause ++ closings ++ closing :: ts)) (clause ++ closings ++ us) := by
  have hrep : closings = List.replicate closings.length closing :=
    List.eq_replicate_iff.mpr ⟨rfl, hz⟩
  have hkeep (n : Nat) : Unwrapped (List.replicate n closing ++ ts)
      (List.replicate n closing ++ us) := by
    induction n with
    | zero => exact h
    | succ n ih => exact .keep closing ih
  have hshift : closings ++ closing :: ts =
      closing :: (List.replicate closings.length closing ++ ts) := by
    rw [hrep, ← List.singleton_append (l := ts), ← List.append_assoc, ← List.replicate_succ',
      List.replicate_succ]
    simp
  rw [List.append_assoc, hshift, List.append_assoc]
  conv => arg 2; rw [hrep]
  exact .pair hc (hkeep _)

section

variable {l : Lexeme} {us : List Token}

theorem Pair.lexemes_after (p : Pair ls) :
    ls = p.before ++ p.opens :: (p.clause ++ p.closings ++ [p.closes]) ++ p.after := by
  simp [p.lexemes]

theorem Pair.fit_after (p : Pair ls) (hfit : Fit ls tail) : Fit p.after tail := by
  rw [p.lexemes_after] at hfit
  exact (fit_append.mp hfit).2

theorem Pair.length_after (p : Pair ls) : p.after.length < ls.length := by
  have hlen := congrArg List.length p.lexemes_after
  simp only [List.length_append, List.length_cons] at hlen
  omega

theorem text_ne_nil_of_fit (hfit : Fit ls tail) : ∀ x ∈ ls, x.token.text ≠ [] := by
  intro x hx
  obtain ⟨c, r, hc, -⟩ := (hfit.formed_of_mem hx).head
  simp [hc]

theorem Clean.after (h : Clean (ls.flatMap Lexeme.text ++ tail) ls tail) (hfit : Fit ls tail)
    (p : Pair ls) : Clean (p.after.flatMap Lexeme.text ++ tail) p.after tail := by
  have hne := text_ne_nil_of_fit hfit
  rw [p.lexemes_after] at h hne
  exact h.drop fun x hx => hne x (List.mem_append_left _ hx)

theorem Pair.unwrapped (p : Pair ls) (hb : p.before = [])
    (h : Unwrapped (p.after.map Lexeme.token) us) :
    Unwrapped (ls.map Lexeme.token) ((p.clause ++ p.closings).map Lexeme.token ++ us) := by
  have hclosings : ∀ t ∈ p.closings.map Lexeme.token, t = closing := by simpa using p.closings_token
  have htokens := congrArg (List.map Lexeme.token) p.lexemes
  simp only [hb, List.nil_append, List.map_append, List.map_cons, p.opens_token,
    p.closes_token] at htokens
  rw [htokens, List.map_append]
  exact unwrapped_pair p.isClause h hclosings

/-- What stands in a pair that is taken off comes out as it was. -/
theorem Pair.tokens (p : Pair (l :: ls)) {front inner rest : Text}
    (h : Clean ((l :: ls).flatMap Lexeme.text ++ tail) (l :: ls) tail) (hfit : Fit (l :: ls) tail)
    (hfits : FitsAt ((l :: ls).flatMap Lexeme.text ++ tail) front inner rest)
    (hp : p.Holds tail front inner rest) (hapart : p.Apart tail)
    (hlen : front.length < l.text.length)
    (hus : tokensOf (unwrapClauses (p.after.flatMap Lexeme.text ++ tail)) = .ok us) :
    tokensOf (unwrapClauses ((l :: ls).flatMap Lexeme.text ++ tail)) =
      .ok ((p.clause ++ p.closings).map Lexeme.token ++ us) := by
  obtain ⟨-, -, hls, rfl⟩ := p.before_eq_nil hp hlen
  obtain ⟨-, rfl, rfl⟩ := hp
  obtain ⟨t, ht, hclause⟩ := hfits
  obtain ⟨xs, y, hxs, hkind⟩ := p.last
  have hclean := h.after hfit p
  have hafter := p.fit_after hfit
  obtain ⟨hg, -, -, hinside⟩ := hfit
  obtain ⟨hstops, hparen⟩ := hapart.2 y (by rw [hxs]; simp)
  have hdot : y.token.text ≠ ['.'] := by
    intro hd
    rw [kind_of_dot (hinside.formed_of_mem (by rw [hls, hxs]; simp)) hd] at hkind
    simp at hkind
  have hinner : Fit (xs ++ [y]) (unwrapClauses (p.after.flatMap Lexeme.text ++ tail)) := by
    rw [hls, hxs] at hinside
    refine (fit_append.mp hinside).1.with_rest hdot (hclean.stops hafter hstops ?_)
    intro inner rest hc hk
    obtain ⟨r, hr⟩ := starts_of_clause hc
    exact hparen (by simpa [Lexeme.is] using hk) (by rw [hr]; rfl)
  rw [ht, unwrapClauses_quiet fun v t => no_clause (open_not_mem_gap hg), unwrapClauses_hit hclause,
    hxs]
  exact tokensOf_slice_append hg hinner hus

/-- A token that no pair starts in is kept. -/
theorem Clean.tokens_keep (h : Clean ((l :: ls).flatMap Lexeme.text ++ tail) (l :: ls) tail)
    (hfit : Fit (l :: ls) tail)
    (hquiet : ∀ front inner rest, front.length < l.text.length →
      ¬FitsAt ((l :: ls).flatMap Lexeme.text ++ tail) front inner rest)
    (hus : tokensOf (unwrapClauses (ls.flatMap Lexeme.text ++ tail)) = .ok us) :
    tokensOf (unwrapClauses ((l :: ls).flatMap Lexeme.text ++ tail)) = .ok (l.token :: us) := by
  have hne := text_ne_nil_of_fit hfit
  obtain ⟨hg, hf, hs, hrest⟩ := hfit
  have htext : (l :: ls).flatMap Lexeme.text ++ tail =
      l.text ++ (ls.flatMap Lexeme.text ++ tail) := by
    simp
  have hkept : unwrapClauses (l.text ++ (ls.flatMap Lexeme.text ++ tail)) =
      l.text ++ unwrapClauses (ls.flatMap Lexeme.text ++ tail) := by
    refine unwrapClauses_quiet fun v t hlen he => ?_
    cases hc : clause none t with
    | none => rfl
    | some found => exact absurd ⟨t, htext.trans he, hc⟩ (hquiet v found.1 found.2 hlen)
  have hclean : Clean (ls.flatMap Lexeme.text ++ tail) ls tail := Clean.tail h (hne l (by simp))
  have hstops : l.token.Stops (unwrapClauses (ls.flatMap Lexeme.text ++ tail)) := by
    refine hclean.stops hrest hs fun inner rest hc hk => ?_
    -- a pair right behind `l` stands apart from it
    obtain ⟨p, hp, hbefore, -⟩ := h l.text inner rest ⟨_, htext, hc⟩
    obtain ⟨hb, hgap⟩ := p.before_eq_singleton hne hp
    have hword := hbefore l (by rw [hb]; rfl) hgap
    simp [Lexeme.is, hk] at hword
  rw [htext, hkept]
  exact (tokensOf_lexeme_append_iff hg hf hstops).mpr ⟨rfl, hus⟩

end

theorem Clean.tokens (htail : IsGap tail) (hfit : Fit ls tail)
    (h : Clean (ls.flatMap Lexeme.text ++ tail) ls tail) :
    ∃ us, tokensOf (unwrapClauses (ls.flatMap Lexeme.text ++ tail)) = .ok us ∧
      Unwrapped (ls.map Lexeme.token) us := by
  induction hn : ls.length using Nat.strongRecOn generalizing ls with
  | ind n ih =>
  subst hn
  cases ls with
  | nil =>
    have hquiet := unwrapClauses_quiet (u := tail) (s := []) fun v t =>
      no_clause (open_not_mem_gap htail)
    refine ⟨[], ?_, .nil⟩
    rw [List.append_nil] at hquiet
    rw [List.flatMap_nil, List.nil_append, hquiet]
    exact tokensOf_gap (by simpa [unwrapClauses, Pattern.replace, Pattern.render, Pattern.segments,
      Pattern.segmentsFrom] using htail)
  | cons l ls =>
    by_cases hfits : ∃ front inner rest, front.length < l.text.length ∧
        FitsAt ((l :: ls).flatMap Lexeme.text ++ tail) front inner rest
    · obtain ⟨front, inner, rest, hlen, hfits⟩ := hfits
      obtain ⟨p, hp, hapart⟩ := h front inner rest hfits
      obtain ⟨us, hus, hunwrapped⟩ :=
        ih p.after.length p.length_after (p.fit_after hfit) (h.after hfit p) rfl
      exact ⟨_, p.tokens h hfit hfits hp hapart hlen hus,
        p.unwrapped (p.before_eq_nil hp hlen).1 hunwrapped⟩
    · obtain ⟨us, hus, hunwrapped⟩ := ih ls.length (by simp) hfit.2.2.2
        (Clean.tail h (text_ne_nil_of_fit hfit l (by simp))) rfl
      refine ⟨_, h.tokens_keep hfit (fun front inner rest hlen hf => ?_) hus,
        .keep l.token hunwrapped⟩
      exact hfits ⟨front, inner, rest, hlen, hf⟩

/-- Unwrapping takes matching parentheses off single clauses and nothing else, where the pattern
fits around such clauses only and no token goes on across a parenthesis. -/
theorem unwrapClauses_tokens {s : Text} {found : Scan} (hs : scan s = .ok found)
    (h : ∀ front inner rest, FitsAt s front inner rest →
      ∃ p : Pair found.lexemes, p.Holds found.tail front inner rest ∧ p.Apart found.tail) :
    ∃ us, tokensOf (unwrapClauses s) = .ok us ∧ Unwrapped found.tokens us := by
  obtain ⟨rfl, hfit, htail⟩ := scan_eq_ok_iff.mp hs
  exact Clean.tokens htail hfit h

/-- The tokens of `((A eq 1)) or B`. -/
def doubled : Scan where
  lexemes := [⟨[], opening⟩, ⟨[], opening⟩, ⟨[], .word, ['A']⟩, ⟨[' '], .word, ['e', 'q']⟩,
    ⟨[' '], .number, ['1']⟩, ⟨[], closing⟩, ⟨[], closing⟩, ⟨[' '], .word, ['o', 'r']⟩,
    ⟨[' '], .word, ['B']⟩]
  tail := []

/-- The pattern takes the last of the closing parentheses. -/
def doubledPair : Pair doubled.lexemes where
  before := [⟨[], opening⟩]
  opens := ⟨[], opening⟩
  clause := [⟨[], .word, ['A']⟩, ⟨[' '], .word, ['e', 'q']⟩, ⟨[' '], .number, ['1']⟩]
  closings := [⟨[], closing⟩]
  closes := ⟨[], closing⟩
  after := [⟨[' '], .word, ['o', 'r']⟩, ⟨[' '], .word, ['B']⟩]
  lexemes := rfl
  opens_token := rfl
  isClause := .eq ⟨.word, ['A']⟩ [⟨.number, ['1']⟩] rfl (.value _ (by simp))
  closings_token := by simp
  closes_token := rfl

/-- The pair around the clause goes, and the one around that stays. -/
theorem unwrapClauses_tokens_doubled :
    scan "((A eq 1)) or B".toList = .ok doubled ∧
      (∀ front inner rest, FitsAt "((A eq 1)) or B".toList front inner rest →
        ∃ p : Pair doubled.lexemes, p.Holds doubled.tail front inner rest ∧ p.Apart doubled.tail) ∧
      ∃ us, tokensOf (unwrapClauses "((A eq 1)) or B".toList) = .ok us ∧
        Unwrapped doubled.tokens us := by
  have hs : scan "((A eq 1)) or B".toList = .ok doubled := by cbv
  have hfits : ∀ front inner rest, FitsAt "((A eq 1)) or B".toList front inner rest →
      ∃ p : Pair doubled.lexemes, p.Holds doubled.tail front inner rest ∧ p.Apart doubled.tail := by
    rintro front inner rest ⟨t, ht, hc⟩
    have hsecond : clause none "(A eq 1)) or B".toList =
        some ("A eq 1)".toList, " or B".toList) := by cbv
    rcases front with _ | ⟨c, _ | ⟨d, front⟩⟩
    · have hfirst : clause none "((A eq 1)) or B".toList = none := by cbv
      rw [List.nil_append] at ht
      rw [← ht, hfirst] at hc
      cases hc
    · obtain ⟨rfl, rfl⟩ := List.cons.inj ht
      cases hsecond.symm.trans hc
      exact ⟨doubledPair, ⟨rfl, rfl, rfl⟩, by simp [doubledPair, Lexeme.is, opening],
        by simp [doubledPair, closing, Token.Stops, Lexeme.is]⟩
    · obtain ⟨r, rfl⟩ := starts_of_clause hc
      have htext : "((A eq 1)) or B".toList = '(' :: '(' :: "A eq 1)) or B".toList := by simp
      have hnone : '(' ∉ "A eq 1)) or B".toList := by simp
      rw [htext, List.cons_append, List.cons_append] at ht
      have he := (List.cons.inj (List.cons.inj ht).2).2
      rw [he] at hnone
      exact absurd (by simp) hnone
  exact ⟨hs, hfits, unwrapClauses_tokens hs hfits⟩

/-- The pattern runs into a literal and takes a parenthesis out of it. -/
example : unwrapClauses "(A eq 'x) y' or B eq 1)".toList = "A eq 'x y' or B eq 1)".toList := by
  cbv

end Wrapped

end WhereFilter
