import WhereFilter.Proofs.Rule.Tidy
import WhereFilter.Proofs.Token.Fit
import WhereFilter.Rule.Coalesce
import WhereFilter.Rule.Qualifier

namespace WhereFilter

open Placeholder

theorem forward_qualified : qualified.Forward := fun _ _ => rfl

theorem qualified_eq_some {back : Option Lexeme} {ls rest : List Lexeme} {l : Lexeme} :
    qualified back ls = some (l, rest) ↔
      ∃ table dot column, ls = table :: dot :: column :: rest ∧
        l = { column with gap := table.gap } ∧ table.is .word = true ∧ dot.is .dot = true ∧
        column.is .word = true ∧ dot.gap = [] ∧ column.gap = [] := by
  unfold qualified
  split
  · next table dot column rest' =>
    constructor
    · intro h
      split at h
      · next hk =>
        simp only [Option.some.injEq, Prod.mk.injEq] at h
        obtain ⟨rfl, rfl⟩ := h
        simp only [Bool.and_eq_true, List.isEmpty_iff] at hk
        obtain ⟨⟨⟨⟨ht, hd⟩, hc⟩, hdg⟩, hcg⟩ := hk
        exact ⟨table, dot, column, rfl, rfl, ht, hd, hc, hdg, hcg⟩
      · cases h
    · rintro ⟨table, dot, column, he, rfl, ht, hd, hc, hdg, hcg⟩
      cases he
      simp [ht, hd, hc, hdg, hcg]
  · next hne =>
    constructor
    · intro h
      cases h
    · rintro ⟨table, dot, column, rfl, -⟩
      exact absurd rfl (hne table dot column rest)

theorem advances_qualified : qualified.Advances := by
  intro back l b rest h
  obtain ⟨table, dot, column, rfl, -⟩ := qualified_eq_some.mp h
  exact ⟨[table, dot, column], by simp, rfl⟩

theorem dropQualifiers_eq_error_iff {s : Text} {e : Unclosed} :
    dropQualifiers s = .error e ↔ tokenize s = .error e := by
  rw [dropQualifiers, tokenize]
  cases scan s <;> simp [Except.map]

theorem text_of_dot {t : Token} (hf : t.Formed) (hk : t.kind = .dot) : t.text = ['.'] := by
  obtain ⟨kind, text⟩ := t
  simp only at hk
  subst hk
  simpa [Token.Formed, Token.signs] using hf

theorem at_not_mem_word {t : Token} (hf : t.Formed) (hk : t.kind = .word) : '@' ∉ t.text := by
  obtain ⟨kind, text⟩ := t
  simp only at hk
  subst hk
  obtain ⟨c, r, rfl, hc, hr⟩ := hf
  intro hm
  rcases List.mem_cons.mp hm with rfl | hm
  · cases hc
  · cases hr _ hm

/-- A table name goes with its dot, which no placeholder has in it. -/
theorem tidy_replace_qualified {ns : List Text} {u tail : Text} {ls : List Lexeme}
    (hf : ∀ l ∈ ls, l.token.Formed) (h : Tidy ns (u ++ (ls.flatMap Lexeme.text ++ tail))) :
    Tidy ns (u ++ ((qualified.replace (fun l => [l]) ls).flatMap Lexeme.text ++ tail)) := by
  induction hl : ls.length using Nat.strongRecOn generalizing ls u with
  | _ n ih =>
    subst hl
    rcases Pattern.segments_cases forward_qualified advances_qualified ls with
      rfl | ⟨l, r, rfl, -, hg⟩ | ⟨l, front, r, -, rfl, hp, hg⟩
    · exact h
    · rw [List.flatMap_cons, List.append_assoc, ← List.append_assoc] at h
      have hrest := ih _ (by simp) (fun a ha => hf a (List.mem_cons_of_mem l ha)) h rfl
      rw [Pattern.replace_of_item hg]
      simpa using hrest
    · obtain ⟨table, dot, column, he, rfl, ht, hd, -, hdg, hcg⟩ := qualified_eq_some.mp hp
      rw [he] at hf h
      have hdot : dot.token.text = ['.'] :=
        text_of_dot (hf dot (by simp)) (by simpa [Lexeme.is] using hd)
      have htable : '@' ∉ table.token.text :=
        at_not_mem_word (hf table (by simp)) (by simpa [Lexeme.is] using ht)
      have hcut : Tidy ns ((u ++ table.gap) ++ (table.token.text ++ '.' :: ([] ++
          (column.token.text ++ (r.flatMap Lexeme.text ++ tail))))) := by
        simpa [Lexeme.text, hdot, hdg, hcg] using h
      have hgone := Tidy.remove_plain htable rfl (by simp) hcut
      rw [← List.append_assoc] at hgone
      have hlen : r.length < (front ++ r).length := by
        rw [he]
        simp
        omega
      have hrest := ih _ hlen (fun a ha => hf a (by simp [ha])) hgone rfl
      rw [Pattern.replace_of_hit hg]
      simpa [Lexeme.text] using hrest

theorem tidy_dropQualifiers {ns : List Text} {s t : Text} (h : Tidy ns s)
    (ht : dropQualifiers s = .ok t) : Tidy ns t := by
  cases hs : scan s with
  | error e => simp [dropQualifiers, hs, Except.map] at ht
  | ok found =>
    simp only [dropQualifiers, hs, Except.map, Except.ok.injEq] at ht
    subst ht
    obtain ⟨rfl, hf, -⟩ := scan_eq_ok_iff.mp hs
    exact tidy_replace_qualified (u := []) (fun l hl => hf.formed_of_mem hl) h

theorem forward_coalesce : coalesce.Forward := fun _ _ => rfl

theorem of_dropWhile {p : α → Bool} {l r : List α} (h : l.dropWhile p = r) :
    ∃ f, (∀ a ∈ f, p a = true) ∧ l = f ++ r := by
  subst h
  exact ⟨l.takeWhile p, holds_of_mem_takeWhile, List.takeWhile_append_dropWhile.symm⟩

theorem folded?_folds {word t s rest : Text} (h : Text.folded? word t = some (s, rest)) :
    s.map foldCase = word.map foldCase := by
  induction word generalizing t s with
  | nil =>
    simp only [Text.folded?, Option.some.injEq, Prod.mk.injEq] at h
    simp [← h.1]
  | cons a word ih =>
    cases t with
    | nil => simp [Text.folded?] at h
    | cons c t =>
      unfold Text.folded? at h
      split at h
      · next hc =>
        simp only [Option.map_eq_some_iff, Prod.exists, Prod.mk.injEq] at h
        obtain ⟨s', _, hs, rfl, rfl⟩ := h
        simp [ih hs, hc]
      · cases h

/-- The pieces of a call. -/
theorem pieces_of_coalesce {back : Option Char} {s rest name : Text}
    (h : coalesce back s = some (name, rest)) :
    ∃ word b₁ b₂ b₃ b₄ contents b₅,
      s = word ++ (b₁ ++ '(' :: (b₂ ++ (name ++ (b₃ ++ ',' :: (b₄ ++ '\'' :: (contents ++
        '\'' :: (b₅ ++ ')' :: rest))))))) ∧
      word.map foldCase = "coalesce".toList ∧ (∀ c ∈ b₁, isBlank c = true) ∧
      (∀ c ∈ b₂, isBlank c = true) ∧ (∀ c ∈ b₃, isBlank c = true) ∧
      (∀ c ∈ b₄, isBlank c = true) ∧ '\'' ∉ contents ∧ (∀ c ∈ b₅, isBlank c = true) ∧
      name ≠ [] ∧ ∀ c ∈ name, isWordChar c = true := by
  simp only [coalesce, Option.bind_eq_bind, Option.bind_eq_some_iff, Prod.exists,
    Option.some.injEq, Prod.mk.injEq] at h
  obtain ⟨word, s₁, hword, s₂, h₂, name', s₃, hname, s₄, h₄, s₅, h₅, s₆, h₆, s₇, h₇, rfl, rfl⟩ := h
  rw [Text.after?_eq_some] at h₂ h₄ h₅ h₆ h₇
  obtain ⟨b₁, hb₁, rfl⟩ := of_dropWhile h₂
  obtain ⟨b₂, hb₂, rfl⟩ := of_dropWhile (Text.word?_text hname)
  obtain ⟨b₃, hb₃, rfl⟩ := of_dropWhile h₄
  obtain ⟨b₄, hb₄, rfl⟩ := of_dropWhile h₅
  obtain ⟨contents, hc, rfl⟩ := of_dropWhile h₆
  obtain ⟨b₅, hb₅, rfl⟩ := of_dropWhile h₇
  obtain ⟨-, hne, hchars, -⟩ := Text.word?_eq_some.mp hname
  have hquote : '\'' ∉ contents := fun hm => by simpa using hc _ hm
  exact ⟨word, b₁, b₂, b₃, b₄, contents, b₅, Text.folded?_text hword, folded?_folds hword, hb₁, hb₂,
    hb₃, hb₄, hquote, hb₅, hne, hchars⟩

/-- The pieces of a call around the name and the literal. -/
theorem of_coalesce {back : Option Char} {s rest name : Text}
    (h : coalesce back s = some (name, rest)) :
    ∃ word b₁ b₂ b₃ m,
      s = word ++ (b₁ ++ '(' :: (b₂ ++ (name ++ (b₃ ++ ',' :: (m ++ ')' :: rest))))) ∧
      word.map foldCase = "coalesce".toList ∧ (∀ c ∈ b₁, isBlank c = true) ∧
      (∀ c ∈ b₂, isBlank c = true) ∧ (∀ c ∈ b₃, isBlank c = true) ∧
      ∀ c ∈ name, isWordChar c = true := by
  obtain ⟨word, b₁, b₂, b₃, b₄, contents, b₅, rfl, hword, hb₁, hb₂, hb₃, -, -, -, -, hchars⟩ :=
    pieces_of_coalesce h
  exact ⟨word, b₁, b₂, b₃, b₄ ++ '\'' :: (contents ++ '\'' :: b₅), by simp, hword, hb₁, hb₂, hb₃,
    hchars⟩

theorem advances_coalesce : coalesce.Advances := by
  intro back s name rest h
  obtain ⟨word, b₁, b₂, b₃, m, rfl, hword, -⟩ := of_coalesce h
  refine ⟨word ++ (b₁ ++ '(' :: (b₂ ++ (name ++ (b₃ ++ ',' :: (m ++ [')']))))), ?_, by simp⟩
  intro hn
  rw [(List.append_eq_nil_iff.mp hn).1] at hword
  cases hword

theorem at_not_mem_blank {g : Text} (hg : ∀ c ∈ g, isBlank c = true) : '@' ∉ g := by
  intro hm
  cases hg _ hm

theorem at_not_mem_folded {word : Text} (hw : word.map foldCase = "coalesce".toList) :
    '@' ∉ word := by
  intro hm
  have hfold := List.mem_map_of_mem (f := foldCase) hm
  rw [hw] at hfold
  exact absurd hfold (by decide)

theorem tidy_replace_coalesce {ns : List Text} {u s : Text} (h : Tidy ns (u ++ s)) :
    ∃ ms, ms ⊆ ns ∧ Tidy ms (u ++ coalesce.replace id s) := by
  induction hl : s.length using Nat.strongRecOn generalizing ns u s with
  | _ n ih =>
    subst hl
    rcases Pattern.segments_cases forward_coalesce advances_coalesce s with
      rfl | ⟨c, r, rfl, -, hg⟩ | ⟨name, front, r, hn, he, hp, hg⟩
    · exact ⟨ns, fun _ hm => hm, h⟩
    · rw [List.append_cons] at h
      obtain ⟨ms, hms, htidy⟩ := ih _ (by simp) h rfl
      rw [Pattern.replace_of_item hg]
      exact ⟨ms, hms, by simpa using htidy⟩
    · have hlen : r.length < s.length := by
        have := List.length_pos_iff.mpr hn
        rw [he]
        simp
        omega
      rw [Pattern.replace_of_hit hg]
      obtain ⟨word, b₁, b₂, b₃, m, hs, hword, hb₁, hb₂, hb₃, -⟩ := of_coalesce hp
      rw [hs, ← List.append_assoc word] at h
      have hcall : '@' ∉ word ++ b₁ := by
        rw [List.mem_append, not_or]
        exact ⟨at_not_mem_folded hword, at_not_mem_blank hb₁⟩
      have hname := Tidy.remove_plain hcall rfl (at_not_mem_blank hb₂) h
      rw [← List.append_assoc] at hname
      obtain ⟨ms, hms, hrest⟩ := Tidy.remove (x := []) (at_not_mem_blank hb₃) rfl rfl (by simp) hname
      obtain ⟨ks, hks, htidy⟩ := ih _ hlen hrest rfl
      exact ⟨ks, fun n hn => hms (hks hn), by simpa using htidy⟩

/-- A dropped call may take placeholders with it, and brings in none. -/
theorem tidy_dropCoalesce {ns : List Text} {s : Text} (h : Tidy ns s) :
    ∃ ms, ms ⊆ ns ∧ Tidy ms (dropCoalesce s) :=
  tidy_replace_coalesce (u := []) h

end WhereFilter
