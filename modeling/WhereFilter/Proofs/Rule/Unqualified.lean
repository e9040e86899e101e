import WhereFilter.Proofs.Rule.Operators
import WhereFilter.Proofs.Rule.Removal

namespace WhereFilter

/-- A table name, a dot and a column name with no gap between them. -/
structure Joined (table dot column : Lexeme) : Prop where
  front : table.token.kind = .word
  sign : dot.token.kind = .dot
  back : column.token.kind = .word
  close : dot.gap = [] ∧ column.gap = []

/-- From left to right each table name and its dot go, and the column name moves to where the
table name began. A column is no table name for what follows it. -/
inductive Drops : List Lexeme → List Lexeme → Prop
  | nil : Drops [] []
  | qualifier {table dot column : Lexeme} {ls ms : List Lexeme} :
      Joined table dot column → Drops ls ms →
      Drops (table :: dot :: column :: ls) (⟨table.gap, column.token⟩ :: ms)
  | kept {l : Lexeme} {ls ms : List Lexeme} :
      (∀ dot column rest, ls = dot :: column :: rest → ¬Joined l dot column) → Drops ls ms →
      Drops (l :: ls) (l :: ms)

theorem qualified_eq_some_iff_joined {back : Option Lexeme} {ls rest : List Lexeme} {l : Lexeme} :
    qualified back ls = some (l, rest) ↔ ∃ table dot column, ls = table :: dot :: column :: rest ∧
      l = ⟨table.gap, column.token⟩ ∧ Joined table dot column := by
  rw [qualified_eq_some]
  simp only [Lexeme.is, beq_iff_eq]
  constructor
  · rintro ⟨table, dot, column, hls, hl, ht, hd, hc, hclose⟩
    exact ⟨table, dot, column, hls, hl, ht, hd, hc, hclose⟩
  · rintro ⟨table, dot, column, hls, hl, ht, hd, hc, hclose⟩
    exact ⟨table, dot, column, hls, hl, ht, hd, hc, hclose⟩

theorem drops_replace (ls : List Lexeme) :
    Drops ls (qualified.replace (fun column => [column]) ls) := by
  -- a qualifier takes three lexemes at once
  induction hn : ls.length using Nat.strongRecOn generalizing ls with
  | _ n ih =>
    subst hn
    rcases Pattern.segments_cases forward_qualified advances_qualified ls with
      rfl | ⟨l, rest, rfl, hnone, hg⟩ | ⟨l, front, rest, -, hls, hp, hg⟩
    · exact .nil
    · rw [Pattern.replace_of_item hg]
      refine .kept ?_ (ih _ (by simp) rest rfl)
      rintro dot column rest rfl hjoined
      rw [qualified_eq_some_iff_joined.mpr ⟨l, dot, column, rfl, rfl, hjoined⟩] at hnone
      cases hnone
    · rw [Pattern.replace_of_hit hg]
      obtain ⟨table, dot, column, rfl, rfl, hjoined⟩ := qualified_eq_some_iff_joined.mp hp
      exact .qualifier hjoined (ih _ (by simp; omega) rest rfl)

namespace Drops

variable {ls ms : List Lexeme} {tail : Text}

/-- What ends before a text ends before the text without its table names. -/
theorem eases (h : Drops ls ms) (hfit : Fit ls tail) :
    Eases (ls.flatMap Lexeme.text ++ tail) (ms.flatMap Lexeme.text ++ tail) := by
  induction h with
  | nil => exact fun _ ht => ht
  | @qualifier table dot column ls ms hjoined _ _ =>
    have hword : Eases
        (table.token.text ++ (dot.text ++ (column.text ++ ls.flatMap Lexeme.text) ++ tail))
        (column.token.text ++ (ms.flatMap Lexeme.text ++ tail)) :=
      .of_words (hfit.formed_of_mem (by simp)) hjoined.front (hfit.formed_of_mem (by simp))
        hjoined.back _ _
    simpa [Lexeme.text] using hword.append table.gap
  | @kept l ls ms _ _ ih =>
    simpa using (ih hfit.2.2.2).append l.text

/-- The column is read as it was, and nothing joins it in place of the table name. -/
theorem fit (h : Drops ls ms) (hfit : Fit ls tail) : Fit ms tail := by
  induction h with
  | nil => trivial
  | qualifier _ hrest ih =>
    obtain ⟨hg, -, -, -, -, -, -, hcolumn, hstops, hfit⟩ := hfit
    exact ⟨hg, hcolumn, hrest.eases hfit _ hstops, ih hfit⟩
  | kept _ hrest ih =>
    obtain ⟨hg, hf, hstops, hfit⟩ := hfit
    exact ⟨hg, hf, hrest.eases hfit _ hstops, ih hfit⟩

/-- Only words and dots go. -/
theorem filter_eq (h : Drops ls ms) :
    ms.filter (fun l => !l.is .word && !l.is .dot) =
      ls.filter (fun l => !l.is .word && !l.is .dot) := by
  induction h with
  | nil => rfl
  | qualifier hjoined _ ih =>
    simp [Lexeme.is, hjoined.front, hjoined.sign, hjoined.back] at ih ⊢
    exact ih
  | kept _ _ ih => simp [List.filter_cons, ih]

theorem gaps_eq (h : Drops ls ms) : ms.flatMap Lexeme.gap = ls.flatMap Lexeme.gap := by
  induction h with
  | nil => rfl
  | qualifier hjoined _ ih => simp [ih, hjoined.close]
  | kept _ _ ih => simp [ih]

end Drops

/-- Table names go where a text can be read, and nowhere else. What is left is read as the lexemes
that are left, so no token joins another across what has gone. White space stays, and so does each
token but words and dots. -/
theorem dropQualifiers_tokens (s : Text) :
    (∀ e, dropQualifiers s = .error e ↔ tokenize s = .error e) ∧
    ∀ found, scan s = .ok found → ∃ ms, Drops found.lexemes ms ∧
      dropQualifiers s = .ok (Scan.text ⟨ms, found.tail⟩) ∧
      scan (Scan.text ⟨ms, found.tail⟩) = .ok ⟨ms, found.tail⟩ ∧
      tokenize (Scan.text ⟨ms, found.tail⟩) = .ok (place 0 ms) ∧
      ms.filter (fun l => !l.is .word && !l.is .dot) =
        found.lexemes.filter (fun l => !l.is .word && !l.is .dot) ∧
      ms.flatMap Lexeme.gap = found.lexemes.flatMap Lexeme.gap := by
  refine ⟨fun e => dropQualifiers_eq_error_iff, fun found hs => ?_⟩
  obtain ⟨-, hfit, htail⟩ := scan_eq_ok_iff.mp hs
  obtain ⟨ms, hms⟩ : ∃ ms, ms = qualified.replace (fun column => [column]) found.lexemes :=
    ⟨_, rfl⟩
  have hdrops : Drops found.lexemes ms := hms ▸ drops_replace found.lexemes
  have hscan : scan (Scan.text ⟨ms, found.tail⟩) = .ok ⟨ms, found.tail⟩ :=
    scan_eq_ok_iff.mpr ⟨rfl, hdrops.fit hfit, htail⟩
  refine ⟨ms, hdrops, ?_, hscan, ?_, hdrops.filter_eq, hdrops.gaps_eq⟩
  · rw [dropQualifiers, hs, hms]
    rfl
  · rw [tokenize, hscan]
    rfl

/-- A chain of dots loses only its first name, and no number or literal loses its dot. -/
theorem dropQualifiers_tokens_chain :
    ∃ found ms, scan "1.A.B.C='T.x' AND D. E>1.5".toList = .ok found ∧ Drops found.lexemes ms ∧
      Scan.text ⟨ms, found.tail⟩ = "1.B.C='T.x' AND D. E>1.5".toList ∧
      tokenize (Scan.text ⟨ms, found.tail⟩) = .ok (place 0 ms) := by
  obtain ⟨found, hs, htext⟩ : ∃ found, scan "1.A.B.C='T.x' AND D. E>1.5".toList = .ok found ∧
      dropQualifiers "1.A.B.C='T.x' AND D. E>1.5".toList =
        .ok "1.B.C='T.x' AND D. E>1.5".toList :=
    ⟨_, by cbv, by cbv⟩
  obtain ⟨ms, hdrops, hout, -, hread, -⟩ := (dropQualifiers_tokens _).2 found hs
  rw [hout] at htext
  exact ⟨found, ms, hs, hdrops, Except.ok.inj htext, hread⟩

end WhereFilter
