import WhereFilter.Context.Bindings
import WhereFilter.Text.Pattern
import WhereFilter.Text.Word
import WhereFilter.Token.Scan

namespace WhereFilter

/-- A variable in a rule, written `@Name@` or `@#Name@`. -/
structure Placeholder where
  hashed : Bool
  name : Text
  deriving Repr, DecidableEq

namespace Placeholder

def text (p : Placeholder) : Text :=
  '@' :: (if p.hashed then ['#'] else []) ++ p.name ++ ['@']

def pattern : Pattern Char Placeholder := fun _ s => do
  let s ← Text.after? ['@'] s
  let (hashed, s) := match Text.after? ['#'] s with
    | some s => (true, s)
    | none => (false, s)
  let (name, s) ← Text.word? s
  let s ← Text.after? ['@'] s
  some (⟨hashed, name⟩, s)

/-- The names of the variables in `s`, in order. -/
def names (s : Text) : List Text :=
  (pattern.hits s).map name

/-- Writes `render` of the bound value for each placeholder and keeps those unbound. -/
def fill (b : Bindings) (render : Value → Text) (s : Text) : Text :=
  pattern.replace (fun p => match b.lookup? p.name with
    | some v => render v
    | none => p.text) s

theorem covers_pattern : pattern.Covers text := by
  intro back l p rest h
  simp only [pattern, Option.bind_eq_bind, Option.bind_eq_some_iff, Prod.exists,
    Option.some.injEq, Prod.mk.injEq] at h
  obtain ⟨s, hs, name, s', hw, s'', hs'', rfl, rfl⟩ := h
  rw [Text.after?_eq_some] at hs hs''
  have hn := Text.word?_text hw
  subst hs''
  split at hn
  · next t ht =>
    rw [Text.after?_eq_some] at ht
    simp only [ht] at hs
    simp_all [text, Text.after?]
  · next ht =>
    simp only at hn
    simp_all [text]

end Placeholder

/-- A text taken apart at its literals: what comes before the first, and the contents of
each with what comes between it and the next. -/
structure Stretches where
  lead : Text
  literals : List (Text × Text)
  deriving Repr, DecidableEq

namespace Stretches

def ofLexemes (tail : Text) : List Lexeme → Stretches
  | [] => ⟨tail, []⟩
  | l :: ls =>
    let s := ofLexemes tail ls
    if l.is .literal then ⟨l.gap, (l.token.contents, s.lead) :: s.literals⟩
    else { s with lead := l.text ++ s.lead }

/-- Values are spliced into literals and stand as operands between them. -/
def fill (b : Bindings) (s : Stretches) : Text :=
  Placeholder.fill b Value.operand s.lead ++ s.literals.flatMap fun (contents, after) =>
    '\'' :: Placeholder.fill b Value.inLiteral contents ++
      '\'' :: Placeholder.fill b Value.operand after

end Stretches

/-- Puts the bound values in place of the placeholders of `s`. -/
def fillPlaceholders (b : Bindings) (s : Text) : Except Unclosed Text :=
  (scan s).map fun found => (Stretches.ofLexemes found.tail found.lexemes).fill b

end WhereFilter
