import WhereFilter.Proofs.Reading.Printed
import WhereFilter.Proofs.Token.Fit
import WhereFilter.Rule.Placeholder
import WhereFilter.Text.Blank

namespace WhereFilter

namespace Language

open Reading (Rank unspaced)

def word (w : Text) : Token := ⟨.word, w⟩

def literal (contents : Text) : Token := ⟨.literal, '\'' :: contents ++ ['\'']⟩

def opening : Token := ⟨.parenLeft, ['(']⟩

def closing : Token := ⟨.parenRight, [')']⟩

def comma : Token := ⟨.comma, [',']⟩

def dot : Token := ⟨.dot, ['.']⟩

def minus : Token := ⟨.minus, ['-']⟩

def other (c : Char) : Token := ⟨.other, [c]⟩

/-- The words that are no names. -/
def keywords : List Text :=
  ["AND".toList, "OR".toList, "NOT".toList, "IN".toList, "EQ".toList, "NEQ".toList,
   "COALESCE".toList]

structure IsName (n : Text) : Prop where
  formed : (word n).Formed
  free : ∀ w ∈ keywords, (word n).isWord w = false

/-- The word `w` in any case. -/
def Spells (w s : Text) : Prop :=
  Text.lower s = Text.lower w

/-- No quote, at sign, parenthesis or blank. -/
def isPlainChar (c : Char) : Bool :=
  !(isBlank c || ['\'', '@', '(', ')'].contains c)

def Plain (t : Text) : Prop :=
  ∀ c ∈ t, isPlainChar c = true

/-- What a column is compared with. The truth values stand in filters only. -/
inductive Item
  | number (negative : Bool) (digits : Text)
  | literal (contents : Text)
  | placeholder (quoted : Bool) (p : Placeholder)
  | truth (holds : Bool)

namespace Item

def truthWord (holds : Bool) : Text :=
  if holds then "true".toList else "false".toList

def tokens : Item → List Token
  | .number true digits => [minus, ⟨.number, digits⟩]
  | .number false digits => [⟨.number, digits⟩]
  | .literal contents => [Language.literal contents]
  | .placeholder true p => [Language.literal p.text]
  | .placeholder false ⟨true, name⟩ => [other '@', other '#', word name, other '@']
  | .placeholder false ⟨false, name⟩ => [other '@', word name, other '@']
  | .truth holds => [word (truthWord holds)]

def Formed : Item → Prop
  | .number _ digits => Token.Numeral digits
  | .literal contents => Plain contents
  | .placeholder _ p => IsName p.name
  | .truth _ => True

end Item

/-- Tokens with no gap but the one before the first. -/
def spaced (gap : Text) : List Token → List Lexeme
  | [] => []
  | t :: ts => ⟨gap, t⟩ :: unspaced ts

/-- What `COALESCE` has around a column: its spelling, the text in its place, and gaps. -/
structure Call where
  spelling : Text
  beforeOpen : Text
  inside : Text
  beforeComma : Text
  behindComma : Text
  contents : Text
  beforeClose : Text

structure Call.Formed (k : Call) : Prop where
  spelling : Spells "COALESCE".toList k.spelling
  beforeOpen : IsGap k.beforeOpen
  inside : IsGap k.inside
  beforeComma : IsGap k.beforeComma
  behindComma : IsGap k.behindComma
  contents : '\'' ∉ k.contents ∧ '@' ∉ k.contents
  beforeClose : IsGap k.beforeClose

/-- A column, behind the name of its table or not, in a call or not. -/
structure Subject where
  table : Option Text
  column : Text
  call : Option Call

namespace Subject

def name (gap : Text) (x : Subject) : List Lexeme :=
  match x.table with
  | none => [⟨gap, word x.column⟩]
  | some t => [⟨gap, word t⟩, ⟨[], dot⟩, ⟨[], word x.column⟩]

def lexemes (gap : Text) (x : Subject) : List Lexeme :=
  match x.call with
  | none => x.name gap
  | some k =>
    ⟨gap, word k.spelling⟩ :: ⟨k.beforeOpen, opening⟩ :: (x.name k.inside ++
      [⟨k.beforeComma, comma⟩, ⟨k.behindComma, literal k.contents⟩, ⟨k.beforeClose, closing⟩])

structure Formed (x : Subject) : Prop where
  table : ∀ t, x.table = some t → IsName t
  column : IsName x.column
  call : ∀ k, x.call = some k → k.Formed

end Subject

/-- How two sides are compared. The words stand in filters only. -/
inductive Relation
  | less | greater | lessEquals | greaterEquals
  | equals | doubleEquals | notEquals | bangEquals
  | eqWord | neqWord
  deriving DecidableEq

namespace Relation

def token : Relation → Token
  | .less => ⟨.less, ['<']⟩
  | .greater => ⟨.greater, ['>']⟩
  | .lessEquals => ⟨.lessEquals, ['<', '=']⟩
  | .greaterEquals => ⟨.greaterEquals, ['>', '=']⟩
  | .equals => ⟨.equals, ['=']⟩
  | .doubleEquals => ⟨.doubleEquals, ['=', '=']⟩
  | .notEquals => ⟨.notEquals, ['<', '>']⟩
  | .bangEquals => ⟨.bangEquals, ['!', '=']⟩
  | .eqWord => word "eq".toList
  | .neqWord => word "neq".toList

def isSpelled : Relation → Bool
  | .eqWord | .neqWord => true
  | _ => false

end Relation

inductive Side
  | subject (x : Subject)
  | item (i : Item)

namespace Side

def lexemes (gap : Text) : Side → List Lexeme
  | .subject x => x.lexemes gap
  | .item i => spaced gap i.tokens

def Formed : Side → Prop
  | .subject x => x.Formed
  | .item i => i.Formed

end Side

/-- A word of the language as it is spelled, behind white space. -/
structure Spelling where
  gap : Text
  text : Text

namespace Spelling

def lexeme (s : Spelling) : Lexeme :=
  ⟨s.gap, word s.text⟩

structure Of (w : Text) (s : Spelling) : Prop where
  gap : IsGap s.gap
  apart : s.gap ≠ []
  spells : Spells w s.text

end Spelling

/-- An item of a list with the gaps around it. -/
structure Entry where
  gap : Text
  item : Item
  behind : Text

structure Entry.Formed (e : Entry) : Prop where
  gap : IsGap e.gap
  item : e.item.Formed
  behind : IsGap e.behind

/-- The items of a list with the commas between them and the parenthesis behind them. -/
def entries (e : Entry) : List Entry → List Lexeme
  | [] => spaced e.gap e.item.tokens ++ [⟨e.behind, closing⟩]
  | f :: es => spaced e.gap e.item.tokens ++ ⟨e.behind, comma⟩ :: entries f es

inductive Clause
  | compare (left : Side) (before : Text) (relation : Relation) (behind : Text) (right : Item)
  | member (subject : Subject) (negation : Option Spelling) (membership : Spelling)
      (beforeOpen : Text) (first : Entry) (rest : List Entry)

namespace Clause

def lexemes (gap : Text) : Clause → List Lexeme
  | .compare left before relation behind right =>
    left.lexemes gap ++ ⟨before, relation.token⟩ :: spaced behind right.tokens
  | .member subject negation membership beforeOpen first rest =>
    subject.lexemes gap ++ (negation.toList.map Spelling.lexeme ++
      membership.lexeme :: ⟨beforeOpen, opening⟩ :: entries first rest)

def Formed : Clause → Prop
  | .compare left before relation behind right =>
    left.Formed ∧ IsGap before ∧ IsGap behind ∧ right.Formed ∧
      (relation.isSpelled = true → before ≠ [] ∧ behind ≠ [])
  | .member subject negation membership beforeOpen first rest =>
    subject.Formed ∧ (∀ n, negation = some n → n.Of "NOT".toList) ∧ membership.Of "IN".toList ∧
      IsGap beforeOpen ∧ ∀ e ∈ first :: rest, e.Formed

end Clause

/-- A connective as it is spelled, with the white space on both sides. -/
structure Joint where
  before : Text
  text : Text
  behind : Text

structure Joint.Of (w : Text) (j : Joint) : Prop where
  before : IsGap j.before
  apart : j.before ≠ []
  spells : Spells w j.text
  behind : IsGap j.behind
  apart_behind : j.behind ≠ []

/-- The rules: clauses, joined by connectives and grouped by parentheses to any depth. -/
inductive Rule : Rank → Type
  | clause (c : Clause) : Rule .piece
  | group (inside : Text) (r : Rule .whole) (before : Text) : Rule .piece
  | part (r : Rule .piece) : Rule .part
  | both (l : Rule .piece) (j : Joint) (r : Rule .part) : Rule .part
  | whole (r : Rule .part) : Rule .whole
  | either (l : Rule .part) (j : Joint) (r : Rule .whole) : Rule .whole

namespace Rule

def lexemes (gap : Text) : Rule k → List Lexeme
  | .clause c => c.lexemes gap
  | .group inside r before =>
    ⟨gap, opening⟩ :: (r.lexemes inside ++ [⟨before, closing⟩])
  | .part r | .whole r => r.lexemes gap
  | .both l j r | .either l j r =>
    l.lexemes gap ++ ⟨j.before, word j.text⟩ :: r.lexemes j.behind

/-- The text of a rule between white space. -/
def text (lead tail : Text) (r : Rule k) : Text :=
  (r.lexemes lead).flatMap Lexeme.text ++ tail

/-- Gaps are white space, connectives stand apart, and the clauses are as `P` asks. -/
def Formed (P : Clause → Prop) : Rule k → Prop
  | .clause c => P c
  | .group inside r before => IsGap inside ∧ r.Formed P ∧ IsGap before
  | .part r | .whole r => r.Formed P
  | .both l j r => l.Formed P ∧ j.Of "AND".toList ∧ r.Formed P
  | .either l j r => l.Formed P ∧ j.Of "OR".toList ∧ r.Formed P

theorem Formed.mono {P Q : Clause → Prop} (h : ∀ c, P c → Q c) {r : Rule k} (hr : r.Formed P) :
    r.Formed Q := by
  induction r with
  | clause c => exact h c hr
  | group inside r before ih => exact ⟨hr.1, ih hr.2.1, hr.2.2⟩
  | part r ih => exact ih hr
  | whole r ih => exact ih hr
  | both l j r ihl ihr => exact ⟨ihl hr.1, hr.2.1, ihr hr.2.2⟩
  | either l j r ihl ihr => exact ⟨ihl hr.1, hr.2.1, ihr hr.2.2⟩

/-- The rule with another spelling of the connectives and other pieces for the clauses. -/
def rebuild (spell : Text → Text) (f : Clause → Rule .piece) : Rule k → Rule k
  | .clause c => f c
  | .group inside r before => .group inside (r.rebuild spell f) before
  | .part r => .part (r.rebuild spell f)
  | .whole r => .whole (r.rebuild spell f)
  | .both l j r => .both (l.rebuild spell f) { j with text := spell j.text } (r.rebuild spell f)
  | .either l j r => .either (l.rebuild spell f) { j with text := spell j.text } (r.rebuild spell f)

theorem Formed.rebuild {P Q : Clause → Prop} {spell : Text → Text} {f : Clause → Rule .piece}
    (hspell : ∀ t, Text.lower (spell t) = Text.lower t) (hf : ∀ c, P c → (f c).Formed Q)
    {r : Rule k} (hr : r.Formed P) : (r.rebuild spell f).Formed Q := by
  have hjoint {w : Text} {j : Joint} (hj : j.Of w) : ({ j with text := spell j.text } : Joint).Of w :=
    ⟨hj.before, hj.apart, (hspell j.text).trans hj.spells, hj.behind, hj.apart_behind⟩
  induction r with
  | clause c => exact hf c hr
  | group inside r before ih => exact ⟨hr.1, ih hr.2.1, hr.2.2⟩
  | part r ih => exact ih hr
  | whole r ih => exact ih hr
  | both l j r ihl ihr => exact ⟨ihl hr.1, hjoint hr.2.1, ihr hr.2.2⟩
  | either l j r ihl ihr => exact ⟨ihl hr.1, hjoint hr.2.1, ihr hr.2.2⟩

/-- Whether a rule holds, where `v` says which clauses do. -/
def truth (v : Clause → Bool) : Rule k → Bool
  | .clause c => v c
  | .group _ r _ => r.truth v
  | .part r | .whole r => r.truth v
  | .both l _ r => l.truth v && r.truth v
  | .either l _ r => l.truth v || r.truth v

theorem truth_rebuild (v : Clause → Bool) (spell : Text → Text) (f : Clause → Rule .piece)
    (r : Rule k) : (r.rebuild spell f).truth v = r.truth fun c => (f c).truth v := by
  induction r with
  | clause c => rfl
  | group inside r before ih => exact ih
  | part r ih => exact ih
  | whole r ih => exact ih
  | both l j r ihl ihr => simp [Rule.rebuild, truth, ihl, ihr]
  | either l j r ihl ihr => simp [Rule.rebuild, truth, ihl, ihr]

theorem truth_congr {P : Clause → Prop} {v v' : Clause → Bool} (h : ∀ c, P c → v c = v' c)
    {r : Rule k} (hr : r.Formed P) : r.truth v = r.truth v' := by
  induction r with
  | clause c => exact h c hr
  | group inside r before ih => exact ih hr.2.1
  | part r ih => exact ih hr
  | whole r ih => exact ih hr
  | both l j r ihl ihr => simp [truth, ihl hr.1, ihr hr.2.2]
  | either l j r ihl ihr => simp [truth, ihl hr.1, ihr hr.2.2]

end Rule

end Language

end WhereFilter
