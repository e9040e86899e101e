import WhereFilter.Token.Scan

namespace WhereFilter

/-- Writes the tokens that `spelling` has a text for anew and keeps all else. -/
def respell (spelling : Token → Option Text) (s : Text) : Except Unclosed Text :=
  (scan s).map fun found =>
    found.lexemes.flatMap (fun l => l.gap ++ (spelling l.token).getD l.token.text) ++ found.tail

def unequalSpelling (t : Token) : Option Text :=
  match t.kind with
  | .notEquals | .bangEquals => some " neq ".toList
  | _ => none

def equalSpelling (t : Token) : Option Text :=
  match t.kind with
  | .equals | .doubleEquals => some " eq ".toList
  | _ => none

def connectiveSpelling (t : Token) : Option Text :=
  if t.isWord "AND".toList then some "and".toList
  else if t.isWord "OR".toList then some "or".toList
  else none

end WhereFilter
