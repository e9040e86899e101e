import WhereFilter.Json.Basic

namespace WhereFilter

namespace Json

def hexChar (n : Nat) : Char :=
  if n < 10 then Char.ofNat (48 + n) else Char.ofNat (87 + n)

def escape (c : Char) : Text :=
  if c = '"' ∨ c = '\\' then ['\\', c]
  else if c.toNat < 0x20 then
    ['\\', 'u', '0', '0', hexChar (c.toNat / 16), hexChar (c.toNat % 16)]
  else [c]

def quote (t : Text) : Text :=
  '"' :: t.flatMap escape ++ ['"']

mutual

/-- Without blanks between the parts. -/
def text : Json → Text
  | .null => "null".toList
  | .bool b => if b then "true".toList else "false".toList
  | .int n => Integer.text n
  | .real x => x.text
  | .str t => quote t
  | .arr items => '[' :: itemsText items ++ [']']
  | .obj members => '\x7b' :: membersText members ++ ['\x7d']

def itemsText : List Json → Text
  | [] => []
  | [j] => text j
  | j :: js => text j ++ ',' :: itemsText js

def membersText : List (Text × Json) → Text
  | [] => []
  | [(n, j)] => quote n ++ ':' :: text j
  | (n, j) :: ms => quote n ++ ':' :: text j ++ ',' :: membersText ms

end

end Json

end WhereFilter
