import WhereFilter.Bytewise.Fold

namespace WhereFilter

namespace Bytewise

/-- Writes one space for each run of blanks and none at the ends. -/
def respace (s : Text) : Option Text := do
  let t ← splice (fun _ s => Text.blanks? s) (fun _ => [' ']) s
  return Text.trim t

def plain (run : Text → Option Text) (_ : Bindings) (s : Text) : Option (Except Refusal Text) := do
  let t ← run s
  return .ok t

def scanning (run : Bindings → Text → Option (Except Unclosed Text)) (b : Bindings) (s : Text) :
    Option (Except Refusal Text) := do
  let t ← run b s
  return t.mapError .malformed

/-- The passes in order. -/
def passes : List (Bindings → Text → Option (Except Refusal Text)) :=
  [scanning fun _ => dropQualifiers,
   plain (splice coalesce id),
   scanning fillPlaceholders,
   plain (splice YesNo.comparison fun agree => if agree then "1=1".toList else "1=0".toList),
   scanning fun _ => expandLists,
   scanning fun _ => respell unequalSpelling,
   scanning fun _ => respell equalSpelling,
   scanning fun _ => respell connectiveSpelling,
   plain (splice YesNo.operand fun (op, b) =>
     op ++ ' ' :: if b then "true".toList else "false".toList),
   fun _ => foldMarkers,
   plain (splice Wrapped.clause id),
   plain respace]

def checkSupported (rule : Text) : Option (Except Refusal Unit) :=
  match places Phrase.unsupported rule with
  | [] => some (.ok ())
  | (_, start, stop) :: _ => do
    let phrase ← rule.slice? start stop
    return .error (.unsupported phrase)

/-- Whether each placeholder found is bound. -/
def checkBoundFrom (b : Bindings) (rule : Text) :
    List (Placeholder × Nat × Nat) → Option (Except Refusal Unit)
  | [] => some (.ok ())
  | (p, start, stop) :: found => do
    let last ← minus? stop 1
    let name ← rule.slice? (start + 1 + if p.hashed then 1 else 0) last
    if b.binds name then checkBoundFrom b rule found else return .error (.unbound name)

def checkBound (b : Bindings) (rule : Text) : Option (Except Refusal Unit) :=
  checkBoundFrom b rule (places Placeholder.pattern rule)

def runAll (b : Bindings) :
    List (Bindings → Text → Option (Except Refusal Text)) → Text → Option (Except Refusal Text)
  | [], s => some (.ok s)
  | p :: ps, s => do
    match ← p b s with
    | .ok t => runAll b ps t
    | .error e => return .error e

def translate (b : Bindings) (rule : Text) : Option (Except Refusal Text) := do
  match ← checkSupported rule with
  | .error e => return .error e
  | .ok _ =>
    match ← checkBound b rule with
    | .error e => return .error e
    | .ok _ =>
      match ← runAll b passes rule with
      | .error e => return .error e
      | .ok filter => return if filter.isEmpty then .error .vacuous else .ok filter

end Bytewise

end WhereFilter
