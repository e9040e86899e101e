import WhereFilter.Rule.Translate

namespace WhereFilter

namespace CommandLine

/-- The value is a truth value or a number if it looks like one. -/
def readValue (value : Text) : Value :=
  if value = "true".toList ∨ value = "Y".toList then .yesNo true
  else if value = "false".toList ∨ value = "N".toList then .yesNo false
  else match Binary64.read? value with
    | some x => .number x
    | none => .text value

/-- Reads `Name=value`. -/
def binding? (argument : Text) : Option (Text × Value) :=
  (cutFirst? '=' argument).map fun (name, value) => (name, readValue value)

def bindings (arguments : List Text) : Bindings :=
  .ofList (arguments.filterMap binding?)

/-- The arguments that bind nothing. -/
def ignored (arguments : List Text) : List Text :=
  arguments.filter fun a => (binding? a).isNone

/-- The answer to one rule, on one line. -/
def answer (b : Bindings) (rule : Text) : Text :=
  match translate b rule with
  | .ok filter => filter
  | .error reason => "Not translated: ".toList ++ reason.message

def decode? (bytes : List UInt8) : Option Text :=
  (String.fromUTF8? ⟨bytes.toArray⟩).map String.toList

/-- The lines up to the first that is not UTF-8, and whether there is such a line. -/
def readable : List (List UInt8) → List Text × Bool
  | [] => ([], false)
  | l :: ls =>
    match decode? l with
    | none => ([], true)
    | some line =>
      let (rest, failed) := readable ls
      (line :: rest, failed)

/-- The lines of the standard input. -/
def inputLines (input : List UInt8) : List Text × Bool :=
  readable (lines 10 13 input)

/-- What a run leaves behind. -/
structure Report where
  answers : List Text
  ignored : List Text
  failed : Bool
  deriving Repr, DecidableEq

def run (arguments : List Text) (input : List UInt8) : Report :=
  let (rules, failed) := inputLines input
  { answers := rules.map (answer (bindings arguments))
    ignored := ignored arguments
    failed }

/-- A line of the output: how long the answer took, and the answer. -/
def outputLine (micros : Nat) (answer : Text) : Text :=
  "[in ".toList ++ Digits.ofNat micros ++ "μs] ".toList ++ answer

/-- The standard output, where answer `i` took `micros i`. -/
def Report.output (micros : Nat → Nat) (r : Report) : Text :=
  (r.answers.mapIdx fun i answer => outputLine (micros i) answer ++ ['\n']).flatten

def exitCode (failed : Bool) : UInt32 :=
  if failed then 1 else 0

end CommandLine

end WhereFilter
