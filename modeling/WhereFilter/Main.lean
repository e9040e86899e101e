import WhereFilter.CommandLine

namespace WhereFilter.CommandLine

/-- Everything up to the end of the input. -/
partial def readAll (input : IO.FS.Stream) (found : ByteArray) : IO ByteArray := do
  let chunk ← input.read 65536
  if chunk.isEmpty then return found
  readAll input (found ++ chunk)

end WhereFilter.CommandLine

open WhereFilter

def main (arguments : List String) : IO UInt32 := do
  let arguments := arguments.map String.toList
  for a in CommandLine.ignored arguments do
    IO.eprintln ("ignoring argument, expected Name=value: " ++ String.ofList a)
  let bindings := CommandLine.bindings arguments
  let input ← CommandLine.readAll (← IO.getStdin) .empty
  let (rules, failed) := CommandLine.inputLines input.toList
  for rule in rules do
    let start ← IO.monoNanosNow
    let answer ← IO.lazyPure fun _ => CommandLine.answer bindings rule
    let stop ← IO.monoNanosNow
    IO.println (String.ofList (CommandLine.outputLine ((stop - start) / 1000) answer))
  if failed then
    IO.eprintln "the input is not UTF-8"
  return CommandLine.exitCode failed
