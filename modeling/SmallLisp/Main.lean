import SmallLisp.Prompt.Conversation

set_option autoImplicit false

/-! # The command line

Loads the files named as arguments, then holds a conversation over standard input. Values go to
standard output and diagnostics to standard error. All decisions are made by `Prompt.run`.
-/

namespace SmallLisp.CommandLine

/-- How deeply evaluations may be nested. -/
def nestingLimit : Nat := 1000000

/-- Reads a file as source text. -/
def readSource (path : String) : IO (Except FileError String) := do
  try
    let bytes ← IO.FS.readBinFile path
    match String.fromUTF8? bytes with
    | some text => return .ok text
    | none => return .error .notText
  catch e =>
    match e with
    | .inappropriateType _ 20 _ => return .error .notDirectory
    | .inappropriateType .. => return .error .isDirectory
    | .invalidArgument _ 36 _ => return .error .nameTooLong
    | _ => return .error .missing

/-- Writes a report to standard error. -/
def printReport (r : Report) : IO Unit := do
  IO.eprintln ("Error: " ++ r.message)
  if let some place := r.location then
    IO.eprintln ("  at " ++ place)
  if let some label := r.label then
    IO.eprintln ("  " ++ label)
  if let some help := r.help then
    IO.eprintln ("  Help: " ++ help)

end SmallLisp.CommandLine

open SmallLisp SmallLisp.CommandLine in
/-- Runs the program on the files named by the arguments and on standard input. -/
def main (args : List String) : IO UInt32 := do
  let sources ← args.mapM fun path => return (path, ← readSource path)
  let input ← (← IO.getStdin).readToEnd
  let read := fun path => (sources.lookup path).getD (.error .missing)
  let transcript := Prompt.run read nestingLimit args input.toList
  IO.print transcript.text
  transcript.reports.forM printReport
  return transcript.exitCode.toUInt32
