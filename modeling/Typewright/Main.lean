import Typewright.CharacterTable
import Typewright.CommandLine

/-!
# The program

Reads the arguments, the environment and the input, and carries out what `Invocation.run` says.
-/

namespace Typewright

def textOf (s : Bytes) : String := (String.fromUTF8? ⟨s.toArray⟩).getD ""

/-- The variables that the program looks at. -/
def readEnvironment : IO Environment := do
  let names := ["PYEMIT_DEBUG", "PYEMIT_DECLARE_UNIONS", "PYEMIT_ASCII_IDENTIFIERS", "PYEMIT_DIAG_JSON",
    "PYEMIT_SUGGEST"]
  let values ← names.mapM fun name => do
    let value ← IO.getEnv name
    return value.map fun v => (Bytes.ascii name, v.toUTF8.toList)
  return values.filterMap id

/-- All that is left of an open file; what cannot be read is empty. -/
def readRest (handle : IO.FS.Handle) : IO Bytes := do
  try
    return (← handle.readBinToEnd).toList
  catch _ =>
    return []

/-- The content of a file, if it can be opened. -/
def readContents (file : Bytes) : IO (Option Bytes) := do
  try
    return some (← readRest (← IO.FS.Handle.mk (textOf file) .read))
  catch _ =>
    return none

/-- The size from which on a text is written at once. -/
def bufferSize : Nat := 1024

/-- Writes to an open file, and says whether it had room. -/
def writeRest (handle : IO.FS.Handle) (content : Bytes) : IO Writing := do
  try
    handle.write ⟨content.toArray⟩
    handle.flush
    return .complete
  catch _ =>
    return .failed (bufferSize ≤ content.length) []

def writeContents (file content : Bytes) : IO Writing := do
  try
    writeRest (← IO.FS.Handle.mk (textOf file) .write) content
  catch _ =>
    return .refused

def printOutcome (o : Outcome) : IO UInt32 := do
  (← IO.getStdout).write ⟨o.stdout.toArray⟩
  (← IO.getStderr).write ⟨o.stderr.toArray⟩
  return o.exit.toUInt32

end Typewright

open Typewright

def main (args : List String) : IO UInt32 := do
  let env ← readEnvironment
  let i : Invocation := ⟨.table, args.map fun a => a.toUTF8.toList, env, [], fun _ => none, fun _ _ => .complete⟩
  let i ← match i.command with
    | .job j =>
      if j.input = Bytes.ascii "-" then
        let input ← (← IO.getStdin).readBinToEnd
        pure { i with stdin := input.toList }
      else
        let contents ← readContents j.input
        pure { i with contents := fun _ => contents }
    | _ => pure i
  let outcome := i.run
  match outcome.written with
  | none => printOutcome outcome
  | some (file, content) =>
    let writing ← writeContents file content
    printOutcome { i with write := fun _ _ => writing }.run
