import Lox.Cli.Command

/-!
# The program

The program reads its arguments, makes and reads the files that they ask for, and writes the report
that the command line gives. All that it decides is decided there.
-/

namespace Lox.Cli

/-- The report of a file that cannot be used. -/
def refused (operation : String) (path : Bytes) : IO.Error → Report
  | .noFileOrDirectory .. => fatal (FileFailure.message ⟨operation, path, .notFound⟩)
  | .inappropriateType .. => fatal (FileFailure.message ⟨"read", path, .isDirectory⟩)
  | e => fatal (Bytes.ofString (toString e))

/-- A path as text, if it is text. -/
def pathText (path : Bytes) : String := (String.fromUTF8? ⟨path.toArray⟩).getD ""

/-- Makes the files for profiles. The result is a report if one of them cannot be made. -/
def makeProfiles : List Bytes → IO (Option Report)
  | [] => return none
  | path :: rest => do
    match ← (IO.FS.writeBinFile (pathText path) .empty).toBaseIO with
    | .ok _ => makeProfiles rest
    | .error e => return some (refused "open" path e)

/-- Does what the arguments ask for. -/
def execute (invocation : Invocation) : IO Report := do
  let s := invocation.settings
  if let some report := ← makeProfiles s.profiles then return report
  let clock : Option Int := some (← IO.monoNanosNow)
  match invocation.job with
  | .report r => return r
  | .repl =>
    let input ← (← IO.getStdin).readBinToEnd
    return runLines plentyOfFuel clock s input.data.toList
  | .file command path =>
    match ← (IO.FS.readBinFile (pathText path)).toBaseIO with
    | .ok content => return command.perform plentyOfFuel clock s content.data.toList
    | .error e => return refused "open" path e

end Lox.Cli

/-- Runs the program. -/
def main (args : List String) : IO UInt32 := do
  let report ← Lox.Cli.execute (.ofArgs (args.map Lox.Bytes.ofString))
  (← IO.getStdout).write ⟨report.stdout.toArray⟩
  (← IO.getStderr).write ⟨report.stderr.toArray⟩
  return report.status.toUInt32
