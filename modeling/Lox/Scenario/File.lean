import Lox.Files
import Lox.Scenario.Reading

/-!
# Files of scenarios

A file of scenarios is a document with a sequence of mappings, one for each scenario. A file is
refused as a whole if anything in it does not fit, and then all that does not fit is reported.
-/

namespace Lox.Scenario

/-- Why a file of scenarios is refused. -/
inductive LoadError where
  | unreadable (failure : FileFailure)
  | malformed (failure : Yaml.Failure)
  | empty
  | obstructed (obstacle : Obstacle)
  | mismatched (misfits : List Misfit)
  | unknownMode (name mode : Bytes)
  deriving DecidableEq, Repr

/-- The report that the file at `path` is refused. -/
def LoadError.message (path : Bytes) : LoadError → Bytes
  | .unreadable failure => failure.message
  | .malformed failure => parsing ++ Bytes.ofString failure.message
  | .empty => Bytes.ofString "loxtest: " ++ path ++ Bytes.ofString " is empty"
  | .obstructed obstacle => parsing ++ obstacle.message
  | .mismatched misfits =>
    parsing ++ Bytes.ofString "yaml: unmarshal errors:" ++
      misfits.flatMap fun m ↦ Bytes.ofString "\n  " ++ m.message
  | .unknownMode name mode =>
    Bytes.ofString "loxtest: " ++ path ++ Bytes.ofString ": " ++ name ++
      Bytes.ofString ": unknown mode " ++ Text.quote mode
where
  /-- The beginning of a report about the content. -/
  parsing : Bytes := Bytes.ofString "loxtest: parse " ++ path ++ Bytes.ofString ": "

/-- Gives a scenario without a name one by its number. -/
def named (s : Scenario) (number : Nat) : Scenario :=
  if s.name.isEmpty then { s with name := Bytes.ofString "scenario" ++ Bytes.ofNat number } else s

/-- Whether a mode is known. -/
def isMode (mode : Bytes) : Bool := mode.isEmpty || mode == runMode || mode == evaluateMode

/-- The scenarios of a file's content. -/
def parse (content : Bytes) : Except LoadError (List Scenario) :=
  match Yaml.read content with
  | .error failure => .error (.malformed failure)
  | .ok none => .error .empty
  | .ok (some root) =>
    match readDocument root with
    | .error obstacle => .error (.obstructed obstacle)
    | .ok (read, []) =>
      let scenarios := read.zipIdx.map fun (s, i) ↦ s.named i
      match scenarios.find? (!isMode ·.mode) with
      | some s => .error (.unknownMode s.name s.mode)
      | none => .ok scenarios
    | .ok (_, misfits) => .error (.mismatched misfits)

/-- The scenarios of the file at `path`. -/
def load (files : Files) (path : Bytes) : Except LoadError (List Scenario) :=
  match files.read path with
  | .error failure => .error (.unreadable failure)
  | .ok content => parse content

end Lox.Scenario
