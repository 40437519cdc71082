import Lox.Session
import Lox.Text.Quoted

/-!
# Scenarios

A scenario is a program together with the output and the exit status that it should have.
-/

namespace Lox

/-- A program and its expected outcome. -/
structure Scenario where
  name : Bytes
  source : Bytes
  /-- How the source is taken: as an expression if this is `evaluate`, and else as a program. -/
  mode : Bytes
  /-- The names of the dialect switches to turn on. -/
  options : List Bytes
  /-- Whether errors of the running program are reported with the active calls. -/
  backtrace : Bool
  stdout : Bytes
  stderr : Bytes
  status : Int
  deriving DecidableEq, Repr

/-- What a scenario did. -/
structure Scenario.Result where
  stdout : Bytes
  stderr : Bytes
  status : Int
  deriving DecidableEq, Repr

namespace Scenario

/-- A scenario in which nothing is said. -/
def blank : Scenario := ⟨[], [], [], [], false, [], [], 0⟩

/-- The mode in which the source is an expression. -/
def evaluateMode : Bytes := Bytes.ofString "evaluate"

/-- The mode in which the source is a program, as it is if no mode is given. -/
def runMode : Bytes := Bytes.ofString "run"

/-- The switch that tolerates `break` and `continue` outside of loops. -/
def lenientOption : Bytes := Bytes.ofString "lenientbranch"

/-- Runs a scenario on a new machine. Its options hold in addition to what is tolerated anyway. -/
def run (fuel : Nat) (clock : Option Int) (lenient : Bool) (s : Scenario) : Result :=
  match s.options.find? (· ≠ lenientOption) with
  | some option =>
    ⟨[], Bytes.ofString "unknown option " ++ Text.quote option ++ [Bytes.newline], 1⟩
  | none =>
    let lenient := lenient || !s.options.isEmpty
    let m := Machine.start clock 0
    let (result, m) :=
      if s.mode = evaluateMode then
        match m.evalSource fuel s.source with
        | (.ok v, m) => (Except.ok (), (Run.print v.display m).result.2)
        | (.error f, m) => (.error f, m)
      else m.runSource fuel lenient s.source
    let stderr := match result with
      | .ok () => []
      | .error f => f.text s.backtrace ++ [Bytes.newline]
    ⟨m.output, stderr, exitStatus result⟩

/-- Whether a result is the expected one. -/
def passes (s : Scenario) (r : Result) : Bool :=
  r == ⟨s.stdout, s.stderr, s.status⟩

end Scenario
end Lox
