import Lox.Session

/-!
# Running lines as they come

Each line of the input is run on one machine, so that what one line declares is there for the next.
A line whose last token is neither a semicolon nor a closing brace is an expression, whose value is
printed; any other line is a program. Errors are reported, and the next line is run.
-/

namespace Lox.Repl

/-- A line, its end included, has to be found within this many bytes. -/
def lineLimit : Nat := 65536

/-- The report of a line that is too long. -/
def lineTooLong : Bytes := Bytes.ofString "bufio.Scanner: token too long"

/-- The lines of an input. -/
structure Lines where
  lines : List Bytes
  /-- Whether a line was too long. The lines before it are given, but none after it. -/
  cutOff : Bool
  deriving DecidableEq, Repr

/-- Splits an input into lines, each without its line feed and without one carriage return before
that. What follows the last line feed is a line too, unless it is empty. -/
def readLines (input : Bytes) : Lines := go [] input
where
  /-- Takes line after line off the front, keeping those taken in reverse. -/
  go (acc : List Bytes) : Bytes → Lines
    | [] => ⟨acc.reverse, false⟩
    | b :: rest =>
      let line := (b :: rest).takeWhile (· != Bytes.newline)
      if lineLimit ≤ line.length then ⟨acc.reverse, true⟩
      else
        go (Bytes.dropTrailing (Bytes.ascii '\r') line :: acc) ((b :: rest).drop (line.length + 1))
  termination_by input => input.length
  decreasing_by simp only [List.length_drop, List.length_cons]; omega

/-- Whether the tokens of a line are those of an expression, judged by the last one before the
end. -/
def isExpression (tokens : List Token) : Bool :=
  match tokens.dropLast.getLast? with
  | some t => !(t.kind == .semicolon || t.kind == .rightBrace)
  | none => true

/-- A dialogue: the machine, with what was printed on it, and what was reported so far. -/
structure Dialogue where
  machine : Machine
  stderr : Bytes

/-- Runs one line. A line without tokens does nothing. -/
def step (fuel : Nat) (lenient backtrace : Bool) (d : Dialogue) (line : Bytes) : Dialogue :=
  let scanned := scan line
  if scanned.tokens.length == 1 && scanned.errors.isEmpty then d
  else
    let (result, m) :=
      if isExpression scanned.tokens then
        match d.machine.evalSource fuel line with
        | (.ok v, m) => (Except.ok (), (Run.print v.display m).result.2)
        | (.error f, m) => (.error f, m)
      else d.machine.runSource fuel lenient line
    match result with
    | .ok () => { d with machine := m }
    | .error f => ⟨m, d.stderr ++ f.text backtrace ++ [Bytes.newline]⟩

/-- The result of running an input. -/
structure Transcript where
  stdout : Bytes
  stderr : Bytes
  /-- Whether the input could not be read to its end. -/
  cutOff : Bool
  deriving DecidableEq, Repr

/-- Runs the lines of an input on a machine. -/
def run (fuel : Nat) (lenient backtrace : Bool) (m : Machine) (input : Bytes) : Transcript :=
  let lines := readLines input
  let d := lines.lines.foldl (step fuel lenient backtrace) ⟨m, []⟩
  { stdout := d.machine.output
    stderr := if lines.cutOff then d.stderr ++ lineTooLong ++ [Bytes.newline] else d.stderr
    cutOff := lines.cutOff }

end Lox.Repl
