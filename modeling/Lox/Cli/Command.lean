import Lox.Files
import Lox.Cli.Flags
import Lox.Cli.Listing
import Lox.Repl
import Lox.Syntax.Printer

/-!
# The command line

The arguments select what to do: list the tokens of a file, show the structure of an expression,
evaluate it, run a program, or run lines of the standard input as they come. What that needs of the
outside world is little: one file or the standard input, and possibly to make files for profiles.
So the arguments are first turned into an `Invocation`, which says what is needed, and then the
result is a function of that.
-/

namespace Lox.Cli

/-- What a process leaves behind: its output and its status. -/
structure Report where
  stdout : Bytes
  stderr : Bytes
  status : Nat
  deriving DecidableEq, Repr

/-- How the command line is used. -/
def usage : Bytes :=
  Bytes.ofString "Usage: lox tokenize|parse|evaluate|run <filename>\n       lox repl\n"

/-- The status of a process that was used wrongly. -/
def usageStatus : Nat := 64

/-- The report of a failure outside of the program. -/
def fatal (message : Bytes) : Report :=
  ⟨[], Bytes.ofString "lox: " ++ message ++ [Bytes.newline], 1⟩

/-- What is done with a file. -/
inductive Command where
  | tokenize (json : Bool)
  | parse
  | evaluate
  | run
  deriving DecidableEq, Repr

/-- What the arguments after the flags ask for. -/
inductive Job where
  /-- Nothing but this report. -/
  | report (r : Report)
  /-- To run the lines of the standard input. -/
  | repl
  | file (command : Command) (path : Bytes)
  deriving DecidableEq, Repr

/-- Reads single-letter options at the front of the arguments, several of which may share a minus
sign. Gives the letters and the operands after them, or the first letter that is not allowed. -/
def readOptions (allowed : List Nat) (letters : List Nat) :
    List Bytes → Except Nat (List Nat × List Bytes)
  | [] => .ok (letters, [])
  | arg :: rest =>
    let minus := Bytes.ascii '-'
    if arg = [minus, minus] then .ok (letters, rest)
    else if arg.head? ≠ some minus ∨ arg = [minus] then .ok (letters, arg :: rest)
    else
      let given := Utf8.codePoints (arg.drop 1)
      match given.find? fun c ↦ !allowed.contains c with
      | some c => .error c
      | none => readOptions allowed (letters ++ given) rest

/-- The command of a name, given the option letters, and the letters it allows. -/
def command? (name : Bytes) : Option ((List Nat → Command) × List Nat) :=
  if name = Bytes.ofString "tokenize" then some (fun ls ↦ .tokenize !ls.isEmpty, ['j'.toNat])
  else if name = Bytes.ofString "parse" then some (fun _ ↦ .parse, [])
  else if name = Bytes.ofString "evaluate" then some (fun _ ↦ .evaluate, [])
  else if name = Bytes.ofString "run" then some (fun _ ↦ .run, [])
  else none

/-- What the arguments after the flags ask for. -/
def Job.ofArgs : List Bytes → Job
  | [] => .report ⟨usage, [], usageStatus⟩
  | name :: args =>
    if name = Bytes.ofString "repl" then .repl
    else
      match command? name with
      | none =>
        .report ⟨usage, Bytes.ofString "Unknown command: " ++ name ++ [Bytes.newline], usageStatus⟩
      | some (command, allowed) =>
        match readOptions allowed [] args with
        | .error c =>
          let complaint := Bytes.ofString "lox: unknown option -" ++ Utf8.encode c
          .report ⟨usage, complaint ++ [Bytes.newline], usageStatus⟩
        | .ok (letters, [path]) => .file (command letters) path
        | .ok _ => .report ⟨usage, [], usageStatus⟩

/-- What the arguments ask for: to make files for profiles, and then to do a job. -/
structure Invocation where
  settings : Settings
  job : Job

/-- The files that are made for profiles, in order. -/
def Settings.profiles (s : Settings) : List Bytes :=
  [s.cpuProfile, s.memProfile].filter (!·.isEmpty)

/-- What the arguments ask for. -/
def Invocation.ofArgs (args : List Bytes) : Invocation :=
  match readFlags .default args with
  | .settings s rest => ⟨s, .ofArgs rest⟩
  | .help => ⟨.default, .report ⟨usage, flagDefaults, 0⟩⟩
  | .error e => ⟨.default, .report ⟨usage, e.message ++ [Bytes.newline] ++ flagDefaults, 2⟩⟩

/-- Lists the tokens of a source. A token that cannot be a JSON object ends the listing. -/
def listTokens (json : Bool) (src : Bytes) : Report :=
  let scanned := scan src
  let complaint :=
    if scanned.errors.isEmpty then [] else StaticError.listText scanned.errors ++ [Bytes.newline]
  let listed := if json then scanned.tokens.takeWhile isJsonToken else scanned.tokens
  let write (t : Token) : Bytes := (if json then jsonToken t else t.listing) ++ [Bytes.newline]
  let stdout := listed.flatMap write
  match scanned.tokens.drop listed.length with
  | [] => ⟨stdout, complaint, if scanned.errors.isEmpty then 0 else 65⟩
  | t :: _ =>
    let failure := fatal (Bytes.ofString "proto: invalid UTF-8 in string: " ++ Text.quote t.lexeme)
    { failure with stdout, stderr := complaint ++ failure.stderr }

/-- The report of a failure, after what was printed. -/
def failed (s : Settings) (stdout : Bytes) (f : Failure) : Report :=
  ⟨stdout, f.text s.backtrace ++ [Bytes.newline], f.status⟩

/-- Shows the structure of an expression. -/
def showStructure (s : Settings) (src : Bytes) : Report :=
  let parsed := parseExpr src
  match parsed.errors, parsed.tree with
  | [], some e => ⟨e.prefixed ++ [Bytes.newline], [], 0⟩
  | errors, _ => failed s [] (.static errors)

/-- Evaluates an expression and prints its value. -/
def printValue (fuel : Nat) (clock : Option Int) (s : Settings) (src : Bytes) : Report :=
  match (Machine.start clock 0).evalSource fuel src with
  | (.ok v, m) => ⟨m.output ++ v.display ++ [Bytes.newline], [], 0⟩
  | (.error f, m) => failed s m.output f

/-- The global variables of a machine with their values, except those whose names are
predeclared. -/
def globalsText (m : Machine) : Bytes :=
  let names := (m.heap.keys Machine.globals).filter fun n ↦ (Machine.predeclared.lookup n).isNone
  names.flatMap fun n ↦
    n ++ Bytes.ofString " = " ++ (m.getGlobal? n).elim [] Value.display ++ [Bytes.newline]

/-- Runs a program. -/
def runProgram (fuel : Nat) (clock : Option Int) (s : Settings) (src : Bytes) : Report :=
  match (Machine.start clock 0).runSource fuel s.lenient src with
  | (.ok (), m) => ⟨m.output, if s.showEnv then globalsText m else [], 0⟩
  | (.error f, m) => failed s m.output f

/-- Does what is to be done with a file, given its content. -/
def Command.perform (fuel : Nat) (clock : Option Int) (s : Settings) (src : Bytes) :
    Command → Report
  | .tokenize json => listTokens json src
  | .parse => showStructure s src
  | .evaluate => printValue fuel clock s src
  | .run => runProgram fuel clock s src

/-- Runs the lines of the standard input. -/
def runLines (fuel : Nat) (clock : Option Int) (s : Settings) (stdin : Bytes) : Report :=
  let t := Repl.run fuel s.lenient s.backtrace (Machine.start clock 0) stdin
  ⟨t.stdout, t.stderr, 0⟩

/-- Does what the arguments ask for in a directory of files. -/
def perform (fuel : Nat) (clock : Option Int) (files : Files) (stdin : Bytes) (args : List Bytes) :
    Report :=
  let invocation := Invocation.ofArgs args
  let s := invocation.settings
  match s.profiles.foldlM Files.create files with
  | .error e => fatal e.message
  | .ok files =>
    match invocation.job with
    | .report r => r
    | .repl => runLines fuel clock s stdin
    | .file command path =>
      match files.read path with
      | .error e => fatal e.message
      | .ok src => command.perform fuel clock s src

end Lox.Cli
