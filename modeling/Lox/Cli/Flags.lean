import Lox.Text.Quoted

/-!
# Flags of the command line

Flags come before the command. A flag begins with one or two minus signs. The value of a flag may
follow it after an equals sign; a flag that takes a text may also have it in the next argument.
Two minus signs alone end the flags, and so does any argument that is not a flag.
-/

namespace Lox.Cli

/-- What the flags set. -/
structure Settings where
  backtrace : Bool
  cpuProfile : Bytes
  lenient : Bool
  memProfile : Bytes
  showEnv : Bool
  deriving DecidableEq, Repr

/-- The settings without any flag. -/
def Settings.default : Settings := ⟨false, [], false, [], false⟩

/-- How a flag changes the settings. -/
inductive Flag.Effect where
  | switch (set : Bool → Settings → Settings)
  | text (set : Bytes → Settings → Settings)

/-- A flag with the description of what it does. -/
structure Flag where
  name : String
  help : String
  effect : Flag.Effect

/-- All flags, in the order of their names. -/
def flags : List Flag :=
  [⟨"backtrace", "print runtime errors with their call stack",
      .switch fun b s ↦ { s with backtrace := b }⟩,
    ⟨"cpuprofile", "gather Go CPU profile in this file",
      .text fun t s ↦ { s with cpuProfile := t }⟩,
    ⟨"lenientbranch", "allow break and continue outside of loops, failing at run time instead",
      .switch fun b s ↦ { s with lenient := b }⟩,
    ⟨"memprofile", "gather Go memory profile in this file",
      .text fun t s ↦ { s with memProfile := t }⟩,
    ⟨"showenv", "on success of run, print final global environment",
      .switch fun b s ↦ { s with showEnv := b }⟩]

/-- The list of all flags. -/
def flagDefaults : Bytes :=
  flags.flatMap fun f ↦
    let value := match f.effect with
      | .switch _ => ""
      | .text _ => " string"
    Bytes.ofString ("  -" ++ f.name ++ value ++ "\n    \t" ++ f.help ++ "\n")

/-- Why the flags are not accepted. -/
inductive FlagError where
  | malformed (arg : Bytes)
  | undefined (name : Bytes)
  | badSwitch (value name : Bytes)
  | missingValue (name : Bytes)
  deriving DecidableEq, Repr

/-- The message of an error in the flags. -/
def FlagError.message : FlagError → Bytes
  | .malformed arg => Bytes.ofString "bad flag syntax: " ++ arg
  | .undefined name => Bytes.ofString "flag provided but not defined: -" ++ name
  | .badSwitch value name =>
    Bytes.ofString "invalid boolean value " ++ Text.quote value ++ Bytes.ofString " for -" ++
      name ++ Bytes.ofString ": parse error"
  | .missingValue name => Bytes.ofString "flag needs an argument: -" ++ name

/-- The truth value that a text stands for. -/
def readSwitch? (value : Bytes) : Option Bool :=
  if value ∈ ["1", "t", "T", "TRUE", "true", "True"].map Bytes.ofString then some true
  else if value ∈ ["0", "f", "F", "FALSE", "false", "False"].map Bytes.ofString then some false
  else none

/-- What reading the flags comes to. -/
inductive Flagged where
  /-- The settings, and the arguments after the flags. -/
  | settings (s : Settings) (rest : List Bytes)
  /-- The list of all flags is asked for. -/
  | help
  | error (e : FlagError)

/-- The name and the value of a flag, parted at the first equals sign after its first byte. -/
def splitFlag (text : Bytes) : Bytes × Option Bytes :=
  let name := text.take 1 ++ (text.drop 1).takeWhile (· != Bytes.ascii '=')
  match text.drop name.length with
  | [] => (name, none)
  | _ :: value => (name, some value)

/-- What an argument is before a command. -/
inductive Argument where
  | flag (text : Bytes)
  | endOfFlags
  | operand
  deriving DecidableEq, Repr

/-- What an argument is: a flag after its minus signs, the end of the flags, or neither. -/
def classify (arg : Bytes) : Argument :=
  let minus := Bytes.ascii '-'
  match arg with
  | [] => .operand
  | [_] => .operand
  | a :: b :: rest =>
    if a != minus then .operand
    else if b != minus then .flag (b :: rest)
    else if rest.isEmpty then .endOfFlags
    else .flag rest

/-- Reads the flags at the front of the arguments. -/
def readFlags (s : Settings) : List Bytes → Flagged
  | [] => .settings s []
  | arg :: rest =>
    match classify arg with
    | .operand => .settings s (arg :: rest)
    | .endOfFlags => .settings s rest
    | .flag text =>
      if text.head? ∈ [some (Bytes.ascii '-'), some (Bytes.ascii '=')] then
        .error (.malformed arg)
      else
        let (name, value) := splitFlag text
        match flags.find? fun f ↦ Bytes.ofString f.name = name with
        | none =>
          if name = Bytes.ofString "help" ∨ name = Bytes.ofString "h" then .help
          else .error (.undefined name)
        | some f =>
          match f.effect with
          | .switch set =>
            match value with
            | none => readFlags (set true s) rest
            | some value =>
              match readSwitch? value with
              | some b => readFlags (set b s) rest
              | none => .error (.badSwitch value name)
          | .text set =>
            match value with
            | some value => readFlags (set value s) rest
            | none =>
              match rest with
              | value :: rest => readFlags (set value s) rest
              | [] => .error (.missingValue name)

end Lox.Cli
