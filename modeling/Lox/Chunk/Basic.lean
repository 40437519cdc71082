import Lox.Pattern.Parse
import Lox.StaticError
import Lox.Text.Blank
import Lox.Text.Quoted

/-!
# Sources with the errors they should give

A file is divided into chunks by lines of three minus signs. In a chunk, a line comment that begins
with `###` says that an error is expected on its line: after it comes a quoted pattern for the
message of the error. The source of a chunk is filled up with empty lines in front, so that a line
has the same number in it as in the file.

The errors that a chunk really gives are compared with the expected ones, one after the other.
Whatever differs is a complaint.
-/

namespace Lox

/-- A regular expression with the text it was given by. -/
structure Pattern where
  text : Bytes
  regex : Regex
  deriving DecidableEq, Repr

/-- The line that divides two chunks. -/
def Chunk.divider : Bytes := Bytes.ofString "---"

/-- The lines of a chunk, and the number of the first one in the file. -/
structure Chunk.Section where
  first : Nat
  lines : List Bytes
  deriving DecidableEq, Repr

/-- A source and the errors that are still expected of it, by their lines. -/
structure Chunk (π : Type) where
  source : Bytes
  expected : List (Int × π)
  deriving Repr

/-- What is wrong with a file of chunks, or with the errors of a chunk. -/
inductive Complaint where
  | annotationOutsideComment (line : Int)
  | notQuoted (line : Int) (text : Bytes)
  | badPattern (line : Int) (error : PatternError)
  | unexpectedError (line : Int) (message : Bytes)
  | mismatch (line : Int) (message pattern : Bytes)
  | missingError (line : Int) (pattern : Bytes)
  deriving DecidableEq, Repr

/-- The text of a complaint about a file. -/
def Complaint.text (file : Bytes) (c : Complaint) : Bytes :=
  let at_ (line : Int) : Bytes :=
    [Bytes.newline] ++ file ++ Bytes.ofString ":" ++ Bytes.ofInt line ++ Bytes.ofString ": "
  match c with
  | .annotationOutsideComment line =>
    at_ line ++ Bytes.ofString "### annotation must follow '//'"
  | .notQuoted line text => at_ line ++ Bytes.ofString "not a quoted regexp: " ++ text
  | .badPattern line e => at_ line ++ e.message
  | .unexpectedError line message => at_ line ++ Bytes.ofString "unexpected error: " ++ message
  | .mismatch line message pattern =>
    at_ line ++ Bytes.ofString "error " ++ Text.quote message ++
      Bytes.ofString " does not match pattern " ++ Text.quote pattern
  | .missingError line pattern =>
    at_ line ++ Bytes.ofString "expected error matching " ++ Text.quote pattern

namespace Chunk

/-- The lines of a file, each without one carriage return at its end. -/
def linesOf (data : Bytes) : List Bytes :=
  (Bytes.split Bytes.newline data).map (Bytes.dropTrailing (Bytes.ascii '\r'))

/-- Divides lines into sections. `lines` are those read of the section that begins at `first`, the
latest first. -/
def sectionsFrom (first : Nat) (lines : List Bytes) : List Bytes → List Section
  | [] => [⟨first, lines.reverse⟩]
  | l :: rest =>
    if l = divider then ⟨first, lines.reverse⟩ :: sectionsFrom (first + lines.length + 1) [] rest
    else sectionsFrom first (l :: lines) rest

/-- The sections of a file. -/
def sections (data : Bytes) : List Section := sectionsFrom 1 [] (linesOf data)

/-- The source of a section, in which its lines have their numbers in the file. -/
def Section.source (s : Section) : Bytes :=
  List.replicate (s.first - 1) Bytes.newline ++ Bytes.join [Bytes.newline] s.lines

/-- The lines of a section with their numbers in the file. -/
def Section.numbered (s : Section) : List (Nat × Bytes) :=
  s.lines.zipIdx s.first |>.map fun (l, n) ↦ (n, l)

/-- What a line says about an error. -/
inductive Annotation where
  | none
  /-- The mark stands outside of a line comment, or not at its beginning. -/
  | misplaced
  | quoted (text : Bytes)
  deriving DecidableEq, Repr

/-- What a line says about an error. -/
def annotation (line : Bytes) : Annotation :=
  match Bytes.cut? (Bytes.ofString "###") line with
  | none => .none
  | some (before, mark) =>
    match Bytes.cut? (Bytes.ofString "//") before with
    | none => .misplaced
    | some (_, comment) =>
      if (Text.trim (comment.drop 2)).isEmpty then
        let text := Text.trim (mark.drop 3)
        if text.isEmpty then .none else .quoted text
      else .misplaced

/-- The error expected on a line, if any, or a complaint about what the line says. -/
def expectation (line : Nat) (text : Bytes) : Except Complaint (Option Pattern) :=
  match annotation text with
  | .none => .ok none
  | .misplaced => .error (.annotationOutsideComment line)
  | .quoted q =>
    match Text.unquote? q with
    | none => .error (.notQuoted line q)
    | some pattern =>
      match Regex.ofPattern pattern with
      | .ok r => .ok (some ⟨pattern, r⟩)
      | .error e => .error (.badPattern line e)

/-- The chunk of a section, and complaints about what its lines say. -/
def ofSection (s : Section) : Chunk Pattern × List Complaint :=
  let results := s.numbered.map fun (n, text) ↦ (n, expectation n text)
  (⟨s.source, results.filterMap fun
      | (n, .ok (some p)) => some ((n : Int), p)
      | _ => none⟩,
    results.filterMap fun
      | (_, .error c) => some c
      | _ => none)

/-- The chunks of a file, and complaints about what its lines say. -/
def ofFile (data : Bytes) : List (Chunk Pattern) × List Complaint :=
  let chunks := (sections data).map ofSection
  (chunks.map (·.1), chunks.flatMap (·.2))

variable {π : Type}

/-- Compares an error with the one expected on its line, which is expected no longer, even if the
message is another. -/
def gotError (isMatch : π → Bytes → Bool) (patternText : π → Bytes) (c : Chunk π) (line : Int)
    (message : Bytes) : Chunk π × List Complaint :=
  match c.expected.lookup line with
  | none => (c, [.unexpectedError line message])
  | some p =>
    ({ c with expected := c.expected.filter (·.1 != line) },
      if isMatch p message then [] else [.mismatch line message (patternText p)])

/-- Complaints about the errors that are still expected. -/
def done (patternText : π → Bytes) (c : Chunk π) : List Complaint :=
  c.expected.map fun (line, p) ↦ .missingError line (patternText p)

/-- Whether a message is as a pattern says. -/
def matchesPattern (p : Pattern) (message : Bytes) : Bool := p.regex.isMatch message

end Chunk
end Lox
