import Lox.Chunk.Basic
import Lox.Scope.Resolve
import Lox.Syntax.Parse

/-!
# Checking chunks

A chunk is checked by finding the static errors of its source. A source that holds the words
`option:lenientbranch` tolerates `break` and `continue` outside of loops.
-/

namespace Lox

/-- The static errors of a program. Names are resolved only if it can be parsed. -/
def staticErrors (lenient : Bool) (src : Bytes) : List StaticError :=
  let parsed := parseProgram src
  if parsed.errors.isEmpty then (parsed.tree.resolve lenient).errors else parsed.errors

namespace Chunk

/-- Whether a source tolerates `break` and `continue` outside of loops. -/
def isLenient (src : Bytes) : Bool :=
  (Bytes.cut? (Bytes.ofString "option:lenientbranch") src).isSome

/-- Compares errors, one after the other, with those expected. -/
def gotErrors (c : Chunk Pattern) : List StaticError → Chunk Pattern × List Complaint
  | [] => (c, [])
  | e :: es =>
    let (c, complaints) := c.gotError matchesPattern Pattern.text e.line e.reason.message
    let (c, more) := c.gotErrors es
    (c, complaints ++ more)

/-- Compares the static errors of a chunk with those expected: complaints about errors there are,
and about errors there are not. -/
def check (c : Chunk Pattern) : List Complaint × List Complaint :=
  let (rest, complaints) := c.gotErrors (staticErrors (isLenient c.source) c.source)
  (complaints, rest.done Pattern.text)

end Chunk
end Lox
