import Lox.Scenario
import Lox.Text.Base64
import Lox.Yaml.Meaning
import Lox.Yaml.Node

/-!
# Scenarios in documents

A scenario is written as a mapping whose keys name what is said of it. What is not said has a
default. A mapping may take over the entries of others, as far as it has no entry of that name.
What does not fit is reported, and reading goes on; what cannot be understood ends it.
-/

namespace Lox.Scenario

open Yaml (Meaning)

/-- What a part of a document is needed for. -/
inductive Target where
  | text
  | bool
  | int
  | texts
  | scenario
  /-- A scenario that may be absent. -/
  | scenarioSlot
  | scenarios
  deriving DecidableEq, Repr

/-- The name of a target in reports. -/
def Target.name : Target → String
  | .text => "string"
  | .bool => "bool"
  | .int => "int"
  | .texts => "[]string"
  | .scenario => "loxtest.Scenario"
  | .scenarioSlot => "*loxtest.Scenario"
  | .scenarios => "[]*loxtest.Scenario"

/-- Something in a file that does not fit, with its line. -/
inductive Misfit where
  /-- A part of the wrong kind, with its tag and its text. -/
  | kind (line : Nat) (tag text : Bytes) (target : Target)
  | unknownField (line : Nat) (name : Bytes)
  /-- A field that was given before by another key. -/
  | repeatedField (line : Nat) (name : Bytes)
  /-- A key that occurred before, in the line `first`. -/
  | repeatedKey (line : Nat) (key : Bytes) (first : Nat)
  deriving DecidableEq, Repr

/-- The tag of sequences. -/
def sequenceTag : Bytes := Bytes.ofString "!!seq"

/-- The tag of mappings. -/
def mappingTag : Bytes := Bytes.ofString "!!map"

/-- Texts longer than this are cut in reports. -/
def shownLimit : Nat := 10

/-- A text as it is shown in a report, between backquotes unless the tag is that of a sequence or
mapping. -/
def shown (tag text : Bytes) : Bytes :=
  if tag = sequenceTag || tag = mappingTag then text
  else
    let text := if shownLimit < text.length then text.take 7 ++ Bytes.ofString "..." else text
    [Bytes.ascii ' ', Bytes.backquote] ++ text ++ [Bytes.backquote]

/-- The report of something that does not fit. -/
def Misfit.message : Misfit → Bytes
  | .kind line tag text target =>
    atLine line "cannot unmarshal " ++ tag ++ shown tag text ++
      Bytes.ofString (" into " ++ target.name)
  | .unknownField line name =>
    atLine line "field " ++ name ++
      Bytes.ofString (" not found in type " ++ Target.scenario.name)
  | .repeatedField line name =>
    atLine line "field " ++ name ++
      Bytes.ofString (" already set in type " ++ Target.scenario.name)
  | .repeatedKey line key first =>
    atLine line "mapping key " ++ Text.quote key ++
      Bytes.ofString " already defined at line " ++ Bytes.ofNat first
where
  /-- The beginning of a report about a line. -/
  atLine (line : Nat) (words : String) : Bytes :=
    Bytes.ofString "line " ++ Bytes.ofNat line ++ Bytes.ofString (": " ++ words)

/-- Why a document cannot be understood. -/
inductive Obstacle where
  /-- The entries of something are to be taken over that has none. -/
  | noEntries
  /-- A mapping takes over its own entries. -/
  | selfContained (anchor : Bytes)
  /-- A text has another meaning than its tag asks for. -/
  | otherMeaning (found : Meaning) (text tag : Bytes)
  /-- A text is not what its tag for bytes asks for. -/
  | noBytes
  /-- Nearly all that is read is read by references. -/
  | manyReferences
  deriving DecidableEq, Repr

/-- The report that a document cannot be understood. -/
def Obstacle.message : Obstacle → Bytes
  | .noEntries => Bytes.ofString "yaml: map merge requires map or sequence of maps as the value"
  | .selfContained anchor =>
    Bytes.ofString "yaml: anchor '" ++ anchor ++ Bytes.ofString "' value contains itself"
  | .otherMeaning found text tag =>
    Bytes.ofString ("yaml: cannot decode " ++ found.tag ++ " ") ++ [Bytes.backquote] ++ text ++
      [Bytes.backquote] ++ Bytes.ofString " as a " ++ tag
  | .noBytes => Bytes.ofString "yaml: !!binary value contains invalid base64 data"
  | .manyReferences => Bytes.ofString "yaml: document contains excessive aliasing"

/-! ## Reading -/

/-- What happened while a document was read. -/
structure Progress where
  /-- What did not fit, the last first. -/
  misfits : List Misfit
  /-- How many nodes were read, and how many of them in place of a reference. -/
  visited : Nat
  expanded : Nat
  /-- How many references the node that is read stands within. -/
  depth : Nat
  deriving DecidableEq, Repr

/-- A reader of values from nodes. -/
abbrev Reading (α : Type) := StateT Progress (Except Obstacle) α

namespace Reading

/-- Reports what does not fit. -/
def report (ms : List Misfit) : Reading Unit :=
  modify fun p ↦ { p with misfits := ms.reverse ++ p.misfits }

/-- Counts a node that is read. Of more than a thousand nodes, ninety-nine in a hundred may be read
in place of a reference. -/
def visit : Reading Unit := do
  modify fun p ↦
    { p with
      visited := p.visited + 1
      expanded := if 0 < p.depth then p.expanded + 1 else p.expanded }
  let p ← get
  if 100 < p.expanded && 1000 < p.visited && 99 * p.visited < 100 * p.expanded then
    throw .manyReferences

/-- Reads a node in place of a reference. -/
def throughReference {α : Type} (r : Reading α) : Reading α := do
  visit
  modify fun p ↦ { p with depth := p.depth + 1 }
  let a ← r
  modify fun p ↦ { p with depth := p.depth - 1 }
  return a

end Reading

open Reading

/-- The keys of a mapping that occurred before in it. -/
def repeatedKeys : List (Yaml.Node × Yaml.Node) → List Misfit
  | [] => []
  | (key, _) :: rest =>
    (rest.filterMap fun (other, _) ↦
      match key, other with
      | .scalar first _ _ text, .scalar line _ _ again
      | .reference first text _ _, .reference line again _ _ =>
        if text = again then some (.repeatedKey line text first) else none
      | .sequence first .., .sequence line .. => some (.repeatedKey line [] first)
      | .mapping first .., .mapping line .. => some (.repeatedKey line [] first)
      | _, _ => none) ++ repeatedKeys rest

/-- What does not fit about a sequence or mapping where another kind is needed. -/
def collectionMisfits (target : Target) : Yaml.Node → List Misfit
  | .mapping line tag entries =>
    let repeated := repeatedKeys entries
    if repeated.isEmpty then [.kind line (tag.getD mappingTag) [] target] else repeated
  | .sequence line tag _ => [.kind line (tag.getD sequenceTag) [] target]
  | .scalar .. | .reference .. => []

/-! ## Scalars -/

/-- The tag of a scalar in reports. -/
def scalarTag (tag : Option Bytes) (plain : Bool) (text : Bytes) : Bytes :=
  match tag with
  | some tag => tag
  | none =>
    if plain && text = Meaning.mergeKey then Meaning.mergeTag
    else Bytes.ofString (if plain then Meaning.ofPlain text else .text).tag

/-- The meaning of a scalar, and its text. A tag may ask for a meaning, which the text must have. -/
def meaning (tag : Option Bytes) (plain : Bool) (text : Bytes) : Reading (Meaning × Bytes) := do
  match tag with
  | none => return (if plain then .ofPlain text else .text, text)
  | some tag =>
    if tag = Meaning.binaryTag then
      match Base64.decode? text with
      | some bytes => return (.text, bytes)
      | none => throw .noBytes
    match Meaning.tags.find? (tag = Bytes.ofString ·) with
    | none => return (.text, text)
    | some asked =>
      let m := Meaning.ofText (asked = Meaning.timestamp.tag) text
      match m.withTag? asked with
      | some m => return (m, text)
      | none => throw (.otherMeaning m text tag)

/-- Reads a scalar by its meaning and its text. -/
def readScalar {α : Type} (target : Target) (read? : Meaning → Bytes → Option α) :
    Yaml.Node → Reading (Option α)
  | .reference _ _ _ node => throughReference (readScalar target read? node)
  | .scalar line tag plain text => do
    visit
    match ← meaning tag plain text with
    | (.null, _) => return none
    | (m, read) =>
      let value := read? m read
      if value.isNone then report [.kind line (scalarTag tag plain text) text target]
      return value
  | node => do
    visit
    report (collectionMisfits target node)
    return none

/-- Reads a text, which any scalar is. -/
def readText : Yaml.Node → Reading (Option Bytes) := readScalar .text fun _ text ↦ some text

/-- The words for true and false that are texts elsewhere. -/
def truthWords : List (String × Bool) :=
  ["y", "Y", "yes", "Yes", "YES", "on", "On", "ON"].map (·, true) ++
    ["n", "N", "no", "No", "NO", "off", "Off", "OFF"].map (·, false)

/-- Reads a truth value. -/
def readBool : Yaml.Node → Reading (Option Bool) :=
  readScalar .bool fun m text ↦
    match m with
    | .bool b => some b
    | .text => (truthWords.map fun (w, b) ↦ (Bytes.ofString w, b)).lookup text
    | _ => none

/-- The integers of sixty-four bits, of which one is the sign, are those below this and not below
its opposite. -/
def integerBound : Int := Number.signWeight

/-- The integer part of a number, if it is not above all integers of sixty-four bits. What is below
them, and the first number above them, becomes the least of them. -/
def truncate? (x : Number) : Option Int :=
  let whole : Int := x.units / Number.unitsPerOne
  if x.isNaN then none
  else if x.isNegative then some (max (-whole) (-integerBound))
  else if integerBound < whole then none
  else some (if whole = integerBound then -integerBound else whole)

/-- Reads an integer of sixty-four bits. Of a number with a fraction the integer part is taken. -/
def readInt : Yaml.Node → Reading (Option Int) :=
  readScalar .int fun m _ ↦
    match m with
    | .int i => if i < integerBound then some i else none
    | .float x => truncate? x
    | _ => none

/-! ## Sequences -/

/-- Reads the items of a sequence, leaving out those that stand for nothing. -/
def readItems {α : Type} (target : Target) (read : Yaml.Node → Reading (Option α)) :
    Yaml.Node → Reading (Option (List α))
  | .reference _ _ _ node => throughReference (readItems target read node)
  | .sequence _ _ items => do
    visit
    let values ← items.mapM read
    return some values.reduceOption
  | .scalar line tag plain text => do
    visit
    match ← meaning tag plain text with
    | (.null, _) => return some []
    | _ =>
      report [.kind line (scalarTag tag plain text) text target]
      return none
  | node => do
    visit
    report (collectionMisfits target node)
    return none

/-! ## Mappings -/

/-- A way to say something of a scenario, given what a document says. -/
abbrev Field := Yaml.Node → Scenario → Reading Scenario

/-- The field that is read by `read` and entered by `set`. -/
def Field.of {α : Type} (read : Yaml.Node → Reading (Option α)) (set : Scenario → α → Scenario) :
    Field := fun node s ↦ do return ((← read node).map (set s)).getD s

/-- The fields of a scenario by their names. -/
def fields : List (String × Field) :=
  [("name", .of readText fun s v ↦ { s with name := v }),
    ("source", .of readText fun s v ↦ { s with source := v }),
    ("mode", .of readText fun s v ↦ { s with mode := v }),
    ("options", .of (readItems .texts readText) fun s v ↦ { s with options := v }),
    ("backtrace", .of readBool fun s v ↦ { s with backtrace := v }),
    ("stdout", .of readText fun s v ↦ { s with stdout := v }),
    ("stderr", .of readText fun s v ↦ { s with stderr := v }),
    ("status", .of readInt fun s v ↦ { s with status := v })]

/-- The field of a name. -/
def field? (name : Bytes) : Option Field :=
  (fields.map fun (n, f) ↦ (Bytes.ofString n, f)).lookup name

/-- A scenario into which entries are entered. -/
structure Draft where
  scenario : Scenario
  /-- The names that are not to be taken over any more, if entries are being taken over. -/
  settled : Option (List Bytes)

/-- Whether a node is the key by which a mapping takes over the entries of others. -/
def isMergeKey : Yaml.Node → Bool
  | .scalar _ tag plain text =>
    text = Meaning.mergeKey && (tag = some Meaning.mergeTag || tag = none && plain)
  | _ => false

/-- Enters one entry of a mapping, of which the fields `done` were entered before. -/
def readEntry (d : Draft × List Bytes) (entry : Yaml.Node × Yaml.Node) :
    Reading (Draft × List Bytes) := do
  let (draft, done) := d
  let (key, value) := entry
  if isMergeKey key then return d
  match ← readText key with
  | none => return d
  | some name =>
    if draft.settled.any (·.contains name) then return d
    let settled := draft.settled.map (name :: ·)
    match field? name with
    | none =>
      report [.unknownField key.line name]
      return (⟨draft.scenario, settled⟩, done)
    | some f =>
      if done.contains name then
        report [.repeatedField key.line name]
        return (⟨draft.scenario, settled⟩, done)
      return (⟨← f value draft.scenario, settled⟩, name :: done)

/-- Enters the entries that a mapping has itself. If a key occurs twice, none is. -/
def readOwn (draft : Draft) (entries : List (Yaml.Node × Yaml.Node)) : Reading (Option Draft) := do
  visit
  let repeated := repeatedKeys entries
  if repeated.isEmpty then return some (← entries.foldlM readEntry (draft, [])).1
  report repeated
  return none

/-- The name that a key gives, if it is a text. -/
def keyName? : Yaml.Node → Reading (Option Bytes)
  | .reference _ _ _ node => throughReference (keyName? node)
  | .scalar _ tag plain text => do
    visit
    let (m, read) ← meaning tag plain text
    return if m = .text then some read else none
  | .sequence .. | .mapping .. => return none

/-- The names of the entries of a mapping. -/
def entryNames (entries : List (Yaml.Node × Yaml.Node)) : Reading (List Bytes) := do
  let names ← entries.mapM fun entry ↦ keyName? entry.1
  return names.reduceOption

mutual

/-- Enters what a mapping with the entries `own` takes over from others. -/
def takeOver (own : List (Yaml.Node × Yaml.Node)) (draft : Draft) :
    List (Yaml.Node × Yaml.Node) → Reading Draft
  | [] => return draft
  | (key, value) :: rest => do
    if !isMergeKey key then return ← takeOver own draft rest
    let settled ← match draft.settled with
      | some names => pure names
      | none => entryNames own
    let d ← merge ⟨draft.scenario, some settled⟩ value
    return ⟨d.scenario, draft.settled.bind fun _ ↦ d.settled⟩

/-- Enters the entries of a mapping, or those of the mappings in a sequence. -/
def merge (draft : Draft) : Yaml.Node → Reading Draft
  | .sequence _ _ items => mergeItems draft items
  | .mapping _ _ entries => do
    match ← readOwn draft entries with
    | some d => takeOver entries d entries
    | none => return draft
  | .reference _ anchor isComplete (.mapping _ _ entries) =>
    throughReference do
      if !isComplete then throw (.selfContained anchor)
      match ← readOwn draft entries with
      | some d => takeOver entries d entries
      | none => return draft
  | .reference .. | .scalar .. => throw .noEntries

/-- Enters the entries of mappings, one after the other. -/
def mergeItems (draft : Draft) : List Yaml.Node → Reading Draft
  | [] => return draft
  | .sequence .. :: _ => throw .noEntries
  | item :: rest => do mergeItems (← merge draft item) rest

end

/-- Reads a scenario. -/
def readNode : Yaml.Node → Reading (Option Scenario)
  | .reference _ _ _ node => throughReference (readNode node)
  | .mapping line tag entries => do
    if tag = some (Bytes.ofString Meaning.null.tag) then
      readScalar .scenarioSlot (fun _ _ ↦ none) (.mapping line tag entries)
    else
      match ← readOwn ⟨blank, none⟩ entries with
      | some draft => return some (← takeOver entries draft entries).scenario
      | none => return none
  | .sequence line tag items =>
    let slot := tag = some (Bytes.ofString Meaning.null.tag)
    readScalar (if slot then .scenarioSlot else .scenario) (fun _ _ ↦ none)
      (.sequence line tag items)
  | node => readScalar .scenario (fun _ _ ↦ none) node

/-- Reads a sequence of scenarios, or tells what in it does not fit. -/
def readDocument (root : Yaml.Node) : Except Obstacle (List Scenario × List Misfit) := do
  let (scenarios, progress) ← (readItems .scenarios readNode root).run ⟨[], 1, 0, 0⟩
  return (scenarios.getD [], progress.misfits.reverse)

end Lox.Scenario
