import Lox.Yaml.Token

/-!
# Documents as trees

A document is a scalar, a sequence or a mapping, of which the parts are such in turn, or stand for
an earlier part by its anchor. Every node knows its line, by which a mistake in it is reported.
-/

namespace Lox.Yaml

/-- A part of a document. Lines count from one. -/
inductive Node where
  /-- A text; if it is plain, its form decides what it stands for, unless its tag does. -/
  | scalar (line : Nat) (tag : Option Bytes) (plain : Bool) (text : Bytes)
  | sequence (line : Nat) (tag : Option Bytes) (items : List Node)
  | mapping (line : Nat) (tag : Option Bytes) (entries : List (Node × Node))
  /-- The node with an anchor. If that node is not yet complete here, because it contains this one,
  then `target` is what was known of it: its kind, its tag and its line. -/
  | reference (line : Nat) (anchor : Bytes) (isComplete : Bool) (target : Node)

/-- The line of a node. -/
def Node.line : Node → Nat
  | .scalar line .. | .sequence line .. | .mapping line .. | .reference line .. => line

/-- What stands where nothing is written. -/
def Node.absent (mark : Mark) : Node := .scalar (mark.line + 1) none true []

/-- The beginning of the tags that belong to the format. -/
def tagNamespace : Bytes := Bytes.ofString "tag:yaml.org,2002:"

/-- The mark of tags in general. -/
def exclamation : Bytes := Bytes.ofString "!"

/-- The mark of the tags that belong to the format. -/
def tagMark : Bytes := Bytes.ofString "!!"

/-- A tag with its namespace shortened to a mark. An exclamation mark alone says nothing. -/
def shortTag? (tag : Bytes) : Option Bytes :=
  if tag = exclamation then none
  else if tagNamespace.isPrefixOf tag then some (tagMark ++ tag.drop tagNamespace.length)
  else some tag

/-- What is known while nodes are read from tokens. -/
structure Composition where
  lexer : Lexer
  /-- What the handles of tags stand for. -/
  handles : List (Bytes × Bytes)
  /-- The nodes with anchors, and whether they are complete, in the order in which they begin. -/
  anchors : Array (List Char × Bool × Node)

/-- A reader of nodes from tokens. -/
abbrev Composer (α : Type) := StateT Composition (Except Failure) α

namespace Composer

/-- The next token. -/
def peek : Composer Token := do
  let c ← get
  let lexer ← c.lexer.fetch
  set { c with lexer }
  return lexer.queue.headD ⟨.streamEnd, lexer.cursor.mark⟩

/-- Goes on to the next token. -/
def skip : Composer Unit :=
  modify fun c ↦
    { c with lexer := { c.lexer with queue := c.lexer.queue.drop 1, taken := c.lexer.taken + 1 } }

/-- Fails at a token within what began at `context`. -/
def fail {α : Type} (problem : Problem) (context place : Mark) : Composer α :=
  throw ⟨problem, context, place⟩

/-- Reads a node if what comes is not one of `ends`, before which it is absent. -/
def nodeBefore (ends : List TokenKind) (mark : Mark) (node : Composer Node) : Composer Node := do
  if ends.contains (← peek).kind then return .absent mark else node

/-! ## Anchors and tags -/

/-- What is said about a node before it. -/
structure Properties where
  /-- Where the node begins with what is said about it. -/
  mark : Mark
  anchor : Option (List Char)
  tag : Option TagName
  /-- Where the tag is. -/
  tagMark : Mark

/-- Adds what a token says, unless it says something of a kind that was said. -/
def Properties.add? (p : Properties) (t : Token) : Option Properties :=
  match t.kind with
  | .anchor name => if p.anchor.isNone then some { p with anchor := some name } else none
  | .tag name => if p.tag.isNone then some { p with tag := some name, tagMark := t.mark } else none
  | _ => none

/-- Reads what is said about a node, and the token after it. -/
def properties : Composer (Properties × Token) := do
  let t ← peek
  match Properties.add? ⟨t.mark, none, none, t.mark⟩ t with
  | none => return (⟨t.mark, none, none, t.mark⟩, t)
  | some p =>
    skip
    let t ← peek
    match p.add? t with
    | none => return (p, t)
    | some p =>
      skip
      return (p, ← peek)

/-- The tag of a node in full, if there is one. -/
def fullTag? (p : Properties) : Composer (Option Bytes) := do
  match p.tag with
  | none => return none
  | some tag =>
    if tag.handle.isEmpty then return some tag.suffix
    match (← get).handles.lookup tag.handle with
    | some expansion => return some (expansion ++ tag.suffix)
    | none => fail .unknownHandle p.mark p.tagMark

/-- Gives a node its anchor, if it has one. While it is read, its beginning stands for it. -/
def anchored (anchor : Option (List Char)) (beginning : Node) (node : Composer Node) :
    Composer Node := do
  match anchor with
  | none => node
  | some name =>
    let number := (← get).anchors.size
    modify fun c ↦ { c with anchors := c.anchors.push (name, false, beginning) }
    let node ← node
    modify fun c ↦ { c with anchors := c.anchors.setIfInBounds number (name, true, node) }
    return node

/-- The node for which a reference stands. -/
def reference (mark : Mark) (name : List Char) : Composer Node := do
  match (← get).anchors.toList.reverse.lookup name with
  | some (isComplete, target) =>
    return .reference (mark.line + 1) (asciiBytes name) isComplete target
  | none => throw (.overall (.unknownAnchor (String.ofList name)))

/-! ## Nodes -/

mutual

/-- Reads a node. Blocks are possible unless it stands between brackets or braces; the entries of a
sequence that is the value of a key need not be indented. -/
def node (n : Nat) (inBlock inMapping : Bool) : Composer Node := do
  let t ← peek
  match t.kind with
  | .reference name =>
    skip
    return ← reference t.mark name
  | _ => pure ()
  let (p, t) ← properties
  let fullTag ← fullTag? p
  let tag := fullTag.bind shortTag?
  let line := p.mark.line + 1
  let sequence := anchored p.anchor (.sequence line tag [])
  let mapping := anchored p.anchor (.mapping line tag [])
  match n, t.kind with
  | _ + 1, .scalar plain text =>
    skip
    let text := Bytes.ofString (String.ofList text)
    anchored p.anchor (.absent p.mark) (pure (.scalar line tag plain text))
  | n + 1, .flowSequenceStart =>
    sequence do
      skip
      return .sequence line tag (← flowItems n t.mark true)
  | n + 1, .flowMappingStart =>
    mapping do
      skip
      return .mapping line tag (← flowEntries n t.mark true)
  | n + 1, .blockSequenceStart =>
    if !inBlock then empty p fullTag t
    else sequence do
      skip
      return .sequence line tag (← blockItems n t.mark)
  | n + 1, .blockMappingStart =>
    if !inBlock then empty p fullTag t
    else mapping do
      skip
      return .mapping line tag (← blockEntries n t.mark)
  | n + 1, .blockEntry =>
    if !inMapping then empty p fullTag t
    else sequence do
      return .sequence line tag (← valueItems n)
  | _, _ => empty p fullTag t
where
  /-- A node of which nothing is written but what is said about it, before the token `t`. -/
  empty (p : Properties) (tag : Option Bytes) (t : Token) : Composer Node := do
    if p.anchor.isNone && tag.isNone then fail .missingContent p.mark t.mark
    let node := Node.scalar (p.mark.line + 1) (tag.bind shortTag?) true []
    anchored p.anchor node (pure node)

/-- The items of a sequence by indentation that began at `start`. -/
def blockItems (n : Nat) (start : Mark) : Composer (List Node) := do
  let t ← peek
  match n, t.kind with
  | n + 1, .blockEntry =>
    skip
    let item ← nodeBefore [.blockEntry, .blockEnd] t.mark (node n true false)
    return item :: (← blockItems n start)
  | _, .blockEnd => skip; return []
  | _, _ => fail .missingEntry start t.mark

/-- The items of a sequence that is the value of a key and not indented. -/
def valueItems (n : Nat) : Composer (List Node) := do
  let t ← peek
  match n, t.kind with
  | n + 1, .blockEntry =>
    skip
    let item ← nodeBefore [.blockEntry, .key, .value, .blockEnd] t.mark (node n true false)
    return item :: (← valueItems n)
  | _, _ => return []

/-- The entries of a mapping by indentation that began at `start`. -/
def blockEntries (n : Nat) (start : Mark) : Composer (List (Node × Node)) := do
  let t ← peek
  match n, t.kind with
  | n + 1, .key =>
    skip
    let key ← nodeBefore [.key, .value, .blockEnd] t.mark (node n true true)
    let v ← peek
    let value ←
      if v.kind = .value then do
        skip
        nodeBefore [.key, .value, .blockEnd] v.mark (node n true true)
      else pure (.absent v.mark)
    return (key, value) :: (← blockEntries n start)
  | _, .blockEnd => skip; return []
  | _, _ => fail .missingKey start t.mark

/-- The items between brackets, the first of which was opened at `start`. An item may be a key with
a value, which is then a mapping of its own. If the key is announced but absent, what stands in its
place is lost. -/
def flowItems (n : Nat) (start : Mark) (first : Bool) : Composer (List Node) := do
  let t ← peek
  match n with
  | 0 => fail .openSequence start t.mark
  | n + 1 =>
    if t.kind ≠ .flowSequenceEnd then
      if !first then
        if t.kind ≠ .flowEntry then fail .openSequence start t.mark
        skip
      let t ← peek
      if t.kind = .key then
        skip
        let k ← peek
        let key ←
          if [.value, .flowEntry, .flowSequenceEnd].contains k.kind then do
            skip
            pure (.absent k.mark)
          else node n false false
        let value ← flowValue n .flowSequenceEnd
        return .mapping (t.mark.line + 1) none [(key, value)] :: (← flowItems n start false)
      if t.kind ≠ .flowSequenceEnd then
        let item ← node n false false
        return item :: (← flowItems n start false)
    skip
    return []

/-- The entries between braces, the first of which was opened at `start`. -/
def flowEntries (n : Nat) (start : Mark) (first : Bool) : Composer (List (Node × Node)) := do
  let t ← peek
  match n with
  | 0 => fail .openMapping start t.mark
  | n + 1 =>
    if t.kind ≠ .flowMappingEnd then
      if !first then
        if t.kind ≠ .flowEntry then fail .openMapping start t.mark
        skip
      let t ← peek
      if t.kind = .key then
        skip
        let key ← nodeBefore [.value, .flowEntry, .flowMappingEnd] t.mark (node n false false)
        let value ← flowValue n .flowMappingEnd
        return (key, value) :: (← flowEntries n start false)
      if t.kind ≠ .flowMappingEnd then
        let key ← node n false false
        return (key, .absent (← peek).mark) :: (← flowEntries n start false)
    skip
    return []

/-- The value of a key between brackets or braces, of which `close` is the closing one. -/
def flowValue (n : Nat) (close : TokenKind) : Composer Node := do
  let t ← peek
  match n with
  | 0 => return .absent t.mark
  | n + 1 =>
    if t.kind ≠ .value then return .absent t.mark
    skip
    nodeBefore [.flowEntry, close] t.mark (node n false false)

end

/-! ## Documents -/

/-- The handles that need no directive. -/
def defaultHandles : List (Bytes × Bytes) := [(exclamation, exclamation), (tagMark, tagNamespace)]

/-- The version of the format that documents may announce. -/
def version : Nat × Nat := (1, 1)

/-- Reads directives, of which one with a version came before if `versioned`. -/
def directives : Nat → Bool → Composer Unit
  | 0, _ => pure ()
  | n + 1, versioned => do
    let t ← peek
    match t.kind with
    | .directive (.version major minor) =>
      if versioned then fail .repeatedVersion .start t.mark
      if (major, minor) ≠ version then fail .otherVersion .start t.mark
      skip
      directives n true
    | .directive (.handle name expansion) =>
      if ((← get).handles.lookup name).isSome then fail .repeatedHandle .start t.mark
      modify fun c ↦ { c with handles := c.handles ++ [(name, expansion)] }
      skip
      directives n versioned
    | _ => modify fun c ↦ { c with handles := c.handles ++ defaultHandles }

/-- Whether a document without a marker cannot begin with a token. -/
def startsDocument : TokenKind → Bool
  | .directive _ | .documentStart => true
  | _ => false

/-- Whether a document ends before a token. -/
def endsDocument : TokenKind → Bool
  | .directive _ | .documentStart | .documentEnd | .streamEnd => true
  | _ => false

/-- Reads the first document, if there is one. What follows it is looked at, but may be anything.
`n` bounds the number of steps. -/
def document (n : Nat) : Composer (Option Node) := do
  let t ← peek
  if t.kind = .streamEnd then return none
  directives n false
  let root ←
    if startsDocument t.kind then do
      let t ← peek
      if t.kind ≠ .documentStart then fail .missingDocument .start t.mark
      skip
      let t ← peek
      if endsDocument t.kind then pure (.absent t.mark) else node n true false
    else node n true false
  let _ ← peek
  return some root

end Composer

/-- Reads the first document of a text, if there is one. -/
def read (text : Bytes) : Except Failure (Option Node) := do
  let lexer := Lexer.start (.ofBytes text)
  let (root, _) ← (Composer.document (8 * lexer.length + 16)).run ⟨lexer, [], #[]⟩
  return root

end Lox.Yaml
