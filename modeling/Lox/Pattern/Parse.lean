import Lox.Pattern.Basic

/-!
# The notation of regular expressions

Characters stand for themselves, except for these: a dot is any character but a line feed, brackets
enclose a set of characters, `*`, `+`, `?` and counts in braces repeat what is before them, a bar
separates alternatives, parentheses group, `^` and `$` are the start and the end of the text, and a
backslash begins an escape. Options change the meaning of what follows in the same group. The first
error from the left is reported, together with the part of the pattern it is about.

Sets of characters that are named by a Unicode property, such as `\pL` and `\p{Greek}`, are left
out: their escapes are refused as invalid. There is a limit on the counts of repetitions, but none
on how deep groups are nested or on the size of what a pattern stands for.
-/

namespace Lox

/-- What is wrong with a pattern. -/
inductive PatternError.Problem where
  | charClassRange
  | escape
  | groupSyntax
  | nestedRepetition
  | repeatCount
  | invalidUtf8
  | groupName
  | missingBracket
  | missingParen
  | missingRepeatArgument
  | trailingBackslash
  | unexpectedParen
  deriving DecidableEq, Repr

/-- The words for what is wrong with a pattern. -/
def PatternError.Problem.text : PatternError.Problem → String
  | .charClassRange => "invalid character class range"
  | .escape => "invalid escape sequence"
  | .groupSyntax => "invalid or unsupported Perl syntax"
  | .nestedRepetition => "invalid nested repetition operator"
  | .repeatCount => "invalid repeat count"
  | .invalidUtf8 => "invalid UTF-8"
  | .groupName => "invalid named capture"
  | .missingBracket => "missing closing ]"
  | .missingParen => "missing closing )"
  | .missingRepeatArgument => "missing argument to repetition operator"
  | .trailingBackslash => "trailing backslash at end of expression"
  | .unexpectedParen => "unexpected )"

/-- An error in a pattern, with the part of the pattern it is about. -/
structure PatternError where
  problem : PatternError.Problem
  part : Bytes
  deriving DecidableEq, Repr

/-- The message of an error in a pattern. -/
def PatternError.message (e : PatternError) : Bytes :=
  Bytes.ofString ("error parsing regexp: " ++ e.problem.text ++ ": `") ++ e.part ++
    Bytes.ofString "`"

namespace Regex

/-- What can be chosen about the meaning of a pattern. -/
structure Options where
  /-- Whether letters match whatever their case. -/
  fold : Bool
  /-- Whether `^` and `$` also match at the ends of lines. -/
  lines : Bool
  /-- Whether a dot also matches a line feed. -/
  dotAll : Bool
  deriving DecidableEq, Repr

/-- The options if nothing is chosen. -/
def Options.default : Options := ⟨false, false, false⟩

/-- Turns on or off the option that a letter stands for. Whether a match is as long or as short as
possible makes no difference here. -/
def Options.set? (o : Options) (code : Nat) (on : Bool) : Option Options :=
  match Char.ofNat code with
  | 'i' => some { o with fold := on }
  | 'm' => some { o with lines := on }
  | 's' => some { o with dotAll := on }
  | 'U' => some o
  | _ => none

/-- A set of characters under options. -/
def Options.set (o : Options) (set : CharSet) : CharSet := if o.fold then set.folded else set

/-- One particular character. -/
def Options.literal (o : Options) (code : Nat) : Regex := .char false (o.set [(code, code)])

/-- Any character, but perhaps not a line feed. -/
def Options.anyChar (o : Options) : Regex :=
  .char true (if o.dotAll then [] else [(lineFeed, lineFeed)])

/-- What was read between two points of a pattern, given what followed each. -/
def between (before after : Bytes) : Bytes := before.take (before.length - after.length)

/-- Reads one character. -/
def readChar : Bytes → Except PatternError (Nat × Bytes)
  | [] => .ok (Utf8.replacement, [])
  | b :: rest =>
    let d := Utf8.decode b rest
    if d.isInvalid then .error ⟨.invalidUtf8, b :: rest⟩ else .ok (d.code, rest.drop (d.size - 1))

/-- The value of a hexadecimal digit. -/
def hexValue? (code : Nat) : Option Nat :=
  if 48 ≤ code ∧ code ≤ 57 then some (code - 48)
  else if 97 ≤ code ∧ code ≤ 102 then some (code - 87)
  else if 65 ≤ code ∧ code ≤ 70 then some (code - 55)
  else none

/-- Whether a byte is an octal digit. -/
def isOctal (b : UInt8) : Bool := 48 ≤ b && b ≤ 55

/-- Reads hexadecimal digits up to a closing brace. Fails with what is left. -/
def readHex (digits value : Nat) : Bytes → Except Bytes (Nat × Bytes)
  | [] => .error []
  | b :: rest =>
    if b == Bytes.ascii '}' then if digits = 0 then .error rest else .ok (value, rest)
    else
      match hexValue? b.toNat with
      | none => .error rest
      | some v =>
        let value := value * 16 + v
        if CharSet.maxCode < value then .error rest else readHex (digits + 1) value rest

/-- Reads an escape of one character, from its backslash on. -/
def readEscape (s : Bytes) : Except PatternError (Nat × Bytes) :=
  match s.drop 1 with
  | [] => .error ⟨.trailingBackslash, []⟩
  | t => do
    let (c, rest) ← readChar t
    let failure (left : Bytes) : Except PatternError (Nat × Bytes) :=
      .error ⟨.escape, between s left⟩
    let octal : Except PatternError (Nat × Bytes) :=
      let more := (rest.take 2).takeWhile isOctal
      .ok (more.foldl (fun v b ↦ v * 8 + (b.toNat - 48)) (c - 48), rest.drop more.length)
    if c = 48 then octal
    else if 49 ≤ c ∧ c ≤ 55 then
      match rest with
      | b :: _ => if isOctal b then octal else failure rest
      | [] => failure rest
    else if c = 'x'.toNat then
      match rest with
      | [] => failure rest
      | b :: after =>
        if b == Bytes.ascii '{' then
          match readHex 0 0 after with
          | .ok r => .ok r
          | .error left => failure left
        else
          let (x, after) ← readChar rest
          let (y, after) ← readChar after
          match hexValue? x, hexValue? y with
          | some x, some y => .ok (x * 16 + y, after)
          | _, _ => failure after
    else
      match [('a', 7), ('f', 12), ('n', 10), ('r', 13), ('t', 9), ('v', 11)].find?
          (·.1.toNat = c) with
      | some (_, code) => .ok (code, rest)
      | none =>
        if c < 0x80 && !(CharSet.contains [(48, 57), (65, 90), (97, 122)] c) then .ok (c, rest)
        else failure rest

/-- The set of characters that an escape stands for, from its backslash on, and whether it is those
that are not in it. -/
def readSet? (t : Bytes) : Option (CharSet × Bool × Bytes) :=
  match t with
  | b :: c :: rest =>
    if b == Bytes.backslash then
      match Char.ofUInt8 c with
      | 'd' => some (.digits, false, rest)
      | 'D' => some (.digits, true, rest)
      | 's' => some (.spaces, false, rest)
      | 'S' => some (.spaces, true, rest)
      | 'w' => some (.wordParts, false, rest)
      | 'W' => some (.wordParts, true, rest)
      | _ => none
    else none
  | _ => none

/-- The sets of characters that have a name within brackets. -/
def namedSets : List (String × CharSet) :=
  [("alnum", [(48, 57), (65, 90), (97, 122)]), ("alpha", [(65, 90), (97, 122)]),
    ("ascii", [(0, 127)]), ("blank", [(9, 9), (32, 32)]), ("cntrl", [(0, 31), (127, 127)]),
    ("digit", [(48, 57)]), ("graph", [(33, 126)]), ("lower", [(97, 122)]), ("print", [(32, 126)]),
    ("punct", [(33, 47), (58, 64), (91, 96), (123, 126)]), ("space", [(9, 13), (32, 32)]),
    ("upper", [(65, 90)]), ("word", CharSet.wordParts),
    ("xdigit", [(48, 57), (65, 70), (97, 102)])]

/-- Reads a named set such as `[:digit:]` or `[:^digit:]`, and whether it is those characters that
are not in it. There is none if its end is missing. -/
def readNamedSet? (t : Bytes) : Except PatternError (Option (CharSet × Bool × Bytes)) :=
  if Bytes.startsWith (Bytes.ofString "[:") t then
    match Bytes.cut? (Bytes.ofString ":]") (t.drop 2) with
    | none => .ok none
    | some (name, after) =>
      let rest := after.drop 2
      let negated := name.head? = some (Bytes.ascii '^')
      let name := if negated then name.drop 1 else name
      match namedSets.find? fun s ↦ Bytes.ofString s.1 = name with
      | some (_, set) => .ok (some (set, negated, rest))
      | none => .error ⟨.charClassRange, between t rest⟩
  else .ok none

/-- A set of characters, or those not in it if `negated`, under options. -/
def Options.either (o : Options) (set : CharSet) (negated : Bool) : CharSet :=
  if negated then (o.set set).complement else o.set set

/-- Reads one character within brackets. `whole` is the pattern from the opening bracket on. -/
def readSetChar (whole t : Bytes) : Except PatternError (Nat × Bytes) :=
  match t with
  | [] => .error ⟨.missingBracket, whole⟩
  | b :: _ => if b == Bytes.backslash then readEscape t else readChar t

/-- Reads the members of a set up to its closing bracket, which may also be the first member. -/
def readMembers (o : Options) (whole : Bytes) :
    Nat → (first : Bool) → CharSet → Bytes → Except PatternError (CharSet × Bytes)
  | 0, _, _, _ => .error ⟨.missingBracket, whole⟩
  | n + 1, first, set, t =>
    if t.head? = some (Bytes.ascii ']') && !first then .ok (set, t.drop 1)
    else do
      match ← readNamedSet? t with
      | some (more, negated, rest) =>
        readMembers o whole n false (set ++ o.either more negated) rest
      | none =>
        match readSet? t with
        | some (more, negated, rest) =>
          readMembers o whole n false (set ++ o.either more negated) rest
        | none =>
          let (lo, rest) ← readSetChar whole t
          match rest with
          | b :: c :: _ =>
            if b == Bytes.ascii '-' && c != Bytes.ascii ']' then
              let (hi, rest) ← readSetChar whole (rest.drop 1)
              if hi < lo then .error ⟨.charClassRange, between t rest⟩
              else readMembers o whole n false (set ++ o.set [(lo, hi)]) rest
            else readMembers o whole n false (set ++ o.set [(lo, lo)]) rest
          | _ => readMembers o whole n false (set ++ o.set [(lo, lo)]) rest

/-- Reads a set of characters, from its opening bracket on. -/
def readBrackets (o : Options) (t : Bytes) : Except PatternError (Regex × Bytes) := do
  let inner := t.drop 1
  let negated := inner.head? = some (Bytes.ascii '^')
  let (set, rest) ←
    readMembers o t (t.length + 1) true [] (if negated then inner.drop 1 else inner)
  .ok (.char negated set, rest)

/-- The greatest count of a repetition. -/
def maxRepeat : Nat := 1000

/-- Reads a number without superfluous zeros. -/
def readNumber? (t : Bytes) : Option (Nat × Bytes) :=
  let ds := t.takeWhile fun b ↦ 48 ≤ b && b ≤ 57
  if ds.isEmpty || 1 < ds.length && ds.head? == some 48 then none
  else some (ds.foldl (fun v b ↦ v * 10 + (b.toNat - 48)) 0, t.drop ds.length)

/-- Reads counts in braces, from the opening brace on. -/
def readCounts? (t : Bytes) : Option (Nat × Option Nat × Bytes) := do
  let (min, rest) ← readNumber? (t.drop 1)
  match rest with
  | [] => none
  | b :: rest =>
    if b == Bytes.ascii '}' then some (min, some min, rest)
    else if b != Bytes.ascii ',' then none
    else if rest.head? = some (Bytes.ascii '}') then some (min, none, rest.drop 1)
    else
      let (max, rest) ← readNumber? rest
      if rest.head? = some (Bytes.ascii '}') then some (min, some max, rest.drop 1) else none

/-- A part of a pattern, with the greatest number of times that counts in braces repeat something in
it. -/
structure Part where
  regex : Regex
  weight : Nat
  deriving DecidableEq, Repr

namespace Part

/-- A part in which nothing is repeated by a count. -/
def simple (r : Regex) : Part := ⟨r, 1⟩

/-- Two parts, one after the other. -/
def seq (a b : Part) : Part := ⟨.seq a.regex b.regex, max a.weight b.weight⟩

/-- One of two parts. -/
def alt (a b : Part) : Part := ⟨.alt a.regex b.regex, max a.weight b.weight⟩

/-- A part repeated by counts. -/
def times (p : Part) (min : Nat) (max : Option Nat) : Part :=
  let factor := if max = some 0 then 0 else Nat.max 1 (max.getD min)
  ⟨p.regex.times min max, factor * p.weight⟩

end Part

/-- What was read of a group so far: the alternatives before the last bar, and the parts after it,
the latest first. -/
structure Group where
  branches : List Part
  parts : List Part
  deriving DecidableEq, Repr

namespace Group

/-- A group of which nothing was read. -/
def opened : Group := ⟨[], []⟩

/-- A group with one more part. -/
def pushPart (g : Group) (p : Part) : Group := { g with parts := p :: g.parts }

/-- A group with one more part, in which nothing is repeated by a count. -/
def push (g : Group) (r : Regex) : Group := g.pushPart (.simple r)

/-- The parts after the last bar, one after the other. -/
def branch (g : Group) : Part :=
  match g.parts with
  | [] => .simple .empty
  | p :: rest => rest.foldl (fun acc p ↦ .seq p acc) p

/-- A group at a bar. -/
def bar (g : Group) : Group := ⟨g.branch :: g.branches, []⟩

/-- All alternatives of a group. -/
def closed (g : Group) : Part := g.branches.foldl (fun acc p ↦ .alt p acc) g.branch

end Group

/-- What a repetition mark makes of the part before it. `t` begins with the mark, `rest` follows it,
and `last` begins with the mark right before it, if there is one. -/
def repeated (g : Group) (last t rest : Bytes) (f : Part → Part) :
    Except PatternError (Group × Bytes) :=
  let rest := if rest.head? = some (Bytes.ascii '?') then rest.drop 1 else rest
  if !last.isEmpty then .error ⟨.nestedRepetition, between last rest⟩
  else
    match g.parts with
    | [] => .error ⟨.missingRepeatArgument, between t rest⟩
    | p :: parts =>
      let p := f p
      if maxRepeat < p.weight then .error ⟨.repeatCount, between t rest⟩
      else .ok ({ g with parts := p :: parts }, rest)

/-- What stands after an opening parenthesis and a question mark. -/
inductive GroupMark where
  /-- The beginning of a group with options. -/
  | group (o : Options)
  /-- Options for what follows. -/
  | options (o : Options)
  deriving DecidableEq, Repr

/-- Whether a text is the name of a group. -/
def isGroupName (name : Bytes) : Bool :=
  !name.isEmpty && name.all fun b ↦ CharSet.wordParts.contains b.toNat

/-- Checks that a text has no invalid bytes. `n` bounds the number of its characters. -/
def checkCharacters : Nat → Bytes → Except PatternError Unit
  | 0, _ | _, [] => .ok ()
  | n + 1, t => do checkCharacters n (← readChar t).2

/-- Reads the name of a group up to its closing bracket. `t` is the pattern from the parenthesis
on, and `size` bytes stand before the name. -/
def readGroupName (t : Bytes) (size : Nat) : Except PatternError Bytes := do
  let inner := t.drop size
  let name := inner.takeWhile (· != Bytes.ascii '>')
  let rest := inner.drop (name.length + 1)
  if name.length = inner.length then
    checkCharacters t.length t
    throw ⟨.groupName, t⟩
  checkCharacters name.length name
  if isGroupName name then return rest else throw ⟨.groupName, between t rest⟩

/-- Reads options up to a colon or a parenthesis. `t` is the pattern from the parenthesis before
them on. After a dash, options are turned off; `seen` tells whether one was read after it. -/
def readOptions (t : Bytes) :
    Nat → (on seen : Bool) → Options → Bytes → Except PatternError (GroupMark × Bytes)
  | 0, _, _, _, left => .error ⟨.groupSyntax, between t left⟩
  | n + 1, on, seen, o, left =>
    if left.isEmpty then .error ⟨.groupSyntax, t⟩
    else do
      let (c, rest) ← readChar left
      match o.set? c on with
      | some o => readOptions t n on true o rest
      | none =>
        if c = '-'.toNat && on then readOptions t n false false o rest
        else if c = ':'.toNat && (on || seen) then .ok (.group o, rest)
        else if c = ')'.toNat && (on || seen) then .ok (.options o, rest)
        else .error ⟨.groupSyntax, between t rest⟩

/-- Reads what follows an opening parenthesis and a question mark: the name of a group, or
options. -/
def readGroupMark (o : Options) (t : Bytes) : Except PatternError (GroupMark × Bytes) := do
  let named (words : String) : Bool :=
    Bytes.startsWith (Bytes.ofString words) t && words.length < t.length
  if named "(?P<" then return (.group o, ← readGroupName t 4)
  else if named "(?<" then return (.group o, ← readGroupName t 3)
  else readOptions t t.length true false o (t.drop 2)

/-- Adds the characters of a text as they are. -/
def readLiterals (o : Options) : Nat → Group → Bytes → Except PatternError Group
  | 0, g, _ | _, g, [] => .ok g
  | n + 1, g, t => do
    let (c, rest) ← readChar t
    readLiterals o n (g.push (o.literal c)) rest

/-- Reads a pattern. `outer` are the groups around the one being read, the innermost first, each
with its options, and `last` is what follows, and includes, a repetition mark just read. -/
def read (whole : Bytes) :
    Nat → (outer : List (Group × Options)) → Options → Group → (last : Bytes) → Bytes →
      Except PatternError Regex
  | 0, _, _, _, _, _ => .error ⟨.missingParen, whole⟩
  | n + 1, outer, o, g, last, t =>
    match t with
    | [] => if outer.isEmpty then .ok g.closed.regex else .error ⟨.missingParen, whole⟩
    | b :: rest =>
      match Char.ofUInt8 b with
      | '(' =>
        if rest.head? = some (Bytes.ascii '?') then do
          match ← readGroupMark o t with
          | (.group inner, rest) => read whole n ((g, o) :: outer) inner .opened [] rest
          | (.options o, rest) => read whole n outer o g [] rest
        else read whole n ((g, o) :: outer) o .opened [] rest
      | ')' =>
        match outer with
        | [] => .error ⟨.unexpectedParen, whole⟩
        | (around, o) :: outer => read whole n outer o (around.pushPart g.closed) [] rest
      | '|' => read whole n outer o g.bar [] rest
      | '^' => read whole n outer o (g.push (.start o.lines)) [] rest
      | '$' => read whole n outer o (g.push (.finish o.lines)) [] rest
      | '.' => read whole n outer o (g.push o.anyChar) [] rest
      | '[' => do
        let (r, rest) ← readBrackets o t
        read whole n outer o (g.push r) [] rest
      | '*' => do
        let (g, rest) ← repeated g last t rest fun p ↦ ⟨.star p.regex, p.weight⟩
        read whole n outer o g t rest
      | '+' => do
        let (g, rest) ← repeated g last t rest fun p ↦ ⟨.seq p.regex (.star p.regex), p.weight⟩
        read whole n outer o g t rest
      | '?' => do
        let (g, rest) ← repeated g last t rest fun p ↦ ⟨.alt p.regex .empty, p.weight⟩
        read whole n outer o g t rest
      | '{' =>
        match readCounts? t with
        | none => read whole n outer o (g.push (o.literal b.toNat)) [] rest
        | some (min, max, rest) => do
          if maxRepeat < min || max.any (fun max ↦ maxRepeat < max || max < min) then
            .error ⟨.repeatCount, between t rest⟩
          else
            let (g, rest) ← repeated g last t rest fun p ↦ p.times min max
            read whole n outer o g t rest
      | '\\' =>
        match rest.head?.map Char.ofUInt8 with
        | some 'A' => read whole n outer o (g.push (.start false)) [] (rest.drop 1)
        | some 'z' => read whole n outer o (g.push (.finish false)) [] (rest.drop 1)
        | some 'b' => read whole n outer o (g.push (.boundary false)) [] (rest.drop 1)
        | some 'B' => read whole n outer o (g.push (.boundary true)) [] (rest.drop 1)
        | some 'Q' => do
          let (text, rest) :=
            (Bytes.cut? (Bytes.ofString "\\E") (rest.drop 1)).getD (rest.drop 1, [])
          let g ← readLiterals o text.length g text
          read whole n outer o g [] (rest.drop 2)
        | _ =>
          match readSet? t with
          | some (set, negated, rest) =>
            read whole n outer o (g.push (.char negated (o.set set))) [] rest
          | none => do
            let (c, rest) ← readEscape t
            read whole n outer o (g.push (o.literal c)) [] rest
      | _ => do
        let (c, rest) ← readChar t
        read whole n outer o (g.push (o.literal c)) [] rest

/-- The regular expression of a pattern. -/
def ofPattern (pattern : Bytes) : Except PatternError Regex :=
  read pattern (pattern.length + 1) [] .default .opened [] pattern

end Regex
end Lox
