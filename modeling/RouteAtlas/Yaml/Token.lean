import RouteAtlas.Text.Blank
import RouteAtlas.Text.Pattern.Reader

/-!
# YAML tokens

A YAML text as tokens: scalars, the punctuation of the bracketed notation, and marks for the begin and
the end of every collection that is laid out by indentation. A key is known as such only when the
colon after it is met; until then its place among the tokens is remembered, and the mark for it is
put there later.
-/

namespace RouteAtlas.Yaml

/-- A token of a YAML text. -/
inductive Token where
  | directive
  | documentStart
  | documentEnd
  | blockSequence
  | blockMapping
  | blockEnd
  | openSequence
  | closeSequence
  | openMapping
  | closeMapping
  | item
  | comma
  | key
  | value
  | reference (name : String)
  | anchor (name : String)
  | tag (name : String)
  | scalar (text : String) (isPlain : Bool)
  deriving Repr, DecidableEq, Inhabited

/-- A place that may turn out to be a key: the number of tokens before it, where it stands, and
whether nothing else can stand there. -/
structure PendingKey where
  tokens : Nat
  index : Nat
  line : Nat
  column : Int
  required : Bool
  deriving Repr, Inhabited

/-- How far a text has been read. The level counts open brackets; pending keys belong to levels. -/
structure Scan where
  rest : List Char
  index : Nat
  line : Nat
  column : Int
  tokens : List Token
  indent : Int
  outerIndents : List Int
  level : Nat
  keyAllowed : Bool
  pending : List (Nat × PendingKey)
  deriving Inhabited

/-- A step of reading, which may refuse the text. -/
abbrev Step :=
  StateT Scan Option

namespace Scan

section Characters

/-- Whether a character ends a line. -/
def isBreak (c : Char) : Bool :=
  c = '\n' || c = '\r' || c.toNat == 133 || c.toNat == 8232 || c.toNat == 8233

/-- Whether what comes next is white space, the end of a line or the end of the text. -/
def blankNext : List Char → Bool
  | [] => true
  | c :: _ => c = ' ' || c = '\t' || isBreak c

/-- Whether a character may stand in a YAML text. -/
def isAllowed (c : Char) : Bool :=
  let n := c.toNat
  n == 9 || n == 10 || n == 13 || (32 ≤ n && n ≤ 126) || n == 133 || (160 ≤ n && n ≤ 55295) ||
    (57344 ≤ n && n ≤ 65533) || (65536 ≤ n && n ≤ 1114111)

/-- The next character. -/
def peek : Step (Option Char) := do
  return (← get).rest.head?

/-- The characters from so many on. -/
def ahead (n : Nat) : Step (List Char) := do
  return (← get).rest.drop n

/-- Moves on by one character. -/
def forward : Step Unit :=
  modify fun s =>
    match s.rest with
    | [] => s
    | c :: rest =>
      let endsLine := isBreak c && !(c = '\r' && rest.head? = some '\n')
      { s with
        rest := rest
        index := s.index + 1
        line := if endsLine then s.line + 1 else s.line
        column := if endsLine then 0 else if c.toNat == 65279 then s.column else s.column + 1 }

/-- Moves on by so many characters. -/
def skip : Nat → Step Unit
  | 0 => pure ()
  | n + 1 => do
    forward
    skip n

/-- Takes the longest run of characters of a class. -/
def takeWhile (p : Char → Bool) : Step (List Char) := do
  let run := (← get).rest.takeWhile p
  skip run.length
  return run

/-- Takes a line break, if there is one, and gives what it stands for. -/
def takeBreak : Step (List Char) := do
  let s ← get
  match s.rest with
  | '\r' :: '\n' :: _ =>
    skip 2
    return ['\n']
  | c :: _ =>
    if isBreak c then
      forward
      return if c.toNat == 8232 || c.toNat == 8233 then [c] else ['\n']
    else return []
  | [] => return []

/-- Whether three signs of a kind, followed by white space, come next. -/
def marksDocument (sign : Char) (cs : List Char) : Bool :=
  cs.take 3 == [sign, sign, sign] && blankNext (cs.drop 3)

/-- Whether a document begins or ends here. -/
def atDocumentMark : Step Bool := do
  let cs := (← get).rest
  return marksDocument '-' cs || marksDocument '.' cs

end Characters

section Keys

/-- Adds a token. -/
def emit (t : Token) : Step Unit :=
  modify fun s => { s with tokens := s.tokens ++ [t] }

/-- Adds a token at a place among the tokens. -/
def emitAt (n : Nat) (t : Token) : Step Unit :=
  modify fun s => { s with tokens := s.tokens.insertIdx n t }

/-- Gives up the pending key of the level, unless it was required. -/
def dropPending : Step Unit := do
  let s ← get
  match s.pending.find? fun e => e.1 == s.level with
  | some (_, k) =>
    if k.required then
      failure
    else
      set { s with pending := s.pending.filter fun e => e.1 != s.level }
  | none => pure ()

/-- Gives up pending keys that cannot be keys any more: those of an earlier line and those too far
back. -/
def dropStale : Step Unit := do
  let s ← get
  let isStale (k : PendingKey) := k.line != s.line || 1024 < s.index - k.index
  if s.pending.any fun e => isStale e.2 && e.2.required then
    failure
  else
    set { s with pending := s.pending.filter fun e => !isStale e.2 }

/-- Remembers that what comes next may be a key. -/
def notePending : Step Unit := do
  let s ← get
  if s.keyAllowed then
    dropPending
    let required := s.level == 0 && s.indent == s.column
    modify fun t =>
      { t with
        pending := (s.level, ⟨s.tokens.length, s.index, s.line, s.column, required⟩) ::
          t.pending.filter fun e => e.1 != s.level }

/-- Sets whether a key may follow. -/
def allowKey (b : Bool) : Step Unit :=
  modify fun s => { s with keyAllowed := b }

/-- Closes the collections that are indented more than a column. -/
def unwindTo (column : Int) : Step Unit := do
  let s ← get
  if s.level = 0 then
    let closed := (s.indent :: s.outerIndents).takeWhile fun i => column < i
    let left := (s.indent :: s.outerIndents).drop closed.length
    set { s with
      tokens := s.tokens ++ closed.map fun _ => Token.blockEnd
      indent := left.headD (-1)
      outerIndents := left.tail }

/-- Opens a collection at a column, if it is indented more than the one around it. -/
def indentTo (column : Int) : Step Bool := do
  let s ← get
  if s.indent < column then
    set { s with indent := column, outerIndents := s.indent :: s.outerIndents }
    return true
  else
    return false

end Keys

section Scalars

/-- The escapes of one character in double quotes. -/
def escapes : List (Char × Nat) :=
  [('0', 0), ('a', 7), ('b', 8), ('t', 9), ('\t', 9), ('n', 10), ('v', 11), ('f', 12), ('r', 13),
    ('e', 27), (' ', 32), ('"', 34), ('\\', 92), ('/', 47), ('N', 133), ('_', 160), ('L', 8232),
    ('P', 8233)]

/-- The line breaks before the next line that holds anything, in a quoted scalar. -/
def quotedBreaks : Nat → Step (List Char)
  | 0 => failure
  | n + 1 => do
    if ← atDocumentMark then
      failure
    let _ ← takeWhile fun c => c = ' ' || c = '\t'
    match ← peek with
    | some c =>
      if isBreak c then return (← takeBreak) ++ (← quotedBreaks n) else return []
    | none => return []

/-- What line breaks in a scalar stand for: one alone is a space, of several the first does not
count. -/
def foldBreaks (first more : List Char) : List Char :=
  if first != ['\n'] then first ++ more
  else if more.isEmpty then [' ']
  else more

/-- White space in a quoted scalar. -/
def quotedSpaces : Step (List Char) := do
  let spaces ← takeWhile fun c => c = ' ' || c = '\t'
  match ← peek with
  | none => failure
  | some c =>
    if isBreak c then
      let first ← takeBreak
      return foldBreaks first (← quotedBreaks ((← get).rest.length + 1))
    else return spaces

/-- What a backslash stands for in double quotes. -/
def quotedEscape : Step (List Char) := do
  match ← peek with
  | none => failure
  | some c =>
    match escapes.find? fun e => e.1 == c with
    | some (_, n) =>
      forward
      return [Char.ofNat n]
    | none =>
      let digits := if c = 'x' then 2 else if c = 'u' then 4 else if c = 'U' then 8 else 0
      if 0 < digits then
        forward
        let ds := (← get).rest.take digits
        let n := Text.Pattern.digitsValue 16 ds
        if ds.length = digits && ds.all Text.Pattern.isHexDigit && n.isValidChar then
          skip digits
          return [Char.ofNat n]
        else failure
      else if isBreak c then
        let _ ← takeBreak
        quotedBreaks ((← get).rest.length + 1)
      else failure

/-- The text of a quoted scalar after its opening quote, the closing one included. -/
def quotedText (double : Bool) : Nat → Step (List Char)
  | 0 => failure
  | n + 1 => do
    let plain ← takeWhile fun c =>
      !(c = '\'' || c = '"' || c = '\\' || c = ' ' || c = '\t' || isBreak c)
    let s ← get
    match s.rest with
    | [] => failure
    | '\'' :: '\'' :: _ =>
      if double then
        forward
        return plain ++ '\'' :: (← quotedText double n)
      else
        skip 2
        return plain ++ '\'' :: (← quotedText double n)
    | c :: _ =>
      if c = (if double then '"' else '\'') then
        forward
        return plain
      else if c = '\\' && double then
        forward
        let e ← quotedEscape
        return plain ++ e ++ (← quotedText double n)
      else if c = '\'' || c = '"' || c = '\\' then
        forward
        return plain ++ c :: (← quotedText double n)
      else
        let spaces ← quotedSpaces
        return plain ++ spaces ++ (← quotedText double n)

/-- Reads a quoted scalar. -/
def quoted (double : Bool) : Step Unit := do
  notePending
  allowKey false
  forward
  let cs ← quotedText double ((← get).rest.length + 1)
  emit (.scalar (String.ofList cs) false)

/-- The line breaks after a line of a plain scalar; nothing when a document mark follows. -/
def plainBreaks : Nat → Step (Option (List Char))
  | 0 => failure
  | n + 1 => do
    match ← peek with
    | some ' ' =>
      forward
      plainBreaks n
    | some c =>
      if isBreak c then
        let b ← takeBreak
        if ← atDocumentMark then return none
        return (← plainBreaks n).map fun more => b ++ more
      else return some []
    | none => return some []

/-- White space in a plain scalar; none at all when the scalar ends with it. -/
def plainSpaces : Step (List Char) := do
  let spaces ← takeWhile (· = ' ')
  match ← peek with
  | none => return spaces
  | some c =>
    if isBreak c then
      let first ← takeBreak
      allowKey true
      if ← atDocumentMark then return []
      match ← plainBreaks ((← get).rest.length + 1) with
      | some more => return foldBreaks first more
      | none => return []
    else return spaces

/-- How many characters of a plain scalar come next. -/
def plainLength (bracketed : Bool) : List Char → Nat
  | [] => 0
  | c :: rest =>
    let endsAtColon := blankNext rest ||
      (bracketed && (rest.head?.map fun d => [',', '[', ']', '\x7b', '\x7d'].contains d).getD false)
    if c = ' ' || c = '\t' || isBreak c || (c = ':' && endsAtColon) ||
        (bracketed && [',', '?', '[', ']', '\x7b', '\x7d'].contains c) then 0
    else plainLength bracketed rest + 1

/-- The text of a plain scalar, given the white space before it. -/
def plainText (indent : Int) : Nat → List Char → Step (List Char)
  | 0, _ => failure
  | n + 1, spaces => do
    let s ← get
    let length := plainLength (0 < s.level) s.rest
    if s.rest.head? = some '#' || length = 0 then return []
    allowKey false
    let word := s.rest.take length
    skip length
    let more ← plainSpaces
    let t ← get
    if more.isEmpty || t.rest.head? = some '#' || (t.level = 0 && t.column < indent) then
      return spaces ++ word
    else
      return spaces ++ word ++ (← plainText indent n more)

/-- Reads a plain scalar. -/
def plain : Step Unit := do
  notePending
  allowKey false
  let s ← get
  let cs ← plainText (s.indent + 1) (s.rest.length + 1) []
  emit (.scalar (String.ofList cs) true)

end Scalars

section Blocks

/-- The marks after the sign of a block scalar: whether line breaks at its end are kept or dropped,
and its indentation. -/
def blockMarks : Step (Option Bool × Option Nat) := do
  let keep : Step (Option Bool) := do
    match ← peek with
    | some '+' =>
      forward
      return some true
    | some '-' =>
      forward
      return some false
    | _ => return none
  let digit : Step (Option Nat) := do
    match ← peek with
    | some c =>
      if c.isDigit then
        forward
        if c = '0' then failure else return some (c.toNat - 48)
      else return none
    | none => return none
  match ← keep with
  | some k => return (some k, ← digit)
  | none =>
    match ← digit with
    | some d => return (← keep, some d)
    | none => return (none, none)

/-- The line breaks at the front of a block scalar, and the largest column before its first line. -/
def blockFront : Nat → Int → Step (List Char × Int)
  | 0, _ => failure
  | n + 1, widest => do
    match ← peek with
    | some ' ' =>
      forward
      blockFront n (max widest (← get).column)
    | some c =>
      if isBreak c then
        let b ← takeBreak
        let (more, w) ← blockFront n widest
        return (b ++ more, w)
      else return ([], widest)
    | none => return ([], widest)

/-- Skips the indentation of a line. -/
def skipIndent (indent : Int) : Nat → Step Unit
  | 0 => pure ()
  | n + 1 => do
    let s ← get
    if s.column < indent && s.rest.head? = some ' ' then
      forward
      skipIndent indent n

/-- The line breaks before the next line of a block scalar. -/
def blockBreaks (indent : Int) : Nat → Step (List Char)
  | 0 => failure
  | n + 1 => do
    skipIndent indent (← get).rest.length
    match ← peek with
    | some c =>
      if isBreak c then return (← takeBreak) ++ (← blockBreaks indent n) else return []
    | none => return []

/-- The lines of a block scalar, given the line breaks before them: the text, and the line breaks
after the last line, the first of them apart. -/
def blockLines (folded : Bool) (indent : Int) :
    Nat → List Char → Step (List Char × List Char × List Char)
  | 0, _ => failure
  | n + 1, breaks => do
    let s ← get
    if s.column = indent && !s.rest.isEmpty then
      let startsText := !(s.rest.head? = some ' ' || s.rest.head? = some '\t')
      let line ← takeWhile fun c => !isBreak c
      let lineBreak ← takeBreak
      let more ← blockBreaks indent ((← get).rest.length + 1)
      let t ← get
      if t.column = indent && !t.rest.isEmpty then
        let nextText := !(t.rest.head? = some ' ' || t.rest.head? = some '\t')
        let joint :=
          if folded && lineBreak == ['\n'] && startsText && nextText then
            if more.isEmpty then [' '] else []
          else lineBreak
        let (text, last, final) ← blockLines folded indent n more
        return (breaks ++ line ++ joint ++ text, last, final)
      else return (breaks ++ line, lineBreak, more)
    else return ([], [], breaks)

/-- Reads a block scalar. -/
def block (folded : Bool) : Step Unit := do
  allowKey true
  dropPending
  forward
  let (keep, digits) ← blockMarks
  if !blankNext (← get).rest || (← peek) = some '\t' then failure
  let _ ← takeWhile (· = ' ')
  if (← peek) = some '#' then
    let _ ← takeWhile fun c => !isBreak c
  match ← peek with
  | some c => if !isBreak c then failure
  | none => pure ()
  let _ ← takeBreak
  let s ← get
  let least := max (s.indent + 1) 1
  let bound := s.rest.length + 1
  let (front, indent) ←
    match digits with
    | some d => do
      let indent := least + (d : Int) - 1
      pure (← blockBreaks indent bound, indent)
    | none => do
      let (front, widest) ← blockFront bound 0
      pure (front, max least widest)
  let (text, last, final) ← blockLines folded indent bound front
  let stop := if keep = some false then [] else last
  let more := if keep = some true then final else []
  emit (.scalar (String.ofList (text ++ stop ++ more)) false)

end Blocks

section Names

/-- Whether a character may stand in the name of an anchor. -/
def isNameChar (c : Char) : Bool :=
  c.isAlphanum || c = '-' || c = '_'

/-- The name after the sign of an anchor or of a reference to one. -/
def anchorName : Step String := do
  forward
  let name ← takeWhile isNameChar
  let s ← get
  let follows := blankNext s.rest ||
    (s.rest.head?.map fun c => "?:,]\x7d%@`".toList.contains c).getD false
  if name.isEmpty || !follows then failure else return String.ofList name

/-- Whether a character may stand in a tag. -/
def isTagChar (c : Char) : Bool :=
  c.isAlphanum || "-;/?:@&=+$,_.!~*'()[]%".toList.contains c

/-- Reads a tag. Two exclamation marks stand for the tags of the standard. -/
def tagName : Step String := do
  forward
  let s ← get
  let name ←
    match s.rest with
    | '<' :: _ => do
      forward
      let name ← takeWhile isTagChar
      if name.isEmpty || (← peek) != some '>' then failure
      forward
      pure (String.ofList name)
    | cs =>
      if blankNext cs then pure "!"
      else do
        let name ← takeWhile isTagChar
        match name with
        | [] => failure
        | ['!'] => failure
        | '!' :: rest => pure ("tag:yaml.org,2002:" ++ String.ofList rest)
        | name => pure ("!" ++ String.ofList name)
  let t ← get
  if blankNext t.rest && t.rest.head? != some '\t' then return name else failure

end Names

section Tokens

/-- Skips white space and comments up to the next token. Outside of brackets a key may begin a
line. -/
def skipBlank : Nat → Step Unit
  | 0 => pure ()
  | n + 1 => do
    let _ ← takeWhile (· = ' ')
    if (← peek) = some '#' then
      let _ ← takeWhile fun c => !isBreak c
    match ← peek with
    | some c =>
      if isBreak c then
        let _ ← takeBreak
        if (← get).level = 0 then allowKey true
        skipBlank n
    | none => pure ()

/-- Reads a bracket that opens a collection. -/
def openBracket (t : Token) : Step Unit := do
  notePending
  modify fun s => { s with level := s.level + 1 }
  allowKey true
  forward
  emit t

/-- Reads a bracket that closes a collection. -/
def closeBracket (t : Token) : Step Unit := do
  dropPending
  modify fun s => { s with level := s.level - 1 }
  allowKey false
  forward
  emit t

/-- Opens a collection at the column if a key may stand here. -/
def openHere (t : Token) : Step Unit := do
  let s ← get
  if s.level = 0 then
    if !s.keyAllowed then failure
    if ← indentTo s.column then emit t

/-- Reads the sign of an item. -/
def readItem : Step Unit := do
  openHere .blockSequence
  allowKey true
  dropPending
  forward
  emit .item

/-- Reads the sign of an explicit key. -/
def readKey : Step Unit := do
  openHere .blockMapping
  allowKey ((← get).level = 0)
  dropPending
  forward
  emit .key

/-- Reads the colon before a value. A pending key becomes a key by it. -/
def readValue : Step Unit := do
  let s ← get
  match s.pending.find? fun e => e.1 == s.level with
  | some (_, k) =>
    set { s with pending := s.pending.filter fun e => e.1 != s.level }
    emitAt k.tokens .key
    if s.level = 0 then
      if ← indentTo k.column then emitAt k.tokens .blockMapping
    allowKey false
  | none =>
    openHere .blockMapping
    allowKey (s.level = 0)
    dropPending
  forward
  emit .value

/-- Reads the mark between documents. -/
def readDocumentMark (t : Token) : Step Unit := do
  unwindTo (-1)
  dropPending
  allowKey false
  skip 3
  emit t

/-- Whether the text of a directive is understood. -/
def isGoodDirective (line : List Char) : Bool :=
  match Text.afterStart? "%YAML".toList line with
  | some rest =>
    match Text.Pattern.ofText? "^ +1\\.[0-9]+ *(#.*)?$" with
    | some p => p.occursIn (String.ofList rest)
    | none => false
  | none => true

/-- Reads a directive. -/
def readDirective : Step Unit := do
  unwindTo (-1)
  dropPending
  allowKey false
  let line ← takeWhile fun c => !isBreak c
  if isGoodDirective line then emit .directive else failure

/-- Reads a reference to an anchor, an anchor or a tag. -/
def readName (name : Step String) (t : String → Token) : Step Unit := do
  notePending
  allowKey false
  emit (t (← name))

/-- Whether a plain scalar begins here. -/
def startsPlain (level : Nat) : List Char → Bool
  | [] => false
  | c :: rest =>
    !(c = ' ' || c = '\t' || isBreak c || "-?:,[]\x7b\x7d#&*!|>'\"%@`".toList.contains c) ||
      (!blankNext rest && (c = '-' || (level = 0 && (c = '?' || c = ':'))))

/-- Reads the next token. `false` says that the text is at its end. -/
def readToken : Step Bool := do
  skipBlank ((← get).rest.length + 1)
  dropStale
  unwindTo (← get).column
  let s ← get
  let blankAfter := blankNext (s.rest.drop 1)
  match s.rest with
  | [] =>
    unwindTo (-1)
    dropPending
    return false
  | c :: _ =>
    if s.column = 0 && c = '%' then readDirective
    else if s.column = 0 && marksDocument '-' s.rest then readDocumentMark .documentStart
    else if s.column = 0 && marksDocument '.' s.rest then readDocumentMark .documentEnd
    else if c = '[' then openBracket .openSequence
    else if c = '\x7b' then openBracket .openMapping
    else if c = ']' then closeBracket .closeSequence
    else if c = '\x7d' then closeBracket .closeMapping
    else if c = ',' then
      allowKey true
      dropPending
      forward
      emit .comma
    else if c = '-' && blankAfter then readItem
    else if c = '?' && (0 < s.level || blankAfter) then readKey
    else if c = ':' && (0 < s.level || blankAfter) then readValue
    else if c = '*' then readName anchorName .reference
    else if c = '&' then readName anchorName .anchor
    else if c = '!' then readName tagName .tag
    else if c = '|' && s.level = 0 then block false
    else if c = '>' && s.level = 0 then block true
    else if c = '\'' then quoted false
    else if c = '"' then quoted true
    else if startsPlain s.level s.rest then plain
    else failure
    return true

/-- Reads all tokens. The number bounds them. -/
def readTokens : Nat → Step Unit
  | 0 => failure
  | n + 1 => do
    if ← readToken then readTokens n

end Tokens

end Scan

/-- The tokens of a text. A byte order mark may stand in front of it. -/
def tokens? (text : String) : Option (List Token) :=
  let cs := text.toList
  if cs.all Scan.isAllowed then
    let cs :=
      match cs with
      | c :: rest => if c.toNat == 65279 then rest else c :: rest
      | [] => []
    let start : Scan := ⟨cs, 0, 0, 0, [], -1, [], 0, true, []⟩
    ((Scan.readTokens (cs.length + 2)).run start).map fun r => r.2.tokens
  else
    none

end RouteAtlas.Yaml
