import RegisterCompiler.Yaml.Scalar

/-!
# Tokens of documents

The tokens of a document are its scalars, its signs, and the beginnings and ends of block collections, which
are seen from the columns in which entries begin.

Whether a scalar or a flow collection is a key is seen only from the colon after it, on the same line. So the
place where a key may have begun is remembered for every flow collection that is open, and the tokens for the
key are put there when the colon is found.

Tokens are given on while others are read: a token is free when two more have been read, but one that may begin
a key is kept back until that is settled. Nothing can be put before a token that has been given on. This can
happen to a flow collection in which no key could begin, as its end sets its beginning free.

* `TokenReader.fetch` reads the next token.
* `readTokens` reads all tokens, up to the first mistake.

Functions with an argument `fuel` are for texts of which fewer than `fuel` characters are left.
-/

namespace RegisterCompiler.Yaml

inductive Token where
  | documentStart
  | documentEnd
  | streamEnd
  /-- The beginning of a block sequence. -/
  | sequenceStart
  /-- The beginning of a block mapping. -/
  | mappingStart
  /-- The end of a block collection. -/
  | blockEnd
  | flowSequenceStart
  | flowSequenceEnd
  | flowMappingStart
  | flowMappingEnd
  | dash
  | comma
  /-- The beginning of a key. -/
  | key
  /-- The colon before a value. -/
  | colon
  | scalar (plain : Bool) (text : String)
  deriving DecidableEq, Repr, Inhabited

/-- A place where a key may have begun. -/
structure KeyMark where
  /-- The number of tokens before it. -/
  number : Nat
  line : Nat
  column : Nat
  /-- Whether it is a mistake if no colon follows. -/
  required : Bool
  deriving DecidableEq, Repr, Inhabited

/-- Whether a colon at a place is near enough to a key. -/
def KeyMark.isNear (k : KeyMark) (c : Cursor) : Bool := c.line == k.line && c.column ≤ k.column + 1024

/-- What is known of keys in a flow collection, or outside of all. -/
structure Scope where
  /-- Where a key may have begun. -/
  keyMark : Option KeyMark := none
  /-- The number of the token that was kept back last; at first, of the one that begins the collection. -/
  lastKept : Nat := 0
  deriving DecidableEq, Repr, Inhabited

/-- A text whose tokens have been read in part. -/
structure TokenReader where
  place : Cursor
  /-- The tokens so far, the last one first. -/
  tokens : List Token := []
  count : Nat := 0
  /-- The number of tokens that have been given on. -/
  given : Nat := 0
  /-- The numbers of the tokens that are kept back, each with the number of flow collections around it. -/
  kept : List (Nat × Nat) := []
  /-- The column in which the entries of the innermost block collection begin, -1 outside of all. -/
  indent : Int := -1
  /-- The columns for the block collections around it. -/
  outerIndents : List Int := []
  /-- The keys in the innermost flow collection. -/
  scope : Scope := {}
  /-- The keys around the flow collections that are open, the innermost first. -/
  outerScopes : List Scope := []
  /-- Whether a key may begin here. -/
  keyAllowed : Bool := true
  /-- Whether a comment on its line belongs to the last token. -/
  trailing : Bool := false
  deriving DecidableEq, Repr, Inhabited

namespace TokenReader

/-! ## Blanks and comments -/

/-- How far away the next comment is, if nothing but blanks stand before it, after the `n` characters before. At
    most `limit` characters are looked at. If `acrossLines`, line feeds and carriage returns may stand before it as
    well; another line break is looked past, but ends the search. -/
def commentAhead (acrossLines : Bool) : (limit n : Nat) → Cursor → Option (Option Nat × Cursor)
  | 0, _, c => some (none, c)
  | limit + 1, n, c => do
    let c ← c.need? (n + 1)
    match (c.rest.drop n).head? with
    | none => return (none, c)
    | some x =>
      if isBlank x || acrossLines && (x == '\n' || x == '\r') then commentAhead acrossLines limit (n + 1) c
      else if x = '#' then return (some n, c)
      else if acrossLines && isBreak x && limit ≠ 0 then return (none, ← c.need? (n + 2))
      else return (none, c)

/-- The number of characters that are looked at for a comment. -/
def commentReach : Nat := 512

/-- Leaves blanks and line breaks before a comment behind. -/
def toComment : (fuel : Nat) → Cursor → Cursor
  | 0, c => c
  | fuel + 1, c =>
    if c.atLineBreak then toComment fuel c.nextLine
    else if c.atBlank then toComment fuel (c.drop 1)
    else c

/-- Leaves a comment behind, and others that follow it. -/
def passComments : (fuel : Nat) → Cursor → Option Cursor
  | 0, _ => none
  | fuel + 1, c => do
    match ← commentAhead true commentReach 0 (← c.toLineEnd fuel) with
    | (none, c) => return c
    | (some n, c) => passComments fuel (toComment n c)

/-- Leaves a comment on the line of a token behind. -/
def passTrailing (fuel : Nat) (c : Cursor) : Option Cursor := do
  match ← commentAhead false commentReach 0 c with
  | (none, c) => return c
  | (some n, c) => (c.drop n).toLineEnd fuel

/-- Leaves blanks, comments and line breaks behind: the place after them, and whether a key may begin there. In
    block content a key may begin on every new line, and no tab may stand before it. Where a byte order mark began
    what was read last, the first character of a line is passed over. -/
def toToken (flow : Bool) : (fuel : Nat) → (keyAllowed : Bool) → Cursor → Option (Cursor × Bool)
  | 0, _, _ => none
  | fuel + 1, keyAllowed, c => do
    let c ← c.need? 1
    let c := if c.column = 0 ∧ c.marked then c.drop 1 else c
    let c ← c.passAtMost (fun x => x == ' ' || x == '\t' && (flow || !keyAllowed)) fuel
    let c ← if c.head? = some '#' then passComments (fuel + 1) c else some c
    if c.atLineBreak then toToken flow fuel (keyAllowed || !flow) (← c.need? 2).nextLine
    else return (c, keyAllowed)

def inFlow (s : TokenReader) : Bool := !s.outerScopes.isEmpty

/-! ## Keys and indentation -/

/-- Adds tokens, of which the last one comes first. -/
def append (ts : List Token) (s : TokenReader) : TokenReader :=
  { s with tokens := ts ++ s.tokens, count := s.count + ts.length }

def push (t : Token) (s : TokenReader) : TokenReader := s.append [t]

/-- Adds the beginning of a key before the token of a number, and the tokens `starts` before it. If the token has
    been given on, all come last. -/
def insertKey (number : Nat) (starts : List Token) (s : TokenReader) : TokenReader :=
  if number < s.given then s.append (starts ++ [.key])
  else
    let after := s.count - number
    append (s.tokens.take after ++ .key :: starts)
      { s with tokens := s.tokens.drop after, count := s.count - after }

/-- Does not keep a token back any longer. -/
def free (number : Nat) (s : TokenReader) : TokenReader :=
  { s with kept := s.kept.filter (·.1 ≠ number) }

/-- Whether a token is kept back: a key near enough may have begun where it was last possible, as deep in flow
    collections as the token is. -/
def isKept (number : Nat) (s : TokenReader) : Bool :=
  match s.kept.lookup number with
  | none => false
  | some depth =>
    match (s.scope :: s.outerScopes).reverse[depth]? with
    | none => false
    | some scope => scope.keyMark.any (·.isNear s.place)

/-- Gives tokens on, of those that `waiting` counts. -/
def give : (waiting : Nat) → TokenReader → TokenReader
  | 0, s => s
  | waiting + 1, s =>
    if 2 ≤ waiting ∧ !s.isKept s.given then give waiting { s with given := s.given + 1 } else s

/-- Ends block collections, at most those inside `outer`, as long as their entries begin after a column. -/
def endBlocks (column : Int) : (outer : List Int) → TokenReader → TokenReader
  | [], s => s
  | i :: outer, s =>
    if column < s.indent then endBlocks column outer (push .blockEnd { s with indent := i, outerIndents := outer })
    else s

/-- Ends the block collections whose entries begin after a column. -/
def unindent (column : Int) (s : TokenReader) : TokenReader :=
  if s.inFlow then s else endBlocks column s.outerIndents s

/-- How deep block collections may be nested, and flow collections. -/
def depthLimit : Nat := 10000

/-- Begins a block collection at a column if it is the first entry there. -/
def indentTo (column : Nat) (t : Token) (s : TokenReader) : Option (TokenReader × List Token) :=
  if s.inFlow ∨ (column : Int) ≤ s.indent then some (s, [])
  else if depthLimit ≤ s.outerIndents.length then none
  else some ({ s with indent := column, outerIndents := s.indent :: s.outerIndents }, [t])

/-- Gives up the key that may have begun. -/
def dropKey (s : TokenReader) : Option TokenReader :=
  match s.scope.keyMark with
  | some k => if k.required then none else some (free k.number { s with scope.keyMark := none })
  | none => some s

/-- Remembers that a key may begin here. In block content, what begins in the column of the entries has to be a
    key. -/
def markKey (s : TokenReader) : Option TokenReader :=
  if s.keyAllowed then do
    let s ← s.dropKey
    let number := s.count
    let mark : KeyMark := ⟨number, s.place.line, s.place.column, !s.inFlow && s.indent == s.place.column⟩
    some { s with scope := ⟨some mark, number⟩, kept := (number, s.outerScopes.length) :: s.kept }
  else some s

/-! ## Signs -/

/-- Adds the token of a sign of one character. -/
def sign (t : Token) (keyAllowed : Bool) (s : TokenReader) : TokenReader :=
  push t { s with place := s.place.drop 1, keyAllowed, trailing := true }

/-- The end of the text. -/
def finish (s : TokenReader) : Option TokenReader := do
  let s ← (s.unindent (-1)).dropKey
  return push .streamEnd { s with keyAllowed := false, trailing := false }

/-- A line that begins or ends a document. -/
def marker (t : Token) (s : TokenReader) : Option TokenReader := do
  let s ← (s.unindent (-1)).dropKey
  return push t { s with place := s.place.drop 3, keyAllowed := false, trailing := false }

/-- The beginning of a flow collection, which may be a key. -/
def flowStart (t : Token) (s : TokenReader) : Option TokenReader := do
  let s ← s.markKey
  if depthLimit ≤ s.outerScopes.length then none
  return sign t true { s with scope := ⟨none, s.count⟩, outerScopes := s.scope :: s.outerScopes }

/-- The end of a flow collection. It sets the token free that was kept back last in the collection. -/
def flowEnd (t : Token) (s : TokenReader) : Option TokenReader := do
  let s ← s.dropKey
  return sign t false (match s.outerScopes with
    | [] => s
    | scope :: outer => free s.scope.lastKept { s with scope, outerScopes := outer })

def flowEntry (s : TokenReader) : Option TokenReader := do
  return sign .comma true (← s.dropKey)

def blockEntry (s : TokenReader) : Option TokenReader := do
  if !s.inFlow && !s.keyAllowed then none
  let (s, ts) ← s.indentTo s.place.column .sequenceStart
  let s ← dropKey (s.append ts)
  return { sign .dash true s with trailing := false }

/-- A question mark, which begins any key. -/
def explicitKey (s : TokenReader) : Option TokenReader := do
  if !s.inFlow && !s.keyAllowed then none
  let (s, ts) ← s.indentTo s.place.column .mappingStart
  let s ← dropKey (s.append ts)
  return sign .key (!s.inFlow) s

/-- A colon that does not follow a key on its line. -/
def explicitValue (s : TokenReader) : Option TokenReader := do
  if !s.inFlow && !s.keyAllowed then none
  let (s, ts) ← s.indentTo s.place.column .mappingStart
  return sign .colon (!s.inFlow) (s.append ts)

/-- A colon. -/
def value (s : TokenReader) : Option TokenReader :=
  match s.scope.keyMark with
  | none => s.explicitValue
  | some k =>
    if k.isNear s.place then do
      let (s, starts) ← s.indentTo k.column .mappingStart
      return sign .colon false (free k.number { s.insertKey k.number starts with scope.keyMark := none })
    else if k.required then none
    else explicitValue { s with scope.keyMark := none }

/-! ## Scalars -/

/-- Adds the token of a scalar. -/
def scalar (isPlain : Bool) (text : List Char) (place : Cursor) (keyAllowed trailing : Bool) (s : TokenReader) :
    TokenReader :=
  push (.scalar isPlain (String.ofList text)) { s with place, keyAllowed, trailing }

/-- A block of lines. -/
def blockScalar (literal : Bool) (fuel : Nat) (s : TokenReader) : Option TokenReader := do
  let s ← s.dropKey
  let (text, place) ← block literal s.indent fuel (s.place.drop 1)
  return s.scalar false text place true false

def quotedScalar (double : Bool) (fuel : Nat) (s : TokenReader) : Option TokenReader := do
  let s ← s.markKey
  let (text, place) ← quoted double fuel (s.place.drop 1)
  return s.scalar false text place false true

def plainScalar (fuel : Nat) (s : TokenReader) : Option TokenReader := do
  let s ← s.markKey
  let (text, onNewLine, place) ← plain s.inFlow (s.indent + 1) fuel Gap.none s.place
  return s.scalar true text place onNewLine !onNewLine

/-- The signs that a plain scalar cannot begin with. -/
def indicators : List Char := "-?:,[]\x7b\x7d#&*!|>'\"%@".toList ++ [Char.ofNat 0x60]

/-- Whether a plain scalar begins with a character. -/
def beginsPlain (flow : Bool) (x : Char) (rest : List Char) : Bool :=
  !isBlank x && !indicators.contains x || x == '-' && !(rest.head?.any isBlank) ||
    !flow && (x == '?' || x == ':') && !atBreak rest

/-! ## Tokens -/

/-- Reads the token that begins here. -/
def fetchHere (fuel : Nat) (s : TokenReader) : Option TokenReader :=
  match s.place.rest with
  | [] => s.finish
  | x :: rest =>
    if s.place.atMarker '-' then s.marker .documentStart
    else if s.place.atMarker '.' then s.marker .documentEnd
    else if x = '[' then s.flowStart .flowSequenceStart
    else if x = '\x7b' then s.flowStart .flowMappingStart
    else if x = ']' then s.flowEnd .flowSequenceEnd
    else if x = '\x7d' then s.flowEnd .flowMappingEnd
    else if x = ',' then s.flowEntry
    else if x = '-' ∧ atBreak rest then s.blockEntry
    else if x = '?' ∧ (s.inFlow ∨ atBreak rest) then s.explicitKey
    else if x = ':' ∧ (s.inFlow ∨ atBreak rest) then s.value
    else if x = '|' ∧ !s.inFlow then s.blockScalar true fuel
    else if x = '>' ∧ !s.inFlow then s.blockScalar false fuel
    else if x = '\'' then s.quotedScalar false fuel
    else if x = '"' then s.quotedScalar true fuel
    else if beginsPlain s.inFlow x rest then s.plainScalar fuel
    else none

/-- Reads the next token, with those that its column brings about and a comment on its line. -/
def fetch (fuel : Nat) (s : TokenReader) : Option TokenReader := do
  let (place, keyAllowed) ← toToken s.inFlow fuel s.keyAllowed s.place
  let s := unindent place.column { s with place, keyAllowed }
  let s ← fetchHere fuel { s with place := ← place.need? 4 }
  return { s with place := ← if s.trailing then passTrailing fuel s.place else some s.place }

/-- Reads tokens, at most `fuel` times: what has been read at the end of the text or before the first mistake,
    and whether it is the end. -/
def run : (fuel : Nat) → TokenReader → TokenReader × Bool
  | 0, s => (s, false)
  | fuel + 1, s =>
    match s.fetch (fuel + 1) with
    | none => (s, false)
    | some next =>
      if next.tokens.head? = some .streamEnd then (next, true)
      else run fuel (next.give (next.count - next.given))

end TokenReader

/-- The tokens of a text. -/
structure Tokens where
  list : List Token
  /-- Whether they go to the end of the text; otherwise a mistake follows. -/
  complete : Bool
  /-- The number of tokens that have been given on. -/
  given : Nat
  deriving DecidableEq, Repr, Inhabited

/-- Reads the tokens of a text. Every step but the last one takes a character. -/
def readTokens (cs : List Char) : Tokens :=
  let start : TokenReader := { place := Cursor.start cs }
  let (s, complete) := start.run (start.place.rest.length + 1)
  ⟨s.tokens.reverse, complete, s.given⟩

end RegisterCompiler.Yaml
