import RegisterCompiler.Yaml.Token

/-!
# YAML values

The values of YAML documents: scalars, sequences and mappings. A scalar written without quotes may stand for
the absence of a value.

* `Node.read` reads a value from tokens.
* `readDocument` reads the first document of a text.
-/

namespace RegisterCompiler.Yaml

/-- A value of a document. -/
inductive Node where
  /-- A scalar; a plain one is written without quotes. -/
  | scalar (plain : Bool) (text : String)
  | sequence (items : List Node)
  | mapping (entries : List (Node × Node))
  deriving Repr, Inhabited

namespace Node

def null : Node := scalar true ""

def isNull : Node → Bool
  | scalar true text => ["", "~", "null", "Null", "NULL"].contains text
  | _ => false

/-- Whether tokens begin with one of those that leave no room for a value. -/
def isNext (ends : List Token) (ts : List Token) : Bool := ts.head?.any ends.contains

/-- The tokens from the next item of a flow collection on, or from its end. -/
def afterComma (first : Bool) (closing : Token) (ts : List Token) : Option (List Token) :=
  if first ∨ ts.head? = some closing then some ts
  else match ts with
    | .comma :: rest => some rest
    | _ => none

mutual

/-- A value. In block content (`block`) it may be a block collection; as a part of an entry of a block mapping
    (`hanging`) it may be a sequence whose dashes stand in the column of the keys. -/
def read (block hanging : Bool) : (fuel : Nat) → List Token → Option (Node × List Token)
  | 0, _ => none
  | fuel + 1, ts =>
    match ts with
    | .scalar plain text :: rest => some (scalar plain text, rest)
    | .flowSequenceStart :: rest => do
      let (items, rest) ← flowItems true fuel rest
      return (sequence items, rest)
    | .flowMappingStart :: rest => do
      let (entries, rest) ← flowEntries true fuel rest
      return (mapping entries, rest)
    | .sequenceStart :: rest => do
      if !block then none
      let (items, rest) ← blockItems fuel rest
      return (sequence items, rest)
    | .mappingStart :: rest => do
      if !block then none
      let (entries, rest) ← blockEntries fuel rest
      return (mapping entries, rest)
    | .dash :: _ => do
      if !hanging then none
      let (items, rest) ← hangingItems fuel ts
      return (sequence items, rest)
    | _ => none
termination_by fuel => (fuel, 0)

/-- A value, absent if one of the tokens `ends` comes next. -/
def readUnless (ends : List Token) (block hanging : Bool) (fuel : Nat) (ts : List Token) :
    Option (Node × List Token) :=
  if isNext ends ts then some (null, ts) else read block hanging fuel ts
termination_by (fuel, 1)

def blockItems : (fuel : Nat) → List Token → Option (List Node × List Token)
  | 0, _ => none
  | fuel + 1, ts =>
    match ts with
    | .dash :: rest => do
      let (item, rest) ← readUnless [.dash, .blockEnd] true false fuel rest
      let (items, rest) ← blockItems fuel rest
      return (item :: items, rest)
    | .blockEnd :: rest => some ([], rest)
    | _ => none
termination_by fuel => (fuel, 2)

/-- The items of a sequence that hangs from a key. -/
def hangingItems : (fuel : Nat) → List Token → Option (List Node × List Token)
  | 0, _ => none
  | fuel + 1, ts =>
    match ts with
    | .dash :: rest => do
      let (item, rest) ← readUnless [.dash, .key, .colon, .blockEnd] true false fuel rest
      let (items, rest) ← hangingItems fuel rest
      return (item :: items, rest)
    | _ => some ([], ts)
termination_by fuel => (fuel, 2)

def blockEntries : (fuel : Nat) → List Token → Option (List (Node × Node) × List Token)
  | 0, _ => none
  | fuel + 1, ts =>
    match ts with
    | .key :: rest => do
      let ends : List Token := [.key, .colon, .blockEnd]
      let (key, rest) ← readUnless ends true true fuel rest
      let (value, rest) ← match rest with
        | .colon :: rest => readUnless ends true true fuel rest
        | _ => some (null, rest)
      let (entries, rest) ← blockEntries fuel rest
      return ((key, value) :: entries, rest)
    | .blockEnd :: rest => some ([], rest)
    | _ => none
termination_by fuel => (fuel, 2)

/-- The items of a flow sequence; every item but the first follows a comma, and a comma may end them. An item
    may be a mapping with one entry. -/
def flowItems (first : Bool) : (fuel : Nat) → List Token → Option (List Node × List Token)
  | 0, _ => none
  | fuel + 1, ts =>
    match afterComma first .flowSequenceEnd ts with
    | none => none
    | some (.flowSequenceEnd :: rest) => some ([], rest)
    | some (.key :: rest) => do
      let (entry, rest) ← flowPair fuel rest
      let (items, rest) ← flowItems false fuel rest
      return (mapping [entry] :: items, rest)
    | some rest => do
      let (item, rest) ← read false false fuel rest
      let (items, rest) ← flowItems false fuel rest
      return (item :: items, rest)
termination_by fuel => (fuel, 3)

/-- The entry of a mapping that is an item of a flow sequence. A token that leaves no room for the key is
    passed over. -/
def flowPair (fuel : Nat) (ts : List Token) : Option ((Node × Node) × List Token) := do
  let ends : List Token := [.comma, .flowSequenceEnd]
  let (key, rest) ←
    if isNext (.colon :: ends) ts then some (null, ts.tail) else read false false fuel ts
  let (value, rest) ← match rest with
    | .colon :: rest => readUnless ends false false fuel rest
    | _ => some (null, rest)
  return ((key, value), rest)
termination_by (fuel, 2)

/-- The entries of a flow mapping; every entry but the first follows a comma, and a comma may end them. An entry
    may be a key alone. -/
def flowEntries (first : Bool) : (fuel : Nat) → List Token → Option (List (Node × Node) × List Token)
  | 0, _ => none
  | fuel + 1, ts =>
    match afterComma first .flowMappingEnd ts with
    | none => none
    | some (.flowMappingEnd :: rest) => some ([], rest)
    | some (.key :: rest) => do
      let ends : List Token := [.comma, .flowMappingEnd]
      let (key, rest) ← readUnless (.colon :: ends) false false fuel rest
      let (value, rest) ← match rest with
        | .colon :: rest => readUnless ends false false fuel rest
        | _ => some (null, rest)
      let (entries, rest) ← flowEntries false fuel rest
      return ((key, value) :: entries, rest)
    | some rest => do
      let (key, rest) ← read false false fuel rest
      let (entries, rest) ← flowEntries false fuel rest
      return ((key, null) :: entries, rest)
termination_by fuel => (fuel, 3)

end

end Node

/-! ## Documents -/

/-- What a text holds. -/
inductive Document where
  /-- No document. -/
  | empty
  | value (node : Node)
  /-- Something that is no document. -/
  | malformed
  deriving Repr, Inhabited

/-- The value of the first document, and the tokens after it. -/
def readRoot (ts : List Token) : Option (Node × List Token) :=
  let fuel := ts.length + 1
  match ts with
  | .documentStart :: rest =>
    Node.readUnless [.documentStart, .documentEnd, .streamEnd] true false fuel rest
  | _ => Node.read true false fuel ts

/-- Whether the token after a document has been given on, so that the document is known to be over. -/
def isSettled (ts : Tokens) (rest : List Token) : Bool :=
  ts.complete || ts.list.length - rest.length < ts.given

/-- The first document of a text. -/
def readDocument (source : String) : Document :=
  let ts := readTokens source.toList
  if ts.list = [.streamEnd] then .empty
  else match readRoot ts.list with
    | none => .malformed
    | some (node, rest) => if isSettled ts rest then .value node else .malformed

end RegisterCompiler.Yaml
