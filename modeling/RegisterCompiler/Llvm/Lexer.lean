import RegisterCompiler.Llvm.Token

/-!
# Reading tokens

LLVM text is read byte by byte. Blanks and comments, which run from a semicolon to the end of the line,
separate tokens; a zero byte ends the text.

* `lexeme` says which token begins at a byte that is no blank, and how many bytes it takes.
* `nextToken` takes a token from a text.
* `scan` lists the tokens of a text.
-/

namespace RegisterCompiler.Llvm

def Pos.after (p : Pos) (b : UInt8) : Pos :=
  if b = '\n'.toUInt8 then ⟨p.line + 1, 1⟩ else ⟨p.line, p.column + 1⟩

/-- Leaves `n` bytes behind. Beyond the end of the text the place still moves on. -/
def advance : Nat → List UInt8 → Pos → List UInt8 × Pos
  | 0, bytes, p => (bytes, p)
  | n + 1, [], p => advance n [] (p.after 0)
  | n + 1, b :: bytes, p => advance n bytes (p.after b)

def isDigitByte (b : UInt8) : Bool := '0'.toUInt8 ≤ b && b ≤ '9'.toUInt8

/-- The bytes of names: letters, digits, `-`, `$`, `.` and `_`. -/
def isNameByte (b : UInt8) : Bool :=
  ('a'.toUInt8 ≤ b && b ≤ 'z'.toUInt8) || ('A'.toUInt8 ≤ b && b ≤ 'Z'.toUInt8) || isDigitByte b ||
    b == '-'.toUInt8 || b == '$'.toUInt8 || b == '.'.toUInt8 || b == '_'.toUInt8

def isSpaceByte (b : UInt8) : Bool :=
  b == ' '.toUInt8 || b == '\t'.toUInt8 || b == '\n'.toUInt8 || b == '\r'.toUInt8

/-- Leaves the blanks and comments before a token behind; `comment` says whether the text begins inside a
    comment. -/
def skipBlanks : (comment : Bool) → List UInt8 → Pos → List UInt8 × Pos
  | _, [], p => ([], p)
  | false, b :: bytes, p =>
    if isSpaceByte b then skipBlanks false bytes (p.after b)
    else if b = ';'.toUInt8 then skipBlanks true bytes (p.after b)
    else (b :: bytes, p)
  | true, b :: bytes, p =>
    if b = 0 then (b :: bytes, p)
    else skipBlanks (b ≠ '\n'.toUInt8) bytes (p.after b)

/-- Bytes as text, one character a byte. -/
def latin (bytes : List UInt8) : String :=
  String.ofList (bytes.map fun b => Char.ofNat b.toNat)

/-- The text that bytes encode; bytes that encode none are taken one by one. -/
def decoded (bytes : List UInt8) : String :=
  (String.fromUTF8? ⟨bytes.toArray⟩).getD (latin bytes)

/-- The bytes of a quoted text up to its closing quote. -/
def stringBytes (bytes : List UInt8) : List UInt8 :=
  bytes.takeWhile fun b => b != '"'.toUInt8 && b != 0

/-- A token without its place, and the number of bytes it takes. -/
structure Lexeme where
  kind : TokenKind
  literal : String
  size : Nat
  deriving DecidableEq, Repr, Inhabited

/-- The kind of name that a sigil begins. -/
def sigilKind (b : UInt8) : TokenKind :=
  if b = '%'.toUInt8 then .localName
  else if b = '@'.toUInt8 then .globalName
  else if b = '!'.toUInt8 then .metadata
  else .attrGroup

/-- The token that begins with a sigil: a name, bare or quoted. A sigil without a name is illegal, except
    before the braces of a metadata tuple. -/
def sigilLexeme (sigil : UInt8) (bytes : List UInt8) : Lexeme :=
  match bytes with
  | b :: rest =>
    if sigil = '!'.toUInt8 ∧ b = '\x7b'.toUInt8 then ⟨.metadata, "", 1⟩
    else if b = '"'.toUInt8 then
      let name := stringBytes rest
      if name.isEmpty then ⟨.illegal, latin [sigil], 3⟩
      else ⟨sigilKind sigil, decoded name, name.length + 3⟩
    else
      let name := bytes.takeWhile isNameByte
      if name.isEmpty then ⟨.illegal, latin [sigil], 1⟩
      else ⟨sigilKind sigil, latin name, name.length + 1⟩
  | [] => ⟨.illegal, latin [sigil], 1⟩

/-- The token that begins with a byte of a name: a number, a label or a word. A minus sign before a digit
    begins a number; all other names run as far as they can. -/
def nameLexeme (b : UInt8) (bytes : List UInt8) : Lexeme :=
  if b = '-'.toUInt8 ∧ bytes.head?.any isDigitByte then
    let digits := bytes.takeWhile isDigitByte
    ⟨.int, latin (b :: digits), digits.length + 1⟩
  else
    let name := b :: bytes.takeWhile isNameByte
    if (bytes.drop (name.length - 1)).head? = some ':'.toUInt8 then ⟨.label, latin name, name.length + 1⟩
    else ⟨if name.all isDigitByte then .int else .word, latin name, name.length⟩

/-- The delimiters of one byte. -/
def delimiter? (b : UInt8) : Option TokenKind :=
  if b = '='.toUInt8 then some .assign
  else if b = ','.toUInt8 then some .comma
  else if b = '*'.toUInt8 then some .star
  else if b = '('.toUInt8 then some .leftParen
  else if b = ')'.toUInt8 then some .rightParen
  else if b = '\x7b'.toUInt8 then some .leftBrace
  else if b = '\x7d'.toUInt8 then some .rightBrace
  else if b = '['.toUInt8 then some .leftBracket
  else if b = ']'.toUInt8 then some .rightBracket
  else if b = '<'.toUInt8 then some .leftAngle
  else if b = '>'.toUInt8 then some .rightAngle
  else none

/-- The bytes that begin a name with a sigil. -/
def isSigil (b : UInt8) : Bool :=
  b == '%'.toUInt8 || b == '@'.toUInt8 || b == '!'.toUInt8 || b == '#'.toUInt8

/-- The token that begins with the byte `b` and goes on with `bytes`. -/
def lexeme (b : UInt8) (bytes : List UInt8) : Lexeme :=
  match delimiter? b with
  | some kind => ⟨kind, kind.name, 1⟩
  | none =>
    if b = '"'.toUInt8 then
      let text := stringBytes bytes
      ⟨.string, decoded text, text.length + 2⟩
    else if isSigil b then sigilLexeme b bytes
    else if b = '.'.toUInt8 ∧ bytes.head? = some '.'.toUInt8 then
      if bytes.tail.head? = some '.'.toUInt8 then ⟨.ellipsis, "...", 3⟩ else ⟨.illegal, "..", 2⟩
    else if isNameByte b then nameLexeme b bytes
    else ⟨.illegal, latin [b], 1⟩

/-- Takes the next token from the bytes that are left of a text and begin at `p`: the token, and what is left then. At the
    end of the text nothing is taken any more. -/
def nextToken (bytes : List UInt8) (p : Pos) : Token × List UInt8 × Pos :=
  match skipBlanks false bytes p with
  | ([], p) => (⟨.eof, "", p⟩, [], p)
  | (b :: bytes, p) =>
    if b = 0 then (⟨.eof, "", p⟩, b :: bytes, p)
    else
      let l := lexeme b bytes
      (⟨l.kind, l.literal, p⟩, advance l.size (b :: bytes) p)

/-- The tokens of `bytes`, which begin at `p`. Every token takes a byte, so `fuel` need not exceed the number
    of bytes. -/
def scanFrom : (fuel : Nat) → List UInt8 → Pos → TokenStream
  | 0, _, p => ⟨[], p⟩
  | fuel + 1, bytes, p =>
    let (t, rest, next) := nextToken bytes p
    if t.kind = .eof then ⟨[], t.pos⟩
    else
      let stream := scanFrom fuel rest next
      { stream with tokens := t :: stream.tokens }

def scan (source : String) : TokenStream :=
  let bytes := source.toUTF8.toList
  scanFrom (bytes.length + 1) bytes ⟨1, 1⟩

end RegisterCompiler.Llvm
