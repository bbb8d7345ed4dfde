import RegisterCompiler.Yaml.Piece

/-!
# Places in a document

A document is read from left to right, a character at a time. The lines and the columns of what is read count,
as the layout of a document says what belongs together.

Before a function looks at characters, it says how many it needs (`Cursor.need?`), and pieces of the text are read
until they are at hand.
-/

namespace RegisterCompiler.Yaml

/-- Whether a character ends a line. -/
def isBreak (c : Char) : Bool := ['\n', '\r', '\u0085', '\u2028', '\u2029'].contains c

/-- What a line break is in the text of a scalar. -/
def breakText (c : Char) : Char := if c = '\r' ∨ c = '\u0085' then '\n' else c

def isBlank (c : Char) : Bool := c == ' ' || c == '\t'

/-- Whether a text begins with a blank or a line break, or is over. -/
def atBreak : List Char → Bool
  | [] => true
  | c :: _ => isBlank c || isBreak c

def byteOrderMark : Char := '\ufeff'

/-- A place in a text. -/
structure Cursor where
  rest : List Char
  /-- Its line, counted from 0. -/
  line : Nat := 0
  /-- Its column, counted from 0. -/
  column : Nat := 0
  /-- The number of characters that follow it and are at hand. -/
  ahead : Nat := 0
  /-- The pieces after them. -/
  later : List Piece
  /-- Whether a byte order mark stood where a piece was read last. -/
  marked : Bool := false
  deriving DecidableEq, Repr, Inhabited

namespace Cursor

/-- The beginning of a text. A byte order mark there belongs to its first piece, but not to the text. -/
def start (cs : List Char) : Cursor :=
  match cs with
  | [] => { rest := [], later := [] }
  | c :: rest =>
    if c = byteOrderMark then { rest, later := pieces 0 c.utf8Size rest }
    else { rest := cs, later := pieces 0 0 cs }

def head? (c : Cursor) : Option Char := c.rest.head?

/-- A place with a number of characters at hand; none if a piece with them is broken. -/
def need? (count : Nat) (c : Cursor) : Option Cursor :=
  if count ≤ c.ahead then some c
  else do
    let (ahead, later) ← supply? count c.ahead c.later
    return { c with ahead, later, marked := c.head? == some byteOrderMark }

/-- Leaves `n` characters of a line behind. -/
def drop (n : Nat) (c : Cursor) : Cursor :=
  { c with rest := c.rest.drop n, column := c.column + n, ahead := c.ahead - n }

/-- Leaves a line break behind; a carriage return and a line feed are one. -/
def nextLine (c : Cursor) : Cursor :=
  let size := if c.rest.take 2 = ['\r', '\n'] then 2 else 1
  { c with rest := c.rest.drop size, line := c.line + 1, column := 0, ahead := c.ahead - size }

def atBlank (c : Cursor) : Bool := c.head?.any isBlank

def atLineBreak (c : Cursor) : Bool := c.head?.any isBreak

/-- Whether a line begins here with the sign `x` three times, alone. -/
def atMarker (x : Char) (c : Cursor) : Bool :=
  c.column == 0 && c.rest.take 3 == [x, x, x] && atBreak (c.rest.drop 3)

/-- Whether a document begins or ends here. -/
def atDocument (c : Cursor) : Bool := c.atMarker '-' || c.atMarker '.'

/-- Leaves at most `limit` characters of a line behind, as long as they have a property. -/
def passAtMost (p : Char → Bool) : (limit : Nat) → Cursor → Option Cursor
  | 0, c => c.need? 1
  | limit + 1, c => do
    let c ← c.need? 1
    if c.head?.any p then passAtMost p limit (c.drop 1) else return c

/-- Goes on to the end of the line, which is at most `limit` characters away. -/
def toLineEnd (limit : Nat) (c : Cursor) : Option Cursor := c.passAtMost (!isBreak ·) limit

end Cursor

end RegisterCompiler.Yaml
