/-!
# Texts in pieces

A text is read a piece at a time, and a piece is as long as fits `pieceBytes` bytes. A character that no document
may hold is noticed when its piece is read, so that it does no harm far enough behind the end of a document.
-/

namespace RegisterCompiler.Yaml

/-- Whether a text may hold a character: of the control characters, only the tab and the line breaks. -/
def isAllowed (c : Char) : Bool :=
  let n := c.toNat
  n == 0x09 || n == 0x0a || n == 0x0d || n == 0x85 || (0x20 ≤ n && n ≤ 0x7e) || (0xa0 ≤ n && n ≤ 0xfffd) ||
    0x10000 ≤ n

/-- The number of bytes that a piece has at most. -/
def pieceBytes : Nat := 512

/-- A piece of a text. -/
inductive Piece where
  /-- Characters that may be there. -/
  | text (size : Nat)
  /-- A piece with a character that may not be there. -/
  | broken
  deriving DecidableEq, Repr, Inhabited

/-- The pieces of a text, up to a broken one. The first piece has `size` characters and `used` bytes already. -/
def pieces : (size used : Nat) → List Char → List Piece
  | size, _, [] => [.text size]
  | size, used, c :: cs =>
    if used + c.utf8Size ≤ pieceBytes then
      if isAllowed c then pieces (size + 1) (used + c.utf8Size) cs else [.broken]
    else .text size :: if isAllowed c then pieces 1 c.utf8Size cs else [.broken]

/-- Reads pieces until `count` characters are at hand, besides the `ahead` that are: how many there are then, and
    the pieces after them. The end of the text is at hand like a character, once more for every time that it is
    met. -/
def supply? (count : Nat) : (ahead : Nat) → List Piece → Option (Nat × List Piece)
  | ahead, [] => some (ahead + 1, [])
  | _, .broken :: _ => none
  | ahead, .text size :: later =>
    if count ≤ ahead + size then some (ahead + size, later) else supply? count (ahead + size) later

end RegisterCompiler.Yaml
