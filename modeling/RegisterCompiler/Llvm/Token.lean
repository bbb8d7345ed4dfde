import RegisterCompiler.Text.Quoted

/-!
# Tokens of LLVM text

The words of the textual form of LLVM modules, each with the place where it begins. Names are kept without
their sigil and labels without their colon.
-/

namespace RegisterCompiler.Llvm

/-- A place in a source text: lines and columns count from 1, and columns count bytes. -/
structure Pos where
  line : Nat
  column : Nat
  deriving DecidableEq, Repr, Inhabited

def Pos.shown (p : Pos) : String := toString p.line ++ ":" ++ toString p.column

inductive TokenKind where
  | eof
  | illegal
  /-- A local name, as in `%x`. -/
  | localName
  /-- A global name, as in `@main`. -/
  | globalName
  /-- A label, as in `loop:`. -/
  | label
  /-- Metadata, as in `!dbg`. -/
  | metadata
  /-- An attribute group, as in `#0`. -/
  | attrGroup
  | word
  | int
  | string
  | assign | comma | star
  | leftParen | rightParen | leftBrace | rightBrace | leftBracket | rightBracket
  | leftAngle | rightAngle
  | ellipsis
  deriving DecidableEq, Repr, Inhabited

namespace TokenKind

/-- The kinds, in the order of their numbers. -/
def all : List TokenKind :=
  [eof, illegal, localName, globalName, label, metadata, attrGroup, word, int, string, assign, comma, star,
    leftParen, rightParen, leftBrace, rightBrace, leftBracket, rightBracket, leftAngle, rightAngle, ellipsis]

def name : TokenKind → String
  | eof => "EOF"
  | illegal => "ILLEGAL"
  | localName => "LOCAL"
  | globalName => "GLOBAL"
  | label => "LABEL"
  | metadata => "METADATA"
  | attrGroup => "ATTRGROUP"
  | word => "WORD"
  | int => "INT"
  | string => "STRING"
  | assign => "="
  | comma => ","
  | star => "*"
  | leftParen => "("
  | rightParen => ")"
  | leftBrace => "\x7b"
  | rightBrace => "\x7d"
  | leftBracket => "["
  | rightBracket => "]"
  | leftAngle => "<"
  | rightAngle => ">"
  | ellipsis => "..."

/-- The name of the kind of a number. -/
def nameOfCode : Int → String
  | .ofNat n => ((all[n]?).map name).getD "UNKNOWN"
  | .negSucc _ => "UNKNOWN"

end TokenKind

structure Token where
  kind : TokenKind
  literal : String
  pos : Pos
  deriving DecidableEq, Repr, Inhabited

namespace Token

/-- Whether a token is the bare word `w`. -/
def isWord (t : Token) (w : String) : Bool := t.kind == .word && t.literal == w

def describe (t : Token) : String :=
  if t.kind == .eof then "end of file" else t.kind.name ++ " " ++ Text.quoted t.literal

end Token

/-- The tokens of a text, and the place where the text ends. -/
structure TokenStream where
  tokens : List Token
  finish : Pos
  deriving DecidableEq, Repr, Inhabited

/-- The token that stands for the end of a text. -/
def TokenStream.eof (s : TokenStream) : Token := ⟨.eof, "", s.finish⟩

end RegisterCompiler.Llvm
