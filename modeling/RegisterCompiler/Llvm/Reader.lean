import RegisterCompiler.Llvm.Function
import RegisterCompiler.Llvm.Lexer

/-!
# Reading LLVM functions

A text is read from left to right with one token of lookahead. What the compiler has no use for
(declarations, attributes, metadata, alignments) is skipped. A mistake in an instruction is reported and the
rest of its line skipped; a mistake in the head of a function is reported and the function skipped, so that
one reading reports all the mistakes of a text.

* `Reading` is a computation that takes tokens, reports mistakes, and may give up.
* `readFunctions` reads the functions of a text, with the mistakes found on the way.
-/

namespace RegisterCompiler.Llvm

inductive Mistake where
  | expectedKind (kind : TokenKind) (found : Token)
  | expectedWord (word : String) (found : Token)
  | expectedLength (found : Token)
  | unsupportedType (found : Token)
  | integerRange (literal : String)
  | unsupportedOperand (found : Token)
  | expectedName (found : Token)
  | variadic (function : String)
  | expectedInstruction (found : Token)
  | noResult (instruction : String)
  | allocaCount
  | expectedPredicate (found : Token)
  | unsupportedInstruction (instruction : String)
  | indirectCall
  | expectedPredecessor (found : Token)
  | expectedLabel (found : Token)
  deriving DecidableEq, Repr, Inhabited

def Mistake.message : Mistake → String
  | expectedKind kind found => "expected " ++ kind.name ++ ", got " ++ found.describe
  | expectedWord word found => "expected " ++ Text.quoted word ++ ", got " ++ found.describe
  | expectedLength found => "expected array length, got " ++ found.describe
  | unsupportedType found => "unsupported type " ++ found.describe
  | integerRange literal => "integer " ++ literal ++ " out of range"
  | unsupportedOperand found => "unsupported operand " ++ found.describe
  | expectedName found => "expected function name, got " ++ found.describe
  | variadic function => "variadic function @" ++ function ++ " is not supported"
  | expectedInstruction found => "expected instruction, got " ++ found.describe
  | noResult instruction => instruction ++ " without a result name"
  | allocaCount => "alloca count must be a constant"
  | expectedPredicate found => "expected icmp predicate, got " ++ found.describe
  | unsupportedInstruction instruction => "unsupported instruction " ++ instruction
  | indirectCall => "indirect calls are not supported"
  | expectedPredecessor found => "expected predecessor label, got " ++ found.describe
  | expectedLabel found => "expected label, got " ++ found.describe

/-- A mistake at a place. -/
abbrev ReadError := Diagnostic Mistake

/-- A reading in progress: the tokens that are left, the mistakes so far, and the next number to name a
    parameter or block that has no name. -/
structure Cursor where
  file : String
  stream : TokenStream
  errors : List ReadError
  unnamed : Int64
  deriving Repr, Inhabited

/-- A computation on a reading in progress. One that gives up keeps the tokens taken and the mistakes
    reported. -/
abbrev Reading := OptionT (StateM Cursor)

def remaining : Reading (List Token) := do return (← get).stream.tokens

/-- Leaves some tokens behind. -/
def skipTo (skip : List Token → List Token) : Reading Unit :=
  modify fun c => { c with stream.tokens := skip c.stream.tokens }

def current : Reading Token := do
  let stream := (← get).stream
  return stream.tokens.head?.getD stream.eof

def peek : Reading Token := do
  let stream := (← get).stream
  return stream.tokens.tail.head?.getD stream.eof

def next : Reading Unit := skipTo List.tail

/-- Reports a mistake at a token and gives up. -/
def reject {α : Type} (found : Token) (mistake : Mistake) : Reading α := do
  modify fun c => { c with errors := c.errors ++ [⟨c.file, found.pos, mistake⟩] }
  failure

/-- Runs a reading that may give up. -/
def attempt {α : Type} (r : Reading α) : Reading (Option α) := OptionT.mk (some <$> r.run)

/-- Rounds of a loop that takes at least one token each, at most `bound` of them. -/
def rounds {α : Type} (round : Reading (Option α)) : (bound : Nat) → Reading (List α)
  | 0 => return []
  | bound + 1 => do
    match ← round with
    | none => return []
    | some a => return a :: (← rounds round bound)

/-- Rounds of a loop until one has nothing to read. Every other round takes a token. -/
def many {α : Type} (round : Reading (Option α)) : Reading (List α) := do
  rounds round ((← remaining).length + 1)

def expect (kind : TokenKind) : Reading Unit := do
  let found ← current
  if found.kind = kind then next else reject found (.expectedKind kind found)

def expectWord (word : String) : Reading Unit := do
  let found ← current
  if found.isWord word then next else reject found (.expectedWord word found)

/-- Leaves the tokens of a line behind. -/
def skipLine (line : Nat) : Reading Unit := skipTo (·.dropWhile (·.pos.line == line))

/-- One more item after a comma, unless the closing token stands there. -/
def nextItem {α : Type} (closing : Token → Bool) (item : Reading α) : Reading (Option α) := do
  if (← current).kind ≠ .comma then return none
  next
  if closing (← current) then return none
  return some (← item)

/-- Items between commas up to a closing token, which may follow a comma. -/
def separated {α : Type} (closing : Token → Bool) (item : Reading α) : Reading (List α) := do
  if closing (← current) then return []
  let first ← item
  return first :: (← many (nextItem closing item))

/-! ## Types and operands -/

def intBits? (word : String) : Option Int64 :=
  match word.toList with
  | 'i' :: digits =>
    match Text.readSigned (String.ofList digits) with
    | .ok bits => if 0 < bits then some bits else none
    | .error _ => none
  | _ => none

/-- The type that a word names. -/
def namedType? (t : Token) : Option Ty :=
  if t.kind ≠ .word then none
  else match t.literal with
    | "void" => some .void
    | "ptr" => some .ptr
    | "label" => some .label
    | word => (intBits? word).map .int

/-- Whether a type can begin with a token. -/
def isTypeStart (t : Token) : Bool := t.kind == .leftBracket || (namedType? t).isSome

/-- The beginning of an array type, up to its element type: its length. -/
def readArrayHead : Reading (Option Int64) := do
  if (← current).kind ≠ .leftBracket then return none
  next
  let found ← current
  if found.kind ≠ .int then reject found (.expectedLength found)
  next
  expectWord "x"
  return some (Text.readClamped found.literal)

def readType : Reading Ty := do
  let lengths ← many readArrayHead
  let found ← current
  match namedType? found with
  | none => reject found (.unsupportedType found)
  | some base =>
    next
    lengths.forM fun _ => expect .rightBracket
    return lengths.foldr Ty.array base

/-- The constant that a word stands for. -/
def constWord? : String → Option Int64
  | "true" => some 1
  | "false" | "null" | "undef" | "poison" | "zeroinitializer" => some 0
  | _ => none

/-- The word of an integer constant; an unsigned one that has no signed form counts by its bits. -/
def intConstant? (literal : String) : Option Int64 :=
  match Text.readSigned literal with
  | .ok v => some v
  | .error _ => (Text.readUnsigned literal).toOption.map (·.toInt64)

def readValue : Reading Value := do
  let found ← current
  match found.kind with
  | .localName => next; return .localName found.literal
  | .globalName => next; return .globalName found.literal
  | .int =>
    next
    match intConstant? found.literal with
    | some v => return .const v
    | none => reject found (.integerRange found.literal)
  | .word =>
    match constWord? found.literal with
    | some v => next; return .const v
    | none => reject found (.unsupportedOperand found)
  | _ => reject found (.unsupportedOperand found)

def readTypedValue : Reading TypedValue := do
  let type ← readType
  return ⟨type, ← readValue⟩

/-! ## What is skipped -/

/-- Leaves a group in parentheses behind, `depth` of which are open. -/
def skipGroup : (depth : Nat) → List Token → List Token
  | _, [] => []
  | depth, t :: rest =>
    let depth := match t.kind with
      | .leftParen => depth + 1
      | .rightParen => depth - 1
      | _ => depth
    if depth = 0 then rest else skipGroup depth rest

/-- Leaves an attribute behind, such as `noundef`, `align 4`, `dereferenceable(8)` or `#0`. -/
def skipAttribute : Reading (Option Unit) := do
  let found ← current
  if found.kind = .attrGroup then
    next
    return some ()
  if found.kind ≠ .word ∨ isTypeStart found ∨ (constWord? found.literal).isSome then return none
  next
  let after ← current
  if after.kind = .leftParen then skipTo (skipGroup 0)
  else if found.literal = "align" ∧ after.kind = .int then next
  return some ()

/-- Leaves the attributes of a parameter or a result behind. -/
def skipAttributes : Reading Unit := do
  let _ ← many skipAttribute

/-- The words that may follow the name of an instruction without changing what well-defined programs
    compute. -/
def flagWords : List String :=
  ["nsw", "nuw", "exact", "disjoint", "nneg", "samesign", "inbounds", "nusw", "volatile"]

def skipFlags : Reading Unit :=
  skipTo (·.dropWhile fun t => t.kind == .word && flagWords.contains t.literal)

/-! ## Instructions -/

def readPair : Reading (Ty × Value × Value) := do
  let type ← readType
  let x ← readValue
  expect .comma
  return (type, x, ← readValue)

/-- Reads what a pointer operand begins with, and the operand. -/
def readPointer : Reading Value := do
  expect .comma
  expectWord "ptr"
  readValue

def readAlloca (result : String) : Reading Action := do
  let type ← readType
  if (← current).kind ≠ .comma ∨ !isTypeStart (← peek) then return .alloca result type 1
  next
  let _ ← readType
  let found ← current
  if found.kind ≠ .int then reject found .allocaCount
  next
  return .alloca result type (Text.readClamped found.literal)

/-- Reads an index of an address computation, if there is one more. -/
def readIndex : Reading (Option TypedValue) := do
  if (← current).kind ≠ .comma ∨ !isTypeStart (← peek) then return none
  next
  skipFlags
  return some (← readTypedValue)

def readGep (result : String) : Reading Action := do
  let element ← readType
  let base ← readPointer
  let indices ← many readIndex
  return .gep result element base indices

def readArg : Reading TypedValue := do
  let type ← readType
  skipAttributes
  return ⟨type, ← readValue⟩

def readCall (result : String) : Reading Action := do
  skipAttributes
  let type ← readType
  -- the type of a variadic callee is written out before its name
  if (← current).kind = .leftParen then skipTo (skipGroup 0)
  let callee ← current
  if callee.kind ≠ .globalName then reject callee .indirectCall
  next
  expect .leftParen
  let args ← separated (fun t => t.kind == .rightParen || t.kind == .eof) readArg
  expect .rightParen
  return .call result type callee.literal args

def readIncoming : Reading Incoming := do
  expect .leftBracket
  let value ← readValue
  expect .comma
  let found ← current
  if found.kind ≠ .localName then reject found (.expectedPredecessor found)
  next
  expect .rightBracket
  return ⟨value, found.literal⟩

def readFurther : Reading (Option Incoming) := do
  if (← current).kind ≠ .comma ∨ (← peek).kind ≠ .leftBracket then return none
  next
  return some (← readIncoming)

def readPhi (result : String) : Reading Action := do
  let type ← readType
  let first ← readIncoming
  let others ← many readFurther
  return .phi result type (first :: others)

def readTarget : Reading String := do
  expectWord "label"
  let found ← current
  if found.kind ≠ .localName then reject found (.expectedLabel found)
  next
  return found.literal

/-- Reads the targets of a branch, after its condition if it has one. -/
def readBranch : Reading Action := do
  if (← current).isWord "label" then return .br (← readTarget)
  expectWord "i1"
  let condition ← readValue
  expect .comma
  let thenTarget ← readTarget
  expect .comma
  return .condBr condition thenTarget (← readTarget)

/-- Reads what follows the name of an instruction. -/
def readAction (op : Token) (result : String) : Reading Action := do
  let needResult : Reading Unit :=
    if result = "" then reject op (.noResult op.literal) else return ()
  match op.literal with
  | "alloca" => needResult; readAlloca result
  | "load" =>
    needResult
    let type ← readType
    return .load result type (← readPointer)
  | "store" =>
    let value ← readTypedValue
    return .store value.type value.value (← readPointer)
  | "icmp" =>
    needResult
    skipFlags
    let predicate ← current
    if predicate.kind ≠ .word then reject predicate (.expectedPredicate predicate)
    next
    let (type, x, y) ← readPair
    return .icmp result predicate.literal type x y
  | "getelementptr" => needResult; readGep result
  | "call" => readCall result
  | "phi" => needResult; readPhi result
  | "br" => readBranch
  | "ret" =>
    let type ← readType
    if type = .void then return .ret none
    return .ret (some ⟨type, ← readValue⟩)
  | word =>
    if let some binop := BinOp.ofName? word then
      needResult
      let (type, x, y) ← readPair
      return .binop result binop type x y
    if let some cast := CastOp.ofName? word then
      needResult
      let source ← readType
      let value ← readValue
      expectWord "to"
      return .cast result cast source value (← readType)
    reject op (.unsupportedInstruction word)

def readInstr : Reading Instr := do
  let start ← current
  let mut result := ""
  if start.kind = .localName ∧ (← peek).kind = .assign then
    result := start.literal
    next
    next
  let mut op ← current
  if op.kind ≠ .word then reject op (.expectedInstruction op)
  if ["tail", "musttail", "notail"].contains op.literal then
    next
    op ← current
  next
  skipFlags
  return ⟨start.pos, ← readAction op result⟩

/-! ## Functions -/

/-- The next number, as a name for a parameter or block that has none. -/
def implicitName : Reading String := do
  let n := (← get).unnamed
  modify fun c => { c with unnamed := n + 1 }
  return Text.decimal n

/-- Reads the name of a parameter, after its attributes. Numbers that a parameter takes for its name are not handed
    out again. -/
def readParamName : Reading String := do
  skipAttributes
  let name ← current
  if name.kind ≠ .localName then return ← implicitName
  if let .ok n := Text.readSigned name.literal then
    modify fun c => if c.unnamed ≤ n then { c with unnamed := n + 1 } else c
  next
  return name.literal

def readParam (function : String) : Reading Param := do
  let found ← current
  if found.kind = .ellipsis then reject found (.variadic function)
  let type ← readType
  return ⟨type, ← readParamName⟩

def readHead : Reading (String × Ty × List Param) := do
  skipAttributes
  let result ← readType
  let name ← current
  if name.kind ≠ .globalName then reject name (.expectedName name)
  next
  expect .leftParen
  let params ← separated (·.kind == .rightParen) (readParam name.literal)
  expect .rightParen
  return (name.literal, result, params)

/-- Whether the instructions of a block end at a token. -/
def endsBlock (t : Token) : Bool :=
  t.kind == .label || t.kind == .rightBrace || t.kind == .eof

/-- Reads an instruction, or skips its line. -/
def readLine : Reading (Option (Option Instr)) := do
  let start ← current
  if endsBlock start then return none
  let instr ← attempt readInstr
  skipLine start.pos.line
  return some instr

/-- Reads a block. The first one may have no label. -/
def readBlock : Reading (Option Block) := do
  let start ← current
  if start.kind = .rightBrace ∨ start.kind = .eof then return none
  let mut label := start.literal
  if start.kind = .label then next else label ← implicitName
  let instrs ← many readLine
  return some ⟨start.pos, label, instrs.filterMap id⟩

def readFunction : Reading Function := do
  let start ← current
  modify fun c => { c with unnamed := 0 }
  next
  match ← attempt readHead with
  | none =>
    skipTo (·.dropWhile (·.kind != .rightBrace))
    next
    failure
  | some (name, result, params) =>
    skipTo (·.dropWhile (·.kind != .leftBrace))
    expect .leftBrace
    let blocks ← many readBlock
    expect .rightBrace
    return ⟨start.pos, name, result, params, blocks⟩

/-- Reads a function, or skips a line. -/
def readTopLevel : Reading (Option (Option Function)) := do
  let start ← current
  if start.kind = .eof then return none
  if start.isWord "define" then return some (← attempt readFunction)
  skipLine start.pos.line
  return some none

/-- The functions of a text, and the mistakes in it. -/
def readFunctions (file source : String) : List Function × List ReadError :=
  let (functions, c) := (many readTopLevel).run ⟨file, scan source, [], 0⟩
  ((functions.getD []).filterMap id, c.errors)

end RegisterCompiler.Llvm
