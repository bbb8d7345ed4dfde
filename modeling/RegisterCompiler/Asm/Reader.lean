import RegisterCompiler.Asm.Basic
import RegisterCompiler.Text.Blank

/-!
# Reading assembly

Assembly text becomes a listing, line by line. A semicolon starts a comment, a line that starts with a dot is a
directive, and a line without blanks that ends with a colon is a label. Everything else is an instruction: a
mnemonic, which ends at the first tab or at a space before it, and operands between commas. A comma between
brackets belongs to its operand.

* `readLine` reads one instruction.
* `read` reads a text.
-/

namespace RegisterCompiler.Asm

inductive LineError where
  | missingOperand
  | unexpectedOperand (s : String)
  | unknownRegister (s : String)
  | notImmediate (s : String)
  /-- The digits of a constant are no number. -/
  | badNumber (s : String) (e : Text.DecimalError)
  | notMemory (s : String)
  | badScale (s : String)
  | badComponent (s : String)
  | badWidth (s : String)
  | badMnemonic (s : String)
  | unknownCondition (s : String)
  | unknownMnemonic (s : String)
  deriving DecidableEq, Repr, Inhabited

def LineError.message : LineError → String
  | missingOperand => "missing operand"
  | unexpectedOperand s => "unexpected operand " ++ Text.quoted s
  | unknownRegister s => Reg.unknownMessage s
  | notImmediate s => "expected immediate, got " ++ Text.quoted s
  | badNumber s e => e.message s
  | notMemory s => "expected memory operand, got " ++ Text.quoted s
  | badScale s => "bad scale " ++ Text.quoted s
  | badComponent s => "bad memory operand component " ++ Text.quoted s
  | badWidth s => "bad width " ++ Text.quoted s
  | badMnemonic s => "bad mnemonic " ++ Text.quoted s
  | unknownCondition s => "unknown condition " ++ Text.quoted s
  | unknownMnemonic s => "unknown mnemonic " ++ Text.quoted s

inductive ReadError where
  | line (number : Nat) (e : LineError)
  /-- A line has more bytes than are looked at. -/
  | tooLong
  deriving DecidableEq, Repr, Inhabited

def ReadError.message : ReadError → String
  | line n e => "line " ++ toString n ++ ": " ++ e.message
  | tooLong => "bufio.Scanner: token too long"

/-- The characters before the first `c`, and those after it if there is one. -/
def cut (c : Char) (cs : List Char) : List Char × Option (List Char) :=
  match cs.dropWhile (· ≠ c) with
  | [] => (cs, none)
  | _ :: rest => (cs.takeWhile (· ≠ c), some rest)

/-- The pieces of a text between the occurrences of `c`. -/
def splitAt (c : Char) : List Char → List (List Char)
  | [] => [[]]
  | d :: ds =>
    if d = c then [] :: splitAt c ds
    else match splitAt c ds with
      | [] => [[d]]
      | piece :: pieces => (d :: piece) :: pieces

/-- The pieces of a text between its outermost commas, where `depth` brackets are open before it. -/
def splitOuter : (depth : Int) → List Char → List (List Char)
  | _, [] => [[]]
  | depth, d :: ds =>
    if d = ',' ∧ depth = 0 then [] :: splitOuter depth ds
    else
      let depth := if d = '[' then depth + 1 else if d = ']' then depth - 1 else depth
      match splitOuter depth ds with
      | [] => [[d]]
      | piece :: pieces => (d :: piece) :: pieces

/-- The operands of a line, without the blanks around them. No text at all is no operand. -/
def splitOperands (cs : List Char) : List (List Char) :=
  match (splitOuter 0 cs).map Text.trimChars with
  | [[]] => []
  | pieces => pieces

def readReg (cs : List Char) : Except LineError Reg :=
  match Reg.ofName? (String.ofList cs) with
  | some r => .ok r
  | none => .error (.unknownRegister (String.ofList cs))

def readImm : List Char → Except LineError Int64
  | '#' :: digits =>
    (Text.readSigned (String.ofList digits)).mapError (.badNumber (String.ofList digits))
  | cs => .error (.notImmediate (String.ofList cs))

/-- One more component of a memory operand. A component of a kind takes the place of an earlier one. -/
def Addr.addComponent (a : Addr) (cs : List Char) : Except LineError Addr := do
  if cs.head? = some '#' then
    pure { a with offset := ← readImm cs }
  else match cut '*' cs with
    | (reg, some scale) =>
      let reg ← readReg reg
      let scale ← (Text.readSigned (String.ofList scale)).mapError
        fun _ => .badScale (String.ofList scale)
      pure { a with index := some ⟨reg, scale⟩ }
    | (_, none) => throw (.badComponent (String.ofList cs))

/-- What stands between the brackets of a memory operand. -/
def bracketed? : List Char → Option (List Char)
  | '[' :: cs => if cs.getLast? = some ']' then some cs.dropLast else none
  | _ => none

def readAddr (cs : List Char) : Except LineError Addr :=
  match bracketed? cs with
  | none => .error (.notMemory (String.ofList cs))
  | some inner =>
    match (splitAt ',' inner).map Text.trimChars with
    | [] => .error (.unknownRegister "")
    | base :: components => do
      let base ← readReg base
      components.foldlM Addr.addComponent { base }

/-- Reading the operands of a line from the left. -/
abbrev OperandReader := StateT (List (List Char)) (Except LineError)

namespace OperandReader

def next : OperandReader (List Char) := do
  match ← get with
  | [] => throw .missingOperand
  | o :: rest =>
    set rest
    pure o

def reg : OperandReader Reg := do readReg (← next)

def imm : OperandReader Int64 := do readImm (← next)

def addr : OperandReader Addr := do readAddr (← next)

def label : OperandReader Label := do pure (String.ofList (← next))

def atImm : OperandReader Bool := do
  match ← get with
  | ('#' :: _) :: _ => pure true
  | _ => pure false

/-- Two registers and then a third one or a constant. -/
def binary (ofReg : Reg → Reg → Reg → Instr) (ofImm : Reg → Reg → Int64 → Instr) : OperandReader Instr := do
  let dest ← reg
  let x ← reg
  if ← atImm then pure (ofImm dest x (← imm)) else pure (ofReg dest x (← reg))

end OperandReader

/-- A width by its number of bits, of which the last eight binary digits count. -/
def readWidth (cs : List Char) : Except LineError Width :=
  match Text.readSigned (String.ofList cs) with
  | .error _ => .error (.badWidth (String.ofList cs))
  | .ok n =>
    let w : Width := ⟨n.toUInt64.toUInt8⟩
    if w.isValid then .ok w else .error (.badWidth (String.ofList cs))

open OperandReader in
/-- How to read the operands after a mnemonic. -/
def readMnemonic (mnemonic : List Char) : Except LineError (OperandReader Instr) :=
  let parts := splitAt '.' mnemonic
  let name := String.ofList (parts.headD [])
  match name, parts with
  | "lea", _ => .ok (return .lea (← reg) (← addr))
  | "push", _ => .ok (return .push (← reg))
  | "pop", _ => .ok (return .pop (← reg))
  | "jmp", _ => .ok (return .jump (← label))
  | "jmp0", _ => .ok (return .jumpZero (← reg) (← label))
  | "jnz", _ => .ok (return .jumpNonzero (← reg) (← label))
  | "call", _ => .ok (return .call (← label))
  | "ret", _ => .ok (return .ret)
  | "halt", _ => .ok (return .halt)
  | "cmp", [_, cond, w] =>
    match Cond.ofName? (String.ofList cond) with
    | none => .error (.unknownCondition (String.ofList cond))
    | some c => (readWidth w).map fun w => binary (.cmp c w) (.cmpImm c w)
  | "cmp", _ => .error (.badMnemonic (String.ofList mnemonic))
  | name, [_, w] => do
    let w ← readWidth w
    match name with
    | "mov" => pure (return .mov w (← reg) (← reg))
    | "movi" => pure (return .movImm w (← reg) (← imm))
    | "sext" => pure (return .sext w (← reg) (← reg))
    | "zext" => pure (return .zext w (← reg) (← reg))
    | "ld" => pure (return .load w (← reg) (← addr))
    | "st" => pure (return .store w (← reg) (← addr))
    | name =>
      match BinOp.ofName? name with
      | some op => pure (binary (.alu op w) (.aluImm op w))
      | none => throw (.unknownMnemonic (String.ofList mnemonic))
  | _, _ => .error (.unknownMnemonic (String.ofList mnemonic))

/-- The mnemonic of a line and the text of its operands. The mnemonic ends at the first tab, or at the first
    space before it; a tab after such a space disappears. -/
def splitMnemonic (cs : List Char) : List Char × List Char :=
  let (head, tail) := cut '\t' cs
  let tail := tail.getD []
  match cut ' ' head with
  | (mnemonic, some first) => (mnemonic, first ++ tail)
  | (mnemonic, none) => (mnemonic, tail)

def readLine (cs : List Char) : Except LineError Instr := do
  let (mnemonic, rest) := splitMnemonic cs
  let (i, left) ← (← readMnemonic mnemonic).run (splitOperands rest)
  match left with
  | [] => pure i
  | o :: _ => throw (.unexpectedOperand (String.ofList o))

/-- Whether a line holds no blank and ends with a colon. -/
def isLabelLine (cs : List Char) : Bool :=
  cs.getLast? == some ':' && cs.all fun c => c != ' ' && c != '\t'

/-- What stands in a line, if it is anything but a comment or a directive. -/
def readText (cs : List Char) : Except LineError (Option Instr) :=
  let cs := Text.trimChars (cut ';' cs).1
  if cs.isEmpty then .ok none
  else if isLabelLine cs then .ok (some (.label (String.ofList cs.dropLast)))
  else if cs.head? = some '.' then .ok none
  else (readLine cs).map some

/-- The bytes that a line may have, and one more. -/
def lineLimit : Nat := 65536

def readLines : Nat → List (List Char) → Except ReadError (List Instr)
  | _, [] => .ok []
  | n, cs :: rest => do
    if lineLimit ≤ (String.ofList cs).utf8ByteSize then throw .tooLong
    let cs := if cs.getLast? = some '\r' then cs.dropLast else cs
    let found ← (readText cs).mapError (ReadError.line n)
    let others ← readLines (n + 1) rest
    pure (found.toList ++ others)

/-- The lines of a text. A line break at the end starts no line. -/
def lines (s : String) : List (List Char) :=
  let pieces := splitAt '\n' s.toList
  if pieces.getLast? = some [] then pieces.dropLast else pieces

def read (s : String) : Except ReadError (List Instr) := readLines 1 (lines s)

end RegisterCompiler.Asm
