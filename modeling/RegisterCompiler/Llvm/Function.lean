import RegisterCompiler.Scalar
import RegisterCompiler.Llvm.Token
import RegisterCompiler.Text.Decimal

/-!
# LLVM functions

The part of LLVM that the compiler reads: integer functions over local values, with their frame variables,
calls and branches. Global variables, declarations, attributes and metadata are not represented.
-/

namespace RegisterCompiler.Llvm

inductive Ty where
  | void
  | int (bits : Int64)
  | ptr
  | array (length : Int64) (element : Ty)
  | label
  deriving DecidableEq, Repr, Inhabited

namespace Ty

def shown : Ty → String
  | void => "void"
  | int bits => "i" ++ Text.decimal bits
  | ptr => "ptr"
  | array length element => "[" ++ Text.decimal length ++ " x " ++ element.shown ++ "]"
  | label => "label"

/-- The bytes that a value of a type takes in memory, as a word. -/
def size : Ty → Int64
  | void | label => 0
  | int bits => (bits + 7) / 8
  | ptr => 8
  | array length element => length * element.size

/-- The type of truth values. -/
def bool : Ty := int 1

end Ty

/-- An operand as it is written. -/
inductive Value where
  | localName (name : String)
  | globalName (name : String)
  | const (v : Int64)
  deriving DecidableEq, Repr, Inhabited

def Value.shown : Value → String
  | localName name => "%" ++ name
  | globalName name => "@" ++ name
  | const v => Text.decimal v

structure TypedValue where
  type : Ty
  value : Value
  deriving DecidableEq, Repr, Inhabited

/-- A value that a phi takes when control comes from the block `pred`. -/
structure Incoming where
  value : Value
  pred : String
  deriving DecidableEq, Repr, Inhabited

/-- What an instruction does. Results are named without their sigil; a call without a result has the empty
    name. -/
inductive Action where
  /-- Reserves `count` values of a type in the frame. -/
  | alloca (result : String) (type : Ty) (count : Int64)
  | load (result : String) (type : Ty) (pointer : Value)
  | store (type : Ty) (value pointer : Value)
  | binop (result : String) (op : BinOp) (type : Ty) (x y : Value)
  | icmp (result predicate : String) (type : Ty) (x y : Value)
  | cast (result : String) (op : CastOp) (source : Ty) (value : Value) (target : Ty)
  /-- Computes the address of an element, indices counting in `element` first. -/
  | gep (result : String) (element : Ty) (base : Value) (indices : List TypedValue)
  | call (result : String) (type : Ty) (callee : String) (args : List TypedValue)
  | phi (result : String) (type : Ty) (incoming : List Incoming)
  | br (target : String)
  | condBr (condition : Value) (thenTarget elseTarget : String)
  | ret (value : Option TypedValue)
  deriving DecidableEq, Repr, Inhabited

structure Instr where
  pos : Pos
  action : Action
  deriving DecidableEq, Repr, Inhabited

structure Block where
  pos : Pos
  label : String
  instrs : List Instr
  deriving DecidableEq, Repr, Inhabited

structure Param where
  type : Ty
  name : String
  deriving DecidableEq, Repr, Inhabited

structure Function where
  pos : Pos
  name : String
  result : Ty
  params : List Param
  blocks : List Block
  deriving DecidableEq, Repr, Inhabited

/-- A complaint about a place in a file. -/
structure Diagnostic (ε : Type) where
  file : String
  pos : Pos
  cause : ε
  deriving DecidableEq, Repr, Inhabited

/-- A complaint as it is reported, from the wording of its cause. -/
def Diagnostic.message {ε : Type} (wording : ε → String) (d : Diagnostic ε) : String :=
  d.file ++ ":" ++ d.pos.shown ++ ": " ++ wording d.cause

end RegisterCompiler.Llvm
