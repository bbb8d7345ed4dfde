import RegisterCompiler.Width

/-!
# Scalar operators

The integer operators, comparisons and width conversions, shared by the intermediate code, the machine
instructions, the interpreter and the simulator.

* `BinOp.eval`, `Cond.eval` and `CastOp.eval` say what they compute: two's-complement arithmetic at the
  stated width, on operands read through `Width.canonical` and `Width.low`.

Code may name an operator by a number that no operator has (`other`); such an operator has a place in
every listing, and evaluating it fails.
-/

namespace RegisterCompiler

/-- How a listing shows the name of an operator whose number is negative. -/
def shownBadIndex (code : Int) : String :=
  "%!s(PANIC=String method: runtime error: index out of range [" ++ toString code ++ "])"

inductive BinOp where
  | add | sub | mul | sdiv | udiv | srem | urem | and | or | xor | shl | lshr | ashr
  /-- A number that no operator has. -/
  | other (code : Int)
  deriving DecidableEq, Repr, Inhabited

namespace BinOp

def all : List BinOp := [add, sub, mul, sdiv, udiv, srem, urem, and, or, xor, shl, lshr, ashr]

def ofCode : Int → BinOp
  | .ofNat n => all.getD n (other n)
  | .negSucc n => other (.negSucc n)

def code : BinOp → Int
  | add => 0 | sub => 1 | mul => 2 | sdiv => 3 | udiv => 4 | srem => 5 | urem => 6
  | and => 7 | or => 8 | xor => 9 | shl => 10 | lshr => 11 | ashr => 12
  | other c => c

def name? : BinOp → Option String
  | add => some "add" | sub => some "sub" | mul => some "mul"
  | sdiv => some "sdiv" | udiv => some "udiv" | srem => some "srem" | urem => some "urem"
  | and => some "and" | or => some "or" | xor => some "xor"
  | shl => some "shl" | lshr => some "lshr" | ashr => some "ashr"
  | other c => if c < 0 then none else some "?"

def name (op : BinOp) : String := op.name?.getD (shownBadIndex op.code)

def ofName? (s : String) : Option BinOp := all.find? (·.name? == some s)

end BinOp

inductive Cond where
  | eq | ne | slt | sle | sgt | sge | ult | ule | ugt | uge
  /-- A number that no comparison has. -/
  | other (code : Int)
  deriving DecidableEq, Repr, Inhabited

namespace Cond

def all : List Cond := [eq, ne, slt, sle, sgt, sge, ult, ule, ugt, uge]

def ofCode : Int → Cond
  | .ofNat n => all.getD n (other n)
  | .negSucc n => other (.negSucc n)

def code : Cond → Int
  | eq => 0 | ne => 1 | slt => 2 | sle => 3 | sgt => 4 | sge => 5
  | ult => 6 | ule => 7 | ugt => 8 | uge => 9
  | other c => c

/-- The name of a comparison; a negative number has none. -/
def name? : Cond → Option String
  | eq => some "eq" | ne => some "ne" | slt => some "slt" | sle => some "sle"
  | sgt => some "sgt" | sge => some "sge" | ult => some "ult" | ule => some "ule"
  | ugt => some "ugt" | uge => some "uge"
  | other c => if c < 0 then none else some "?"

def name (c : Cond) : String := c.name?.getD (shownBadIndex c.code)

def ofName? (s : String) : Option Cond := all.find? (·.name? == some s)

/-- The comparisons that read their operands without a sign. -/
def isUnsigned (c : Cond) : Bool := 6 ≤ c.code

end Cond

/-- A conversion between widths. -/
inductive CastOp where
  | sext | zext | trunc
  /-- A number that no conversion has. -/
  | other (code : Int)
  deriving DecidableEq, Repr, Inhabited

namespace CastOp

def all : List CastOp := [sext, zext, trunc]

def ofCode : Int → CastOp
  | .ofNat n => all.getD n (other n)
  | .negSucc n => other (.negSucc n)

def name : CastOp → String
  | sext => "sext" | zext => "zext" | trunc => "trunc" | other _ => "?"

def ofName? (s : String) : Option CastOp := all.find? (·.name == s)

end CastOp

/-- Why an operator gives no value. -/
inductive ScalarError where
  | divideByZero
  | unknownOperator (op : BinOp)
  deriving DecidableEq, Repr, Inhabited

def ScalarError.message : ScalarError → String
  | divideByZero => "division by zero"
  | unknownOperator op => "unknown operator " ++ toString op.code

/-- `x op y` at width `w`. The operands count only by their low bits, the amount of a shift is taken
    modulo the width, and the quotient that has no place in the width wraps around. -/
def BinOp.eval (op : BinOp) (w : Width) (x y : Int64) : Except ScalarError Int64 :=
  let x := w.canonical x
  let y := w.canonical y
  let amount : UInt64 := y.toUInt64 &&& (w.bits - 1).toUInt64
  match op with
  | .add => .ok (w.canonical (x + y))
  | .sub => .ok (w.canonical (x - y))
  | .mul => .ok (w.canonical (x * y))
  | .sdiv => if y = 0 then .error .divideByZero else .ok (w.canonical (x / y))
  | .srem => if y = 0 then .error .divideByZero else .ok (w.canonical (x % y))
  | .udiv =>
    if w.low y = 0 then .error .divideByZero else .ok (w.canonical (w.low x / w.low y).toInt64)
  | .urem =>
    if w.low y = 0 then .error .divideByZero else .ok (w.canonical (w.low x % w.low y).toInt64)
  | .and => .ok (w.canonical (x &&& y))
  | .or => .ok (w.canonical (x ||| y))
  | .xor => .ok (w.canonical (x ^^^ y))
  | .shl => .ok (w.canonical (x <<< amount.toInt64))
  | .lshr => .ok (w.canonical (w.low x >>> amount).toInt64)
  | .ashr => .ok (w.canonical (x >>> amount.toInt64))
  | .other _ => .error (.unknownOperator op)

/-- Whether `x cond y` holds at width `w`. A comparison that does not exist never holds. -/
def Cond.eval (c : Cond) (w : Width) (x y : Int64) : Bool :=
  let x := w.canonical x
  let y := w.canonical y
  match c with
  | .eq => x == y
  | .ne => x != y
  | .slt => decide (x < y)
  | .sle => decide (x ≤ y)
  | .sgt => decide (y < x)
  | .sge => decide (y ≤ x)
  | .ult => decide (w.low x < w.low y)
  | .ule => decide (w.low x ≤ w.low y)
  | .ugt => decide (w.low y < w.low x)
  | .uge => decide (w.low y ≤ w.low x)
  | .other _ => false

/-- `v` converted between two widths. A conversion that does not exist keeps the low bits. -/
def CastOp.eval (op : CastOp) (source target : Width) (v : Int64) : Int64 :=
  match op with
  | .zext => target.canonical (source.low v).toInt64
  | .sext => target.canonical (source.canonical v)
  | .trunc | .other _ => target.canonical v

end RegisterCompiler
