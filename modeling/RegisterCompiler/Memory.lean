import Std.Data.ExtTreeMap
import RegisterCompiler.Text.Decimal
import RegisterCompiler.Width

/-!
# Memory

A memory is a number of bytes, all of them zero at first. Values take their bytes in order, the lowest first.

* `Memory.load` and `Memory.store` move the low bytes of a word.
* `Memory.admits` is the test that an access has to pass. It adds with wrap-around, so that an address near the
  end of the address space passes it; such an access fails all the same (`AccessError.wild`).
-/

namespace RegisterCompiler

/-- A memory: how many bytes it has, and those that have been written. -/
structure Memory where
  size : Nat
  bytes : Std.ExtTreeMap Nat UInt8 := ∅

instance : Inhabited Memory := ⟨⟨0, ∅⟩⟩

/-- Why there is nothing to access at an address. -/
inductive AccessError where
  | outOfBounds (address : Int64)
  /-- The access passes the test and yet leaves the memory. -/
  | wild
  deriving DecidableEq, Repr, Inhabited

def AccessError.outOfBoundsMessage (address : Int64) : String :=
  "memory access out of bounds: " ++ Text.decimal address

namespace Memory

def defaultSize : Nat := 1048576

def get (m : Memory) (a : Nat) : UInt8 := m.bytes.getD a 0

def set (m : Memory) (a : Nat) (b : UInt8) : Memory := { m with bytes := m.bytes.insert a b }

/-- The word that `n` bytes make. -/
def load (m : Memory) (a : Nat) : (n : Nat) → UInt64
  | 0 => 0
  | n + 1 => (m.get a).toUInt64 ||| (m.load (a + 1) n <<< 8)

/-- Writes the low `n` bytes of a word. -/
def store (m : Memory) (a : Nat) (v : UInt64) : (n : Nat) → Memory
  | 0 => m
  | n + 1 => (m.set a v.toUInt8).store (a + 1) (v >>> 8) n

/-- Whether an access to some bytes passes the test. -/
def admits (m : Memory) (address bytes : Int64) : Bool :=
  decide (0 ≤ address) && decide (address + bytes ≤ Int64.ofNat m.size)

/-- The place of an access that passes the test for `bytes` bytes and in fact touches `touched`. -/
def locate (m : Memory) (address bytes : Int64) (touched : Nat) : Except AccessError Nat :=
  if m.admits address bytes then
    let a := address.toInt.toNat
    if a + touched ≤ m.size then .ok a else .error .wild
  else .error (.outOfBounds address)

end Memory

end RegisterCompiler
