/-!
# Widths

Every value of the compiler is an integer of a fixed bit width, held sign-extended in a 64-bit word.
Code handed to the compiler may carry any width from 0 to 255; the four machine widths are the *valid*
ones (`Width.isValid`).

* `Width.canonical` sign-extends the low bits of a word: the form in which values are held.
* `Width.low` zero-extends them: the form in which unsigned operators look at values.
-/

namespace RegisterCompiler

/-- A bit width. -/
structure Width where
  bits : UInt8
  deriving DecidableEq, Repr, Inhabited

namespace Width

def w8 : Width := ⟨8⟩

def w16 : Width := ⟨16⟩

def w32 : Width := ⟨32⟩

/-- The width of a register and of an address. -/
def w64 : Width := ⟨64⟩

/-- The width of no value: what a function without a result returns. -/
def none : Width := ⟨0⟩

/-- The machine widths, narrowest first. -/
def all : List Width := [w8, w16, w32, w64]

/-- Only the machine widths are valid. -/
def isValid (w : Width) : Bool := all.contains w

def size (w : Width) : Nat := w.bits.toNat / 8

def bytes (w : Width) : Int64 := Int64.ofNat w.size

/-- The name of a width is that of the integer type of its size. -/
def name (w : Width) : String := "i" ++ toString w.bits.toNat

/-- The low bits of `v`, sign-extended. No bit of a word lies beyond 64, and a width that says otherwise
    keeps nothing. -/
def canonical (w : Width) (v : Int64) : Int64 :=
  if w.bits = 0 ∨ 64 < w.bits then 0
  else
    let unused : Int64 := ⟨⟨BitVec.ofNat 64 (64 - w.bits.toNat)⟩⟩
    (v <<< unused) >>> unused

/-- The low bits of `v`, zero-extended. -/
def low (w : Width) (v : Int64) : UInt64 :=
  if w.bits < 64 then v.toUInt64 &&& ((1 <<< w.bits.toUInt64) - 1) else v.toUInt64

end Width

end RegisterCompiler
