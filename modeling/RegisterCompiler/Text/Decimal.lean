import RegisterCompiler.Text.Quoted

/-!
# Decimal numbers

The decimal texts of 64-bit words. A number is a run of digits, with leading zeros at will, and for a signed
word possibly a sign. Digits are read from the left: a number whose digits leave the range is out of range
whatever follows them.
-/

namespace RegisterCompiler.Text

/-- Why a text is not a number. -/
inductive DecimalError where
  /-- It is empty or holds something other than digits. -/
  | malformed
  /-- It does not fit the word. -/
  | outOfRange
  deriving DecidableEq, Repr, Inhabited

/-- One more than the largest unsigned word. -/
def wordLimit : Nat := 0x10000000000000000

/-- One more than the largest signed word. -/
def signedLimit : Nat := 0x8000000000000000

/-- The digits `cs`, read after a number of the value `n`. -/
def readDigits : List Char → Nat → Except DecimalError Nat
  | [], n => .ok n
  | c :: cs, n =>
    if c.isDigit then
      let next := n * 10 + (c.toNat - '0'.toNat)
      if next < wordLimit then readDigits cs next else .error .outOfRange
    else .error .malformed

/-- An unsigned word from its digits. -/
def readNatural (cs : List Char) : Except DecimalError Nat :=
  if cs.isEmpty then .error .malformed else readDigits cs 0

/-- A text as the magnitude of a number that may have a sign: whether it is negative, and its digits. -/
def splitSign : List Char → Bool × List Char
  | '-' :: cs => (true, cs)
  | '+' :: cs => (false, cs)
  | cs => (false, cs)

/-- A signed word from its text. -/
def readSigned (s : String) : Except DecimalError Int64 :=
  let (negative, digits) := splitSign s.toList
  match readNatural digits with
  | .error e => .error e
  | .ok n =>
    if negative then
      if n ≤ signedLimit then .ok (Int64.ofInt (-(n : Int))) else .error .outOfRange
    else
      if n < signedLimit then .ok (Int64.ofNat n) else .error .outOfRange

/-- A signed word from its text, the nearest one if the number does not fit, and zero if there is none. -/
def readClamped (s : String) : Int64 :=
  match readSigned s with
  | .ok v => v
  | .error .malformed => 0
  | .error .outOfRange => if (splitSign s.toList).1 then Int64.minValue else Int64.maxValue

/-- An unsigned word from its text, which has no sign. -/
def readUnsigned (s : String) : Except DecimalError UInt64 :=
  (readNatural s.toList).map UInt64.ofNat

def decimal (v : Int64) : String := toString v.toInt

/-- The decimal text of a word, with a sign in any case. -/
def signedDecimal (v : Int64) : String :=
  if v < 0 then decimal v else "+" ++ decimal v

def DecimalError.message (text : String) (e : DecimalError) : String :=
  let reason := match e with
    | .malformed => "invalid syntax"
    | .outOfRange => "value out of range"
  "strconv.ParseInt: parsing " ++ quoted text ++ ": " ++ reason

end RegisterCompiler.Text
