import RegisterCompiler.Text.Numeral

/-!
# Numbers in documents

A scalar written without quotes may stand for a number: a whole number in some base, or a decimal fraction.
Where a whole number is asked for, a fraction stands for the integer part of the floating-point number of 53
binary digits that is nearest to it.
-/

namespace RegisterCompiler.Yaml

open Text (natural? magnitude? splitSign signedLimit wordLimit)

/-- The quotient rounded to the nearest integer, a half to the even one. -/
def roundedQuotient (num den : Nat) : Nat :=
  let q := num / den
  let r := num % den
  if 2 * r < den ∨ 2 * r = den ∧ q % 2 = 0 then q else q + 1

/-- The integer part of the floating-point number nearest to a quotient; none if it is too large for one. -/
def integerPart? (num den : Nat) : Option Nat :=
  if 2 * num < den then some 0
  else
    -- the first binary digit stands for `2 ^ top`, or for one half if `num < den`
    let top := Nat.log2 (num / den)
    let below := if num < den then 53 else 52 - top
    let above := top - 52
    let n := roundedQuotient (num * Nat.pow 2 below) (den * Nat.pow 2 above) * Nat.pow 2 above / Nat.pow 2 below
    if Nat.log2 n < 1024 then some n else none

/-- The integer part of a decimal fraction: digits before and after the point, and an exponent. -/
def decimalPart? (whole part : List Char) (exponent : Int) : Option Nat := do
  let m ← natural? 10 (whole ++ part)
  let shift := exponent - part.length
  if m = 0 then some 0
  else if 400 < shift then none
  else if 0 ≤ shift then integerPart? (m * Nat.pow 10 shift.toNat) 1
  else if shift < -((whole.length + part.length : Nat) : Int) - 1 then some 0
  else integerPart? m (Nat.pow 10 (-shift).toNat)

/-- The exponent at the end of a fraction. -/
def exponent? : List Char → Option Int
  | [] => some 0
  | e :: digits =>
    if e = 'e' ∨ e = 'E' then
      let (negative, digits) := splitSign digits
      (natural? 10 digits).map fun n => if negative then -(n : Int) else n
    else none

/-- The integer part of a fraction without a sign. -/
def fraction? (cs : List Char) : Option Nat := do
  let whole := cs.takeWhile Char.isDigit
  match cs.drop whole.length with
  | '.' :: rest =>
    let part := rest.takeWhile Char.isDigit
    if whole.isEmpty ∧ part.isEmpty then none
    else decimalPart? whole part (← exponent? (rest.drop part.length))
  | rest => if whole.isEmpty then none else decimalPart? whole [] (← exponent? rest)

/-- The word for the integer part of a fraction. One that is too small is the smallest word, as is the number
    next to the largest word. -/
def cutToWord? (negative : Bool) (n : Nat) : Option Int64 :=
  if n < signedLimit then some (Int64.ofInt (if negative then -(n : Int) else n))
  else if negative ∨ n = signedLimit then some Int64.minValue
  else none

/-- A whole number in a base with a sign of its own. -/
def signedIn? (base : Nat) (cs : List Char) : Option Int64 := do
  let (negative, digits) := splitSign cs
  let n ← natural? base digits
  if negative then if n ≤ signedLimit then some (Int64.ofInt (-(n : Int))) else none
  else if n < signedLimit then some (Int64.ofNat n)
  else none

/-- The word of a number that begins with a sign or a digit and has no underscores. A whole number that fits
    an unsigned word only is no word. -/
def numeral? (cs : List Char) : Option Int64 :=
  let (negative, digits) := splitSign cs
  let fraction := (fraction? digits).bind (cutToWord? negative)
  match magnitude? digits with
  | some n =>
    if n < signedLimit ∨ negative ∧ n = signedLimit then cutToWord? negative n
    else if digits = cs ∧ n < wordLimit then none
    else fraction
  | none =>
    match cs with
    | '0' :: 'b' :: rest => signedIn? 2 rest
    | '0' :: 'o' :: rest => signedIn? 8 rest
    | _ => fraction

/-- The word that a plain scalar stands for. -/
def word? (text : String) : Option Int64 :=
  if ["-.inf", "-.Inf", "-.INF"].contains text then some Int64.minValue
  else match text.toList with
    | [] => none
    | c :: cs =>
      if c = '.' then
        if Text.wellSeparated (c :: cs) then (fraction? ((c :: cs).filter (· ≠ '_'))).bind (cutToWord? false)
        else none
      else if c = '+' ∨ c = '-' ∨ c.isDigit then numeral? ((c :: cs).filter (· ≠ '_'))
      else none

end RegisterCompiler.Yaml
