import RegisterCompiler.Text.Decimal

/-!
# Numerals in a base

Whole numbers as they are written where the base may be chosen: a letter after a leading zero, or the zero
alone, says whether digits count in base 2, 8, 10 or 16. Underscores may stand between digits.
-/

namespace RegisterCompiler.Text

/-- The value of a digit in bases up to 16. -/
def digit? (c : Char) : Option Nat :=
  if c.isDigit then some (c.toNat - '0'.toNat)
  else if 'a' ≤ c ∧ c ≤ 'f' then some (c.toNat - 'a'.toNat + 10)
  else if 'A' ≤ c ∧ c ≤ 'F' then some (c.toNat - 'A'.toNat + 10)
  else none

/-- The number that digits in a base make. -/
def natural? (base : Nat) (digits : List Char) : Option Nat :=
  if digits.isEmpty then none
  else digits.foldlM (fun n c => do
    let d ← digit? c
    if d < base then some (n * base + d) else none) 0

/-- The number that a numeral without a sign stands for. A leading zero or a letter after it chooses the
    base. -/
def magnitude? : List Char → Option Nat
  | '0' :: 'x' :: digits | '0' :: 'X' :: digits => natural? 16 digits
  | '0' :: 'b' :: digits | '0' :: 'B' :: digits => natural? 2 digits
  | '0' :: 'o' :: digits | '0' :: 'O' :: digits => natural? 8 digits
  | '0' :: d :: digits => natural? 8 (d :: digits)
  | digits => natural? 10 digits

/-- Whether every underscore among the digits has one of them before and after it. -/
def separated (hex : Bool) : (previous : Char) → List Char → Bool
  | previous, [] => previous != '_'
  | previous, c :: cs =>
    if c.isDigit || hex && (digit? c).isSome then separated hex '0' cs
    else if c = '_' then previous == '0' && separated hex '_' cs
    else previous != '_' && separated hex '!' cs

/-- Whether the underscores of a numeral are in place. The letters that choose a base count as a digit. -/
def wellSeparated : List Char → Bool
  | '0' :: x :: cs =>
    if ['b', 'B', 'o', 'O', 'x', 'X'].contains x then separated (x = 'x' || x = 'X') '0' cs
    else separated false '^' ('0' :: x :: cs)
  | cs => separated false '^' cs

end RegisterCompiler.Text
