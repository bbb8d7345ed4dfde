import RegisterCompiler.Text.Printable

/-!
# Quoted text

Messages show names and fragments of their input between double quotes, with the characters that would not
be seen, or would be misread, written as escapes.
-/

namespace RegisterCompiler.Text

/-- The digits of `n` in base 16, at least `width` of them. -/
def hexadecimal (width n : Nat) : String :=
  let digits := Nat.toDigits 16 n
  String.ofList (List.replicate (width - digits.length) '0' ++ digits)

/-- A character as it stands between quotes. -/
def escaped (c : Char) : String :=
  if c == '"' then "\\\""
  else if c == '\\' then "\\\\"
  else if isPrintable c then c.toString
  else match c.toNat with
    | 7 => "\\a"
    | 8 => "\\b"
    | 12 => "\\f"
    | 10 => "\\n"
    | 13 => "\\r"
    | 9 => "\\t"
    | 11 => "\\v"
    | n =>
      if n < 0x20 ∨ n = 0x7f then "\\x" ++ hexadecimal 2 n
      else if n < 0x10000 then "\\u" ++ hexadecimal 4 n
      else "\\U" ++ hexadecimal 8 n

def quoted (s : String) : String :=
  "\"" ++ String.join (s.toList.map escaped) ++ "\""

end RegisterCompiler.Text
