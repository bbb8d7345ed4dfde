import RegisterCompiler.Text.Numeral
import RegisterCompiler.Yaml.Cursor

/-!
# Scalars

The four ways to write a scalar: plain, between single quotes, between double quotes, and as a block of lines.
The lines of the first three are folded: a line break between two words is a blank, and of several the first is
dropped. The lines of a block are kept or folded, as its head says.

Every function returns the text of a scalar and the place after it. Those with an argument `fuel` are for texts of
which fewer than `fuel` characters are left.
-/

namespace RegisterCompiler.Yaml

/-- What stands between two words of a scalar. -/
inductive Gap where
  /-- Blanks on one line, or nothing. -/
  | blanks (cs : List Char)
  /-- Line breaks; the first of them is missing if it does not count. -/
  | breaks (first : Option Char) (others : List Char)
  deriving DecidableEq, Repr, Inhabited

namespace Gap

/-- No gap. -/
def none : Gap := blanks []

/-- A gap with one more blank or line break. Blanks beside a line break do not count. -/
def add (x : Char) : Gap → Gap
  | blanks cs => if isBreak x then breaks (some (breakText x)) [] else blanks (cs ++ [x])
  | breaks first others => if isBreak x then breaks first (others ++ [breakText x]) else breaks first others

/-- Whether a gap goes over the end of a line. -/
def hasBreak : Gap → Bool
  | blanks _ => false
  | breaks .. => true

/-- The text that a gap stands for. -/
def folded : Gap → List Char
  | blanks cs => cs
  | breaks first others =>
    match first with
    | Option.none => others
    | some x => if x ≠ '\n' then x :: others else if others.isEmpty then [' '] else others

/-- The blanks and line breaks that follow a gap. Where lines are indented by `indent`, a tab does not indent
    them. -/
def read (indent : Int) : (fuel : Nat) → (gap : Gap) → Cursor → Option (Gap × Cursor)
  | 0, _, _ => failure
  | fuel + 1, gap, c =>
    match c.head? with
    | Option.none => some (gap, c)
    | some x =>
      if isBlank x then do
        if gap.hasBreak && x == '\t' && c.column < indent then failure
        read indent fuel (gap.add x) (← (c.drop 1).need? 1)
      else if isBreak x then do
        let c ← c.need? 2
        read indent fuel (gap.add x) (← c.nextLine.need? 1)
      else some (gap, c)

end Gap

/-! ## Plain scalars -/

/-- The signs of flow collections, which end a plain scalar in one. -/
def flowSigns : List Char := ",?[]\x7b\x7d".toList

/-- Whether a plain scalar ends before a sign. -/
def endsPlain (flow : Bool) : List Char → Bool
  | [] => true
  | x :: rest => x == ':' && atBreak rest || flow && flowSigns.contains x

/-- A word of a plain scalar. -/
def plainWord (flow : Bool) : (fuel : Nat) → Cursor → Option (List Char × Cursor)
  | 0, _ => none
  | fuel + 1, c =>
    match c.rest with
    | [] => some ([], c)
    | x :: rest =>
      if isBlank x || isBreak x || endsPlain flow (x :: rest) then some ([], c)
      else do
        let (word, last) ← plainWord flow fuel (← (c.drop 1).need? 2)
        return (x :: word, last)

/-- A plain scalar; its lines after the first are indented by `indent` at least, except in a flow collection. The
    second part says whether the place after the scalar is on a new line. -/
def plain (flow : Bool) (indent : Int) :
    (fuel : Nat) → (gap : Gap) → Cursor → Option (List Char × Bool × Cursor)
  | 0, _, _ => none
  | fuel + 1, gap, c => do
    let c ← c.need? 4
    if c.atDocument || c.head? == some '#' then return ([], gap.hasBreak, c)
    let (word, c) ← plainWord flow (fuel + 1) c
    if word.isEmpty then return ([], gap.hasBreak, c)
    let word := gap.folded ++ word
    if !c.atBlank && !c.atLineBreak then return (word, false, c)
    let (gap, c) ← Gap.none.read indent (fuel + 1) (← c.need? 1)
    if !flow && c.column < indent then return (word, gap.hasBreak, c)
    let (words, onNewLine, last) ← plain flow indent fuel gap c
    return (word ++ words, onNewLine, last)

/-! ## Quoted scalars -/

/-- The character of an escape by name. -/
def namedEscape? : Char → Option Char
  | '0' => some (Char.ofNat 0)
  | 'a' => some (Char.ofNat 7)
  | 'b' => some (Char.ofNat 8)
  | 't' => some '\t'
  | '\t' => some '\t'
  | 'n' => some '\n'
  | 'v' => some (Char.ofNat 11)
  | 'f' => some (Char.ofNat 12)
  | 'r' => some '\r'
  | 'e' => some (Char.ofNat 27)
  | ' ' => some ' '
  | '"' => some '"'
  | '\'' => some '\''
  | '\\' => some '\\'
  | 'N' => some '\u0085'
  | '_' => some '\u00a0'
  | 'L' => some '\u2028'
  | 'P' => some '\u2029'
  | _ => none

/-- The number of digits of an escape by number. -/
def escapeDigits : Char → Nat
  | 'x' => 2
  | 'u' => 4
  | 'U' => 8
  | _ => 0

/-- The character of an escape, and the number of characters it takes after the backslash. -/
def escape? (x : Char) (rest : List Char) : Option (Char × Nat) :=
  match namedEscape? x with
  | some y => some (y, 1)
  | none => do
    let size := escapeDigits x
    let digits := rest.take size
    if size = 0 ∨ digits.length < size then none
    let n ← Text.natural? 16 digits
    if n.isValidChar then some (Char.ofNat n, 1 + size) else none

/-- The next word of a quoted scalar, or a part of one. -/
inductive QuotedPart where
  /-- A character that takes some room. -/
  | char (x : Char) (size : Nat)
  /-- A line break that does not count. -/
  | escapedBreak
  /-- The closing quote. -/
  | close
  deriving DecidableEq, Repr, Inhabited

/-- What stands next between quotes. -/
def quotedPart? (double : Bool) : List Char → Option QuotedPart
  | [] => none
  | x :: rest =>
    if double then
      if x = '"' then some .close
      else if x = '\\' then
        match rest with
        | [] => none
        | y :: more =>
          if isBreak y then some .escapedBreak
          else (escape? y more).map fun (z, size) => .char z (1 + size)
      else some (.char x 1)
    else if x = '\'' then
      if rest.head? = some '\'' then some (.char '\'' 2) else some .close
    else some (.char x 1)

/-- A word between quotes, and whether a line break that does not count follows it. -/
def quotedWord (double : Bool) : (fuel : Nat) → Cursor → Option (List Char × Bool × Cursor)
  | 0, _ => none
  | fuel + 1, c =>
    if atBreak c.rest then some ([], false, c)
    else do
      match ← quotedPart? double c.rest with
      | .close => return ([], false, c)
      | .escapedBreak =>
        let c ← c.need? 3
        return ([], true, (c.drop 1).nextLine)
      | .char x size =>
        let c ← (c.drop (min size 2)).need? (size - 2)
        let c ← (c.drop (size - 2)).need? 2
        let (word, escaped, last) ← quotedWord double fuel c
        return (x :: word, escaped, last)

/-- The text between quotes, after the first quote. -/
def quoted (double : Bool) : (fuel : Nat) → Cursor → Option (List Char × Cursor)
  | 0, _ => none
  | fuel + 1, c => do
    let c ← c.need? 4
    if c.atDocument || c.rest.isEmpty then none
    let (word, escaped, c) ← quotedWord double (fuel + 1) c
    let c ← c.need? 1
    if c.head? = some (if double then '"' else '\'') then return (word, c.drop 1)
    let (gap, c) ← Gap.read 0 (fuel + 1) (if escaped then .breaks none [] else Gap.none) c
    let (words, last) ← quoted double fuel c
    return (word ++ gap.folded ++ words, last)

/-! ## Block scalars -/

/-- What happens to the line breaks at the end of a block. -/
inductive Chomping where
  /-- All are dropped. -/
  | strip
  /-- One is kept. -/
  | clip
  /-- All are kept. -/
  | keep
  deriving DecidableEq, Repr, Inhabited

/-- The sign for the line breaks at the end of a block. -/
def chomping? : Char → Option Chomping
  | '+' => some .keep
  | '-' => some .strip
  | _ => none

/-- The digit for the indentation of a block. -/
def increment? (x : Char) : Option Nat :=
  if x.isDigit then some (x.toNat - '0'.toNat) else none

/-- The signs in the head of a block, in either order: how far it is indented, if that is said, and what happens
    to its last line breaks. -/
def blockSigns (c : Cursor) : Option (Option Nat × Chomping × Cursor) := do
  let c ← c.need? 1
  match c.head?.bind chomping?, c.head?.bind increment? with
  | some chomp, _ =>
    let c ← (c.drop 1).need? 1
    match c.head?.bind increment? with
    | some n => return (some n, chomp, c.drop 1)
    | none => return (none, chomp, c)
  | none, some n =>
    let c ← (c.drop 1).need? 1
    match c.head?.bind chomping? with
    | some chomp => return (some n, chomp, c.drop 1)
    | none => return (some n, .clip, c)
  | none, none => return (none, .clip, c)

/-- Leaves the rest of a line behind if it holds nothing but blanks and a comment. -/
def endLine? (fuel : Nat) (c : Cursor) : Option Cursor := do
  let c ← c.passAtMost isBlank fuel
  let c ← if c.head? = some '#' then c.toLineEnd fuel else some c
  if c.atLineBreak then return (← c.need? 2).nextLine
  if c.rest.isEmpty then some c else none

/-- Leaves empty lines and the indentation of the line after them behind: the widest indentation, the line breaks,
    and the place after them. No indentation has been settled as long as `indent` is 0; a tab does not indent. -/
def blockBreaks (indent : Nat) : (fuel widest : Nat) → Cursor → Option (Nat × List Char × Cursor)
  | 0, _, _ => none
  | fuel + 1, widest, c => do
    let c ← c.passAtMost (· == ' ') (if indent = 0 then fuel else indent - c.column)
    let widest := max widest c.column
    if (indent = 0 ∨ c.column < indent) ∧ c.head? = some '\t' then none
    if c.atLineBreak then
      let c ← c.need? 2
      let (widest, breaks, last) ← blockBreaks indent fuel widest c.nextLine
      return (widest, c.head?.toList.map breakText ++ breaks, last)
    return (widest, [], c)

/-- The lines of a block. `first` is the break of the line before, none at the
    beginning, and `others` those of the empty lines after it; `blank` says whether the line before begins with
    a blank. -/
def blockLines (literal : Bool) (chomp : Chomping) (indent : Nat) :
    (fuel : Nat) → (blank : Bool) → (first others : List Char) → Cursor → Option (List Char × Cursor)
  | 0, _, _, _, _ => none
  | fuel + 1, blank, first, others, c =>
    if c.column ≠ indent ∨ c.rest.isEmpty then
      match chomp with
      | .strip => some ([], c)
      | .clip => some (first, c)
      | .keep => some (first ++ others, c)
    else do
      let joined :=
        if !literal && !blank && !c.atBlank && first == ['\n'] then
          (if others.isEmpty then [' '] else []) ++ others
        else first ++ others
      let line := c.rest.takeWhile (!isBreak ·)
      let ending ← (← c.toLineEnd fuel).need? 2
      let (_, breaks, next) ← blockBreaks indent (fuel + 1) 0
        (if ending.atLineBreak then ending.nextLine else ending)
      let (text, last) ←
        blockLines literal chomp indent fuel c.atBlank (ending.head?.toList.map breakText) breaks next
      return (joined ++ line ++ text, last)

/-- A block of lines, after its sign, in a collection whose entries begin in the column `parent`. The first line
    that is not empty settles the indentation if the head of the block does not. -/
def block (literal : Bool) (parent : Int) (fuel : Nat) (c : Cursor) : Option (List Char × Cursor) := do
  let (increment, chomp, c) ← blockSigns c
  if increment = some 0 then none
  let c ← endLine? fuel c
  let given := match increment with
    | some n => (max parent 0).toNat + n
    | none => 0
  let (widest, breaks, next) ← blockBreaks given fuel 0 c
  let indent := if given = 0 then max widest (max (parent + 1) 1).toNat else given
  blockLines literal chomp indent fuel false [] breaks next

end RegisterCompiler.Yaml
