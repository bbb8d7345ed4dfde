import RegisterCompiler.Proofs.Reading

/-!
# Tokens that are written and read

A line of LLVM text is written token by token, with spaces where two tokens would run into each other. From such a line
the same tokens are read, all of them with the number of the line.
-/

namespace RegisterCompiler.Llvm

open List
open Asm (isNameChar)

variable {lines : List (List Glyph)} {b : UInt8}

/-! ## Bytes of a text -/

theorem toList_byteArray_loop (bs : ByteArray) (i : Nat) (r : List UInt8) :
    ByteArray.toList.loop bs i r = r.reverse ++ bs.data.toList.drop i := by
  fun_induction ByteArray.toList.loop bs i r with
  | case1 i r hlt ih =>
    have hlt : i < bs.data.toList.length := hlt
    have hget : bs.get! i = bs.data.toList[i] := getElem!_pos bs.data i hlt
    rw [ih, reverse_cons, append_assoc, singleton_append, hget, getElem_cons_drop]
  | case2 i r hlt =>
    have hle : bs.data.toList.length ≤ i := Nat.le_of_not_lt hlt
    rw [drop_eq_nil_of_le hle, append_nil]

theorem toList_byteArray (bs : ByteArray) : bs.toList = bs.data.toList := by
  rw [ByteArray.toList, toList_byteArray_loop, reverse_nil, nil_append, drop_zero]

def byteOf (c : Char) : UInt8 := UInt8.ofNat c.toNat

/-- What is checked for the first 128 numbers holds of all characters that take one byte. -/
theorem forall_ascii {P : Char → Prop} (h : ∀ n < 128, P (Char.ofNat n)) {c : Char} (hc : c.toNat < 128) : P c := by
  have := h c.toNat hc
  rwa [Char.ofNat_toNat] at this

theorem toList_toUTF8 {s : String} (h : ∀ c ∈ s.toList, c.toNat < 128) : s.toUTF8.toList = s.toList.map byteOf := by
  have hbytes : s.toUTF8 = s.toList.utf8Encode := by
    conv_lhs => rw [← String.ofList_toList (s := s)]
    exact String.toByteArray_ofList
  -- every character takes one byte, so that encoding takes them one by one
  rw [hbytes, toList_byteArray, List.utf8Encode, toList_data_toByteArray, map_eq_flatMap]
  refine flatMap_congr fun c hc => String.utf8EncodeChar_eq_singleton ?_
  have hc : c.val.toNat < 128 := h c hc
  exact Char.utf8Size_eq_one_iff.2 (UInt32.le_iff_toNat_le.2 (Nat.le_of_lt_succ hc))

theorem latin_map_byteOf {cs : List Char} (h : ∀ c ∈ cs, c.toNat < 128) : latin (cs.map byteOf) = String.ofList cs := by
  have hid : cs.map ((fun b : UInt8 => Char.ofNat b.toNat) ∘ byteOf) = cs.map id := by
    refine map_congr_left fun c hc => ?_
    exact forall_ascii (P := fun c => Char.ofNat (byteOf c).toNat = c) (by decide +kernel) (h c hc)
  rw [latin, map_map, hid, map_id]

/-! ## Names -/

/-- Names that need no quotes and are no numbers: they begin with a letter or an underscore. -/
def isIdent (s : String) : Bool :=
  match s.toList with
  | [] => false
  | c :: cs => (c.isAlpha || c == '_') && cs.all isNameChar

/-- What follows a name and is not part of it. -/
def Stops (bytes : List UInt8) : Prop := ∀ b ∈ bytes.head?, isNameByte b = false ∧ b ≠ ':'.toUInt8

theorem toNat_lt_of_isNameChar {c : Char} (h : isNameChar c) : c.toNat < 128 := by
  have := Asm.toNat_of_isNameChar h
  omega

theorem isNameByte_byteOf {c : Char} (h : isNameChar c) : isNameByte (byteOf c) :=
  forall_ascii (P := fun c => isNameChar c → isNameByte (byteOf c)) (by decide +kernel) (toNat_lt_of_isNameChar h) h

theorem isDigitByte_byteOf {c : Char} (h : c.isDigit) : isDigitByte (byteOf c) :=
  forall_ascii (P := fun c => c.isDigit → isDigitByte (byteOf c)) (by decide +kernel)
    (toNat_lt_of_isNameChar (Asm.isNameChar_of_isDigit h)) h

theorem isNameByte_of_isDigitByte : ∀ b, isDigitByte b → isNameByte b := forall_byte (by decide +kernel)

theorem takeWhile_append_of_head {p : UInt8 → Bool} {bytes rest : List UInt8} (hbytes : ∀ b ∈ bytes, p b)
    (hrest : ∀ b ∈ rest.head?, p b = false) : (bytes ++ rest).takeWhile p = bytes := by
  rw [takeWhile_append_of_pos hbytes]
  cases rest with
  | nil => rw [takeWhile_nil, append_nil]
  | cons b rest => rw [takeWhile_cons_of_neg (by simpa using hrest b rfl), append_nil]

/-- A byte of names with which neither a number nor an ellipsis begins. -/
@[mk_iff]
structure BeginsName (b : UInt8) : Prop where
  name : isNameByte b = true
  dot : b ≠ '.'.toUInt8
  minus : b ≠ '-'.toUInt8
  digit : isDigitByte b = false

instance (b : UInt8) : Decidable (BeginsName b) := decidable_of_iff _ (beginsName_iff b).symm

theorem exists_of_isIdent {s : String} (h : isIdent s) :
    ∃ c cs, s.toList = c :: cs ∧ BeginsName (byteOf c) ∧ ∀ d ∈ c :: cs, isNameChar d := by
  unfold isIdent at h
  split at h
  · cases h
  · next c cs hs =>
    obtain ⟨hc, hcs⟩ := Bool.and_eq_true_iff.1 h
    have hname : isNameChar c := by
      rcases Bool.or_eq_true_iff.1 hc with hc | hc
      · simp [isNameChar, Char.isAlphanum, hc]
      · rw [beq_iff_eq.1 hc]
        rfl
    refine ⟨c, cs, hs, ?_, forall_mem_cons.2 ⟨hname, all_eq_true.1 hcs⟩⟩
    exact forall_ascii (P := fun c => (c.isAlpha || c == '_') → BeginsName (byteOf c)) (by decide +kernel)
      (toNat_lt_of_isNameChar hname) hc

/-- A byte that neither separates tokens nor ends the text. -/
def IsSolid (b : UInt8) : Prop := isSpaceByte b = false ∧ b ≠ ';'.toUInt8 ∧ b ≠ 0

instance (b : UInt8) : Decidable (IsSolid b) := inferInstanceAs (Decidable (_ ∧ _))

theorem isSolid_of_isNameByte : ∀ b, isNameByte b → IsSolid b := forall_byte (by decide +kernel)

theorem isDigitByte_eq_false (h : isNameByte b = false) : isDigitByte b = false :=
  Bool.eq_false_iff.2 fun hdigit => Bool.eq_false_iff.1 h (isNameByte_of_isDigitByte b hdigit)

/-! ## Lexemes -/

section

variable {c : Char} {cs : List Char} {rest : List UInt8}

theorem takeWhile_map_byteOf (hcs : ∀ d ∈ cs, isNameChar d) (hrest : ∀ b ∈ rest.head?, isNameByte b = false) :
    (cs.map byteOf ++ rest).takeWhile isNameByte = cs.map byteOf :=
  takeWhile_append_of_head (forall_mem_map.2 fun d hd => isNameByte_byteOf (hcs d hd)) hrest

theorem latin_name (hcs : ∀ d ∈ cs, isNameChar d) : latin (cs.map byteOf) = String.ofList cs :=
  latin_map_byteOf fun d hd => toNat_lt_of_isNameChar (hcs d hd)

theorem sigilLexeme_eq {sigil : UInt8} (hsigil : sigil ≠ '!'.toUInt8) (hcs : ∀ d ∈ c :: cs, isNameChar d)
    (hrest : Stops rest) :
    sigilLexeme sigil ((c :: cs).map byteOf ++ rest) = ⟨sigilKind sigil, String.ofList (c :: cs), cs.length + 2⟩ := by
  have hquote : byteOf c ≠ '"'.toUInt8 := by
    have hne : ∀ b, isNameByte b → b ≠ '"'.toUInt8 := forall_byte (by decide +kernel)
    exact hne _ (isNameByte_byteOf (hcs c mem_cons_self))
  have htake := takeWhile_map_byteOf hcs fun b hb => (hrest b hb).1
  rw [map_cons, cons_append] at htake ⊢
  rw [sigilLexeme]
  dsimp only
  rw [if_neg (fun h => hsigil h.1), if_neg hquote, htake, ← map_cons, latin_name hcs]
  simp

theorem lexeme_eq_nameLexeme (hname : isNameByte b) (hdot : b ≠ '.'.toUInt8) (bytes : List UInt8) :
    lexeme b bytes = nameLexeme b bytes := by
  have hplain : ∀ b, isNameByte b → delimiter? b = none ∧ b ≠ '"'.toUInt8 ∧ isSigil b = false :=
    forall_byte (by decide +kernel)
  obtain ⟨hdelimiter, hquote, hsigil⟩ := hplain b hname
  unfold lexeme
  rw [hdelimiter]
  dsimp only
  rw [if_neg hquote, hsigil, if_neg Bool.false_ne_true, if_neg (fun h => hdot h.1), if_pos hname]

/-- What begins with a byte of names is a label if a colon follows it, and otherwise a number or a word. -/
theorem lexeme_name (hcs : ∀ d ∈ c :: cs, isNameChar d) (hdot : byteOf c ≠ '.'.toUInt8) (hminus : byteOf c ≠ '-'.toUInt8)
    (hrest : ∀ b ∈ rest.head?, isNameByte b = false) :
    lexeme (byteOf c) (cs.map byteOf ++ rest) =
      if rest.head? = some ':'.toUInt8 then ⟨.label, String.ofList (c :: cs), cs.length + 2⟩
      else ⟨if ((c :: cs).map byteOf).all isDigitByte then .int else .word, String.ofList (c :: cs), cs.length + 1⟩ := by
  have htake := takeWhile_map_byteOf (fun d hd => hcs d (mem_cons_of_mem c hd)) hrest
  have hdrop : (cs.map byteOf ++ rest).drop ((byteOf c :: cs.map byteOf).length - 1) = rest := drop_left' (by simp)
  rw [lexeme_eq_nameLexeme (isNameByte_byteOf (hcs c mem_cons_self)) hdot, nameLexeme, if_neg (fun h => hminus h.1),
    htake]
  dsimp only
  rw [hdrop, ← map_cons, latin_name hcs]
  simp

theorem lexeme_minus (hcs : ∀ d ∈ c :: cs, d.isDigit) (hrest : Stops rest) :
    lexeme (byteOf '-') ((c :: cs).map byteOf ++ rest) = ⟨.int, String.ofList ('-' :: c :: cs), cs.length + 2⟩ := by
  have hdigits : ∀ b ∈ (c :: cs).map byteOf, isDigitByte b :=
    forall_mem_map.2 fun d hd => isDigitByte_byteOf (hcs d hd)
  have htake : ((c :: cs).map byteOf ++ rest).takeWhile isDigitByte = (c :: cs).map byteOf :=
    takeWhile_append_of_head hdigits fun b hb => isDigitByte_eq_false (hrest b hb).1
  have hhead : ((c :: cs).map byteOf ++ rest).head?.any isDigitByte := by
    simpa using hdigits (byteOf c) (mem_map_of_mem mem_cons_self)
  have hlatin : latin ((('-' :: c :: cs)).map byteOf) = String.ofList ('-' :: c :: cs) :=
    latin_name (forall_mem_cons.2 ⟨rfl, fun d hd => Asm.isNameChar_of_isDigit (hcs d hd)⟩)
  rw [lexeme_eq_nameLexeme (by decide) (by decide), nameLexeme, if_pos ⟨by decide, hhead⟩, htake]
  dsimp only
  rw [← map_cons, hlatin]
  simp

end

/-! ## Shapes -/

/-- A token without its place. -/
structure Shape where
  kind : TokenKind
  literal : String
  deriving DecidableEq

def Token.shape (t : Token) : Shape := ⟨t.kind, t.literal⟩

namespace Shape

def spelled (s : Shape) : List Char :=
  match s.kind with
  | .localName => '%' :: s.literal.toList
  | .globalName => '@' :: s.literal.toList
  | .label => s.literal.toList ++ [':']
  | _ => s.literal.toList

/-- The tokens of functions: names, words and numbers, and the marks between them. -/
def Proper (s : Shape) : Prop :=
  match s.kind with
  | .localName | .globalName | .label | .word => isIdent s.literal = true
  | .int => ∃ v, s.literal = Text.decimal v
  | .assign | .comma | .leftParen | .rightParen | .leftBrace | .rightBrace | .leftBracket | .rightBracket =>
    s.literal = s.kind.name
  | _ => False

/-- Whether a token would go on with a byte of names. -/
def isOpen (s : Shape) : Bool := [.localName, .globalName, .word, .int].contains s.kind

/-- Whether a token begins with a byte of names. -/
def isBare (s : Shape) : Bool := [.label, .word, .int].contains s.kind

variable {s : Shape} {rest : List UInt8} {literal : String}

/-- How a proper token is read, if nothing follows that it would go on with. -/
def Lexes (s : Shape) (rest : List UInt8) : Prop :=
  ∃ b bs, s.spelled.map byteOf = b :: bs ∧ IsSolid b ∧ lexeme b (bs ++ rest) = ⟨s.kind, s.literal, bs.length + 1⟩

theorem lexes_sigil {c : Char} (hs : isIdent s.literal) (hspelled : s.spelled = c :: s.literal.toList)
    (hlexeme : ∀ bytes, lexeme (byteOf c) bytes = sigilLexeme (byteOf c) bytes) (hkind : sigilKind (byteOf c) = s.kind)
    (hsolid : IsSolid (byteOf c)) (hne : byteOf c ≠ '!'.toUInt8) (hrest : Stops rest) : s.Lexes rest := by
  obtain ⟨d, ds, hds, -, hname⟩ := exists_of_isIdent hs
  refine ⟨byteOf c, (d :: ds).map byteOf, by rw [hspelled, hds, map_cons], hsolid, ?_⟩
  rw [hlexeme, sigilLexeme_eq hne hname hrest, ← hds, String.ofList_toList, hkind, hds, length_map, length_cons]

theorem lexes_word (hs : isIdent literal) (hrest : Stops rest) : Lexes ⟨.word, literal⟩ rest := by
  obtain ⟨c, cs, hcs, hc, hname⟩ := exists_of_isIdent hs
  have hcolon : rest.head? ≠ some ':'.toUInt8 := fun hhead => (hrest _ hhead).2 rfl
  have hdigits : ((c :: cs).map byteOf).all isDigitByte = false := by
    rw [map_cons, all_cons, hc.digit, Bool.false_and]
  refine ⟨byteOf c, cs.map byteOf, congrArg (List.map byteOf) hcs, isSolid_of_isNameByte _ hc.name, ?_⟩
  rw [lexeme_name hname hc.dot hc.minus fun b hb => (hrest b hb).1, if_neg hcolon, hdigits, if_neg Bool.false_ne_true,
    ← hcs, String.ofList_toList, length_map]

theorem lexes_label (hs : isIdent literal) : Lexes ⟨.label, literal⟩ rest := by
  obtain ⟨c, cs, hcs, hc, hname⟩ := exists_of_isIdent hs
  refine ⟨byteOf c, (cs ++ [':']).map byteOf, ?_, isSolid_of_isNameByte _ hc.name, ?_⟩
  · rw [spelled]
    dsimp only
    rw [hcs, cons_append, map_cons]
  · -- the colon ends the name like any other byte, and is then taken with it
    have hbytes : (cs ++ [':']).map byteOf ++ rest = cs.map byteOf ++ (':'.toUInt8 :: rest) := by
      rw [map_append, append_assoc]
      rfl
    rw [hbytes, lexeme_name hname hc.dot hc.minus (by simp; decide), head?_cons, if_pos rfl, ← hcs,
      String.ofList_toList, length_map, length_append, length_singleton]

theorem lexes_int (v : Int64) (hrest : Stops rest) : Lexes ⟨.int, Text.decimal v⟩ rest := by
  -- A number has digits in any case; they are never the beginning of anything else.
  have hdigits : ∀ n, ∃ c cs, Nat.toDigits 10 n = c :: cs ∧ ∀ d ∈ c :: cs, d.isDigit := fun n => by
    obtain ⟨c, cs, hcs⟩ := exists_cons_of_ne_nil (Nat.toDigits_ne_nil (n := n) (b := 10))
    exact ⟨c, cs, hcs, fun d hd => Nat.isDigit_of_mem_toDigits (by decide) (by decide) (hcs ▸ hd)⟩
  have hcolon : rest.head? ≠ some ':'.toUInt8 := fun hhead => (hrest _ hhead).2 rfl
  have hspelled := Text.toList_decimal v
  split at hspelled
  · obtain ⟨c, cs, hcs, hdigit⟩ := hdigits v.toInt.toNat
    rw [hcs] at hspelled
    have hbyte : byteOf c ≠ '.'.toUInt8 ∧ byteOf c ≠ '-'.toUInt8 := by
      have hne : ∀ b, isDigitByte b → b ≠ '.'.toUInt8 ∧ b ≠ '-'.toUInt8 := forall_byte (by decide +kernel)
      exact hne _ (isDigitByte_byteOf (hdigit c mem_cons_self))
    have hname : ∀ d ∈ c :: cs, isNameChar d := fun d hd => Asm.isNameChar_of_isDigit (hdigit d hd)
    have hall : ((c :: cs).map byteOf).all isDigitByte :=
      all_eq_true.2 (forall_mem_map.2 fun d hd => isDigitByte_byteOf (hdigit d hd))
    refine ⟨byteOf c, cs.map byteOf, congrArg (List.map byteOf) hspelled,
      isSolid_of_isNameByte _ (isNameByte_byteOf (hname c mem_cons_self)), ?_⟩
    rw [lexeme_name hname hbyte.1 hbyte.2 fun b hb => (hrest b hb).1, if_neg hcolon, hall, if_pos rfl, ← hspelled,
      String.ofList_toList, length_map]
  · obtain ⟨c, cs, hcs, hdigit⟩ := hdigits (-v.toInt).toNat
    rw [hcs] at hspelled
    refine ⟨byteOf '-', (c :: cs).map byteOf, congrArg (List.map byteOf) hspelled, by decide, ?_⟩
    rw [lexeme_minus hdigit hrest, ← hspelled, String.ofList_toList, length_map, length_cons]

theorem lexes_mark {kind : TokenKind} {c : Char} (hname : kind.name.toList = [c]) (hkind : delimiter? (byteOf c) = some kind)
    (hspelled : spelled ⟨kind, kind.name⟩ = kind.name.toList) (hsolid : IsSolid (byteOf c)) :
    Lexes ⟨kind, kind.name⟩ rest := by
  refine ⟨byteOf c, [], by rw [hspelled, hname, map_singleton], hsolid, ?_⟩
  unfold lexeme
  rw [hkind]
  rfl

theorem Proper.lexes (h : s.Proper) (hrest : s.isOpen → Stops rest) : s.Lexes rest := by
  obtain ⟨kind, literal⟩ := s
  cases kind with
  | localName | globalName => exact lexes_sigil h rfl (fun _ => rfl) rfl (by decide) (by decide) (hrest rfl)
  | label => exact lexes_label h
  | word => exact lexes_word h (hrest rfl)
  | int =>
    obtain ⟨v, hv⟩ := h
    dsimp only at hv
    exact hv ▸ lexes_int v (hrest rfl)
  | assign | comma | leftParen | rightParen | leftBrace | rightBrace | leftBracket | rightBracket =>
    dsimp only [Proper] at h
    exact h ▸ lexes_mark rfl rfl rfl (by decide)
  | _ => exact absurd h id

theorem Proper.ascii (h : s.Proper) : ∀ c ∈ s.spelled, c.toNat < 128 ∧ c ≠ '\n' := by
  have hname : ∀ {c : Char}, isNameChar c → c.toNat < 128 ∧ c ≠ '\n' := fun hc =>
    ⟨toNat_lt_of_isNameChar hc, Asm.ne_of_isNameChar hc rfl⟩
  have hident : ∀ {literal : String}, isIdent literal → ∀ c ∈ literal.toList, c.toNat < 128 ∧ c ≠ '\n' := fun hs c hc => by
    obtain ⟨d, ds, hds, -, hall⟩ := exists_of_isIdent hs
    exact hname (hall c (hds ▸ hc))
  obtain ⟨kind, literal⟩ := s
  cases kind with
  | localName | globalName => exact forall_mem_cons.2 ⟨by decide, hident h⟩
  | label => exact forall_mem_append.2 ⟨hident h, forall_mem_singleton.2 (by decide)⟩
  | word => exact hident h
  | int =>
    obtain ⟨v, hv⟩ := h
    dsimp only at hv
    subst hv
    exact fun c hc => hname ((Asm.isName_decimal v).all c hc)
  | assign | comma | leftParen | rightParen | leftBrace | rightBrace | leftBracket | rightBracket =>
    dsimp only [Proper] at h
    subst h
    exact forall_mem_singleton.2 (by decide)
  | _ => exact absurd h id

theorem Proper.stops (h : s.Proper) (hbare : s.isBare = false) (rest : List UInt8) : Stops (s.spelled.map byteOf ++ rest) := by
  have hhead : ∀ (cs : List Char) {c : Char}, (isNameByte (byteOf c) = false ∧ byteOf c ≠ ':'.toUInt8) →
      Stops ((c :: cs).map byteOf ++ rest) := fun _ _ hc b hb => by
    cases hb
    exact hc
  obtain ⟨kind, literal⟩ := s
  cases kind with
  | localName | globalName => exact hhead _ (by decide)
  | label | word | int => cases hbare
  | assign | comma | leftParen | rightParen | leftBrace | rightBrace | leftBracket | rightBracket =>
    dsimp only [Proper] at h
    subst h
    exact hhead [] (by decide)
  | _ => exact absurd h id

end Shape

/-! ## Lines -/

/-- A part of a line: a space or a token. -/
inductive Glyph where
  | space
  | token (s : Shape)

namespace Glyph

def spelled : Glyph → List Char
  | space => [' ']
  | token s => s.spelled

def shape? : Glyph → Option Shape
  | space => none
  | token s => some s

end Glyph

def spelled (gs : List Glyph) : List Char := gs.flatMap Glyph.spelled

def shapes (gs : List Glyph) : List Shape := gs.filterMap Glyph.shape?

/-- What can follow a token that would go on with a byte of names. -/
def Apart : List Glyph → Prop
  | .token s :: _ => s.isBare = false
  | _ => True

/-- Proper tokens that stay apart. -/
def Legible : List Glyph → Prop
  | [] => True
  | .space :: gs => Legible gs
  | .token s :: gs => s.Proper ∧ (s.isOpen → Apart gs) ∧ Legible gs

variable {gs : List Glyph} {rest : List UInt8}

theorem Legible.ascii (h : Legible gs) : ∀ c ∈ spelled gs, c.toNat < 128 ∧ c ≠ '\n' := by
  induction gs with
  | nil => exact forall_mem_nil _
  | cons g gs ih =>
    refine forall_mem_append.2 ?_
    cases g with
    | space => exact ⟨forall_mem_singleton.2 (by decide), ih h⟩
    | token s => exact ⟨h.1.ascii, ih h.2.2⟩

theorem Legible.stops (h : Legible gs) (hapart : Apart gs) (rest : List UInt8) :
    Stops ((spelled gs).map byteOf ++ '\n'.toUInt8 :: rest) := by
  have hhead : ∀ {b : UInt8} {bytes : List UInt8}, (isNameByte b = false ∧ b ≠ ':'.toUInt8) → Stops (b :: bytes) :=
    fun hb _ hmem => by
      cases hmem
      exact hb
  cases gs with
  | nil => exact hhead (by decide)
  | cons g gs =>
    cases g with
    | space => exact hhead (by decide)
    | token s =>
      have := h.1.stops hapart ((spelled gs).map byteOf ++ '\n'.toUInt8 :: rest)
      rwa [← append_assoc, ← map_append] at this

/-! ## The beginning of a text -/

/-- The tokens `ts` stand at the beginning of a text, before `rest`. -/
def Leads (bytes : List UInt8) (p : Pos) (ts : List Token) (rest : List UInt8) (q : Pos) : Prop :=
  ∀ fuel, bytes.length < fuel → ∃ fuel', rest.length < fuel' ∧
    scanFrom fuel bytes p = ⟨ts ++ (scanFrom fuel' rest q).tokens, (scanFrom fuel' rest q).finish⟩

variable {bytes bytes' : List UInt8} {p q r : Pos} {ts us : List Token}

theorem Leads.refl (bytes : List UInt8) (p : Pos) : Leads bytes p [] bytes p := fun fuel hfuel => ⟨fuel, hfuel, rfl⟩

theorem Leads.trans (h : Leads bytes p ts bytes' q) (h' : Leads bytes' q us rest r) : Leads bytes p (ts ++ us) rest r := by
  intro fuel hfuel
  obtain ⟨fuel', hfuel', hscan⟩ := h fuel hfuel
  obtain ⟨fuel'', hfuel'', hscan'⟩ := h' fuel' hfuel'
  refine ⟨fuel'', hfuel'', ?_⟩
  rw [hscan, hscan', append_assoc]

theorem leads_space (hb : isSpaceByte b) (p : Pos) : Leads (b :: rest) p [] rest (p.after b) := by
  intro fuel hfuel
  obtain ⟨fuel, rfl⟩ := Nat.exists_eq_add_one_of_ne_zero (Nat.ne_of_gt (Nat.zero_lt_of_lt hfuel))
  refine ⟨fuel + 1, Nat.lt_of_succ_lt hfuel, ?_⟩
  have hskip : skipBlanks false (b :: rest) p = skipBlanks false rest (p.after b) := by
    rw [skipBlanks, if_pos hb]
  rw [scanFrom, scanFrom, nextToken, nextToken, hskip]
  rfl

theorem exists_advance (hbytes : ∀ b ∈ bytes, b ≠ '\n'.toUInt8) (rest : List UInt8) (p : Pos) :
    ∃ q, advance bytes.length (bytes ++ rest) p = (rest, q) ∧ q.line = p.line := by
  induction bytes generalizing p with
  | nil => exact ⟨p, rfl, rfl⟩
  | cons b bytes ih =>
    obtain ⟨hb, hbytes⟩ := forall_mem_cons.1 hbytes
    obtain ⟨q, hq, hline⟩ := ih hbytes (p.after b)
    refine ⟨q, hq, ?_⟩
    rw [hline, Pos.after, if_neg hb]

theorem exists_leads_token {s : Shape} (h : s.Proper) (hrest : s.isOpen → Stops rest) (p : Pos) :
    ∃ q, q.line = p.line ∧ Leads (s.spelled.map byteOf ++ rest) p [⟨s.kind, s.literal, p⟩] rest q := by
  obtain ⟨b, bs, hbytes, ⟨hspace, hcomment, hzero⟩, hlexeme⟩ := h.lexes hrest
  have hline : ∀ c ∈ b :: bs, c ≠ '\n'.toUInt8 := by
    rw [← hbytes]
    refine forall_mem_map.2 fun c hc => ?_
    obtain ⟨hascii, hne⟩ := h.ascii c hc
    exact forall_ascii (P := fun c => c ≠ '\n' → byteOf c ≠ '\n'.toUInt8) (by decide +kernel) hascii hne
  obtain ⟨q, hq, hqline⟩ := exists_advance hline rest p
  refine ⟨q, hqline, fun fuel hfuel => ?_⟩
  rw [hbytes, cons_append] at hfuel ⊢
  obtain ⟨fuel, rfl⟩ := Nat.exists_eq_add_one_of_ne_zero (Nat.ne_of_gt (Nat.zero_lt_of_lt hfuel))
  -- the token has a byte at least, so the fuel that is left is enough for the rest
  refine ⟨fuel, ?_, ?_⟩
  · simp only [length_cons, length_append] at hfuel
    omega
  · have hskip : skipBlanks false (b :: (bs ++ rest)) p = (b :: (bs ++ rest), p) := by
      rw [skipBlanks, hspace, if_neg Bool.false_ne_true, if_neg hcomment]
    have hadvance : advance (lexeme b (bs ++ rest)).size (b :: (bs ++ rest)) p = (rest, q) := by
      rw [hlexeme]
      exact hq
    have hnext : nextToken (b :: (bs ++ rest)) p = (⟨s.kind, s.literal, p⟩, rest, q) := by
      rw [nextToken, hskip]
      dsimp only
      rw [if_neg hzero, hadvance, hlexeme]
    have hkind : s.kind ≠ .eof := by
      have := (lexeme_takes b (bs ++ rest)).1
      rwa [hlexeme] at this
    rw [scanFrom, hnext]
    dsimp only
    rw [if_neg hkind]
    rfl

theorem exists_leads_line (h : Legible gs) (rest : List UInt8) (p : Pos) :
    ∃ ts, ts.map Token.shape = shapes gs ∧ (∀ t ∈ ts, t.pos.line = p.line) ∧
      Leads ((spelled gs).map byteOf ++ '\n'.toUInt8 :: rest) p ts rest ⟨p.line + 1, 1⟩ := by
  induction gs generalizing p with
  | nil => exact ⟨[], rfl, forall_mem_nil _, leads_space (by decide) p⟩
  | cons g gs ih =>
    have hbytes : (spelled (g :: gs)).map byteOf ++ '\n'.toUInt8 :: rest =
        g.spelled.map byteOf ++ ((spelled gs).map byteOf ++ '\n'.toUInt8 :: rest) := by
      rw [spelled, flatMap_cons, map_append, append_assoc]
      rfl
    rw [hbytes]
    cases g with
    | space =>
      obtain ⟨ts, hts, hline, hleads⟩ := ih h (p.after ' '.toUInt8)
      exact ⟨ts, hts, hline, (leads_space (by decide) p).trans hleads⟩
    | token s =>
      -- the token ends where it should by what follows it, which may be the end of the line
      obtain ⟨hs, hapart, hgs⟩ := h
      obtain ⟨q, hq, hfirst⟩ := exists_leads_token hs (fun hopen => hgs.stops (hapart hopen) rest) p
      obtain ⟨ts, hts, hline, hleads⟩ := ih hgs q
      rw [hq] at hline hleads
      exact ⟨⟨s.kind, s.literal, p⟩ :: ts, congrArg (s :: ·) hts, forall_mem_cons.2 ⟨rfl, hline⟩, hfirst.trans hleads⟩

/-- Tokens as they stand in lines, the first of which has the number `n`. -/
def Laid : Nat → List (List Shape) → List Token → Prop
  | _, [], ts => ts = []
  | n, line :: lines, ts => ∃ us vs, ts = us ++ vs ∧ us.map Token.shape = line ∧ (∀ t ∈ us, t.pos.line = n) ∧
      Laid (n + 1) lines vs

theorem exists_leads_lines (h : ∀ gs ∈ lines, Legible gs) (p : Pos) :
    ∃ ts q, Laid p.line (lines.map shapes) ts ∧
      Leads ((lines.flatMap fun gs => spelled gs ++ ['\n']).map byteOf) p ts [] q := by
  induction lines generalizing p with
  | nil => exact ⟨[], p, rfl, .refl [] p⟩
  | cons gs lines ih =>
    obtain ⟨hgs, hlines⟩ := forall_mem_cons.1 h
    obtain ⟨vs, q, hlaid, hrest⟩ := ih hlines ⟨p.line + 1, 1⟩
    obtain ⟨us, hus, hline, hfirst⟩ :=
      exists_leads_line hgs ((lines.flatMap fun gs => spelled gs ++ ['\n']).map byteOf) p
    refine ⟨us ++ vs, q, ⟨us, vs, rfl, hus, hline, hlaid⟩, ?_⟩
    rw [flatMap_cons, map_append, map_append, append_assoc]
    exact hfirst.trans hrest

/-- The tokens of a text that is written line by line. -/
theorem laid_scan {text : String} (htext : text.toList = lines.flatMap fun gs => spelled gs ++ ['\n'])
    (h : ∀ gs ∈ lines, Legible gs) : Laid 1 (lines.map shapes) (scan text).tokens := by
  have hascii : ∀ c ∈ text.toList, c.toNat < 128 := by
    rw [htext]
    intro c hc
    obtain ⟨gs, hgs, hc⟩ := mem_flatMap.1 hc
    rcases mem_append.1 hc with hc | hc
    · exact ((h gs hgs).ascii c hc).1
    · rw [mem_singleton.1 hc]
      decide
  obtain ⟨ts, q, hlaid, hleads⟩ := exists_leads_lines h ⟨1, 1⟩
  obtain ⟨fuel, hfuel, hscan⟩ := hleads _ (Nat.lt_succ_self _)
  obtain ⟨fuel, rfl⟩ := Nat.exists_eq_add_one_of_ne_zero (Nat.ne_of_gt hfuel)
  have htokens : (scan text).tokens = ts := by
    rw [scan, toList_toUTF8 hascii, htext, hscan]
    exact append_nil ts
  exact htokens ▸ hlaid

end RegisterCompiler.Llvm
