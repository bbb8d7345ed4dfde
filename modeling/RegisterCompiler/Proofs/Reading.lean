import RegisterCompiler.Llvm.Reader
import RegisterCompiler.Proofs.Spelling

/-!
# Names in LLVM text

What the names of functions and labels look like that are read from a text. A global name may be any text if it is quoted,
but it is not empty; a label is made of the characters of names. Blocks without a label are numbered.
-/

namespace RegisterCompiler.Llvm

open List
open Asm (isNameChar)

variable {bytes : List UInt8} {c : Prop} {closing : Token → Bool} {b : UInt8}

/-! ## Tokens -/

/-- A text that a token of the kind may have for its literal. -/
structure TokenKind.Admits (kind : TokenKind) (literal : String) : Prop where
  global : kind = .globalName → literal ≠ ""
  label : kind = .label → ∀ c ∈ literal.toList, isNameChar c

/-- What holds of the tokens of a text. -/
def Token.Proper (t : Token) : Prop := t.kind.Admits t.literal

/-- What is checked for the first 256 numbers holds of all bytes. -/
theorem forall_byte {P : UInt8 → Prop} (h : ∀ n < 256, P (UInt8.ofNat n)) (b : UInt8) : P b := by
  have hb := h b.toNat b.toNat_lt
  rwa [UInt8.ofNat_toNat] at hb

theorem isNameChar_ofNat : ∀ b : UInt8, isNameByte b → isNameChar (Char.ofNat b.toNat) :=
  forall_byte (by decide +kernel)

theorem isNameChar_of_mem_latin (h : ∀ b ∈ bytes, isNameByte b) : ∀ c ∈ (latin bytes).toList, isNameChar c := by
  intro c hc
  rw [latin, String.toList_ofList] at hc
  obtain ⟨b, hb, rfl⟩ := mem_map.1 hc
  exact isNameChar_ofNat b (h b hb)

theorem latin_ne_empty (h : bytes ≠ []) : latin bytes ≠ "" := by
  intro heq
  have hlist := congrArg String.toList heq
  rw [latin, String.toList_ofList] at hlist
  exact h (map_eq_nil_iff.1 hlist)

theorem decoded_ne_empty (h : bytes ≠ []) : decoded bytes ≠ "" := by
  unfold decoded String.fromUTF8?
  split
  · intro heq
    have hbytes := congrArg String.toByteArray heq
    exact h (congrArg (fun a : ByteArray => a.data.toList) hbytes)
  · exact latin_ne_empty h

theorem delimiter?_ne {kind : TokenKind} (h : delimiter? b = some kind) : kind ≠ .globalName ∧ kind ≠ .label := by
  have hne : ∀ b, delimiter? b ≠ some .globalName ∧ delimiter? b ≠ some .label := forall_byte (by decide +kernel)
  exact ⟨fun heq => (hne b).1 (heq ▸ h), fun heq => (hne b).2 (heq ▸ h)⟩

theorem sigilKind_ne (b : UInt8) : sigilKind b ≠ .label := by
  unfold sigilKind
  repeat' split
  all_goals decide

theorem admits_sigilLexeme (sigil : UInt8) (bytes : List UInt8) :
    (sigilLexeme sigil bytes).kind.Admits (sigilLexeme sigil bytes).literal := by
  have hillegal : ∀ literal, TokenKind.illegal.Admits literal := fun _ => ⟨nofun, nofun⟩
  have hsigil : ∀ literal, literal ≠ "" → (sigilKind sigil).Admits literal := fun literal h =>
    ⟨fun _ => h, fun hlabel => absurd hlabel (sigilKind_ne sigil)⟩
  cases bytes with
  | nil => exact hillegal _
  | cons b rest =>
    unfold sigilLexeme
    dsimp only
    split
    · exact ⟨nofun, nofun⟩
    · split
      · split
        · exact hillegal _
        · next hne => exact hsigil _ (decoded_ne_empty (mt List.isEmpty_iff.2 hne))
      · split
        · exact hillegal _
        · next hne => exact hsigil _ (latin_ne_empty (mt List.isEmpty_iff.2 hne))

theorem admits_nameLexeme (hb : isNameByte b) (bytes : List UInt8) :
    (nameLexeme b bytes).kind.Admits (nameLexeme b bytes).literal := by
  unfold nameLexeme
  dsimp only
  split
  · exact ⟨nofun, nofun⟩
  · split
    · refine ⟨nofun, fun _ => isNameChar_of_mem_latin (forall_mem_cons.2 ⟨hb, fun c hc => ?_⟩)⟩
      exact all_eq_true.1 all_takeWhile c hc
    · split <;> exact ⟨nofun, nofun⟩

theorem admits_lexeme (b : UInt8) (bytes : List UInt8) : (lexeme b bytes).kind.Admits (lexeme b bytes).literal := by
  unfold lexeme
  split
  · next kind hkind => exact ⟨fun h => absurd h (delimiter?_ne hkind).1, fun h => absurd h (delimiter?_ne hkind).2⟩
  · split
    · exact ⟨nofun, nofun⟩
    · split
      · exact admits_sigilLexeme b bytes
      · split
        · split <;> exact ⟨nofun, nofun⟩
        · split
          · next hb => exact admits_nameLexeme hb bytes
          · exact ⟨nofun, nofun⟩

theorem sigilLexeme_takes (sigil : UInt8) (bytes : List UInt8) :
    (sigilLexeme sigil bytes).kind ≠ .eof ∧ 0 < (sigilLexeme sigil bytes).size := by
  have hsigil : ∀ b, sigilKind b ≠ .eof := forall_byte (by decide +kernel)
  cases bytes with
  | nil => simp [sigilLexeme]
  | cons b rest =>
    unfold sigilLexeme
    dsimp only
    split
    · simp
    · split
      · split <;> simp [hsigil]
      · split <;> simp [hsigil]

theorem nameLexeme_takes (b : UInt8) (bytes : List UInt8) :
    (nameLexeme b bytes).kind ≠ .eof ∧ 0 < (nameLexeme b bytes).size := by
  unfold nameLexeme
  dsimp only
  split
  · simp
  · split
    · simp
    · split <;> simp

theorem lexeme_takes (b : UInt8) (bytes : List UInt8) : (lexeme b bytes).kind ≠ .eof ∧ 0 < (lexeme b bytes).size := by
  have hdelimiter : ∀ b, delimiter? b ≠ some .eof := forall_byte (by decide +kernel)
  unfold lexeme
  split
  · next kind hkind => exact ⟨fun heq => hdelimiter b (hkind.trans (congrArg some heq)), Nat.one_pos⟩
  · split
    · simp
    · split
      · exact sigilLexeme_takes b bytes
      · split
        · split <;> simp
        · split
          · exact nameLexeme_takes b bytes
          · simp

theorem proper_nextToken (bytes : List UInt8) (p : Pos) : (nextToken bytes p).1.Proper := by
  have heof : ∀ literal, TokenKind.eof.Admits literal := fun _ => ⟨nofun, nofun⟩
  unfold nextToken
  split
  · exact heof _
  · split
    · exact heof _
    · exact admits_lexeme _ _

theorem proper_of_mem_scanFrom {fuel : Nat} {p : Pos} : ∀ t ∈ (scanFrom fuel bytes p).tokens, t.Proper := by
  induction fuel generalizing bytes p with
  | zero => exact nofun
  | succ fuel ih =>
    unfold scanFrom
    dsimp only
    split
    · exact nofun
    · exact forall_mem_cons.2 ⟨proper_nextToken bytes p, ih⟩

theorem proper_of_mem_scan (source : String) : ∀ t ∈ (scan source).tokens, t.Proper := proper_of_mem_scanFrom

/-! ## Reading -/

/-- What was read before a reading gives up is gone all the same. -/
theorem run_bind {α β : Type} (r : Reading α) (k : α → Reading β) (c : Cursor) :
    (r >>= k).run c = ((r.run c).1.elim (pure none) fun a => (k a).run) (r.run c).2 := by
  rw [OptionT.run_bind]
  rfl

def Cursor.Proper (c : Cursor) : Prop := ∀ t ∈ c.stream.tokens, t.Proper

theorem Cursor.Proper.of_suffix {c c' : Cursor} (h : c.Proper) (hc : c'.stream.tokens <:+ c.stream.tokens) : c'.Proper :=
  fun t ht => h t (hc.subset ht)

/-- A reading that leaves a tail of proper tokens, whether it gives up or not, and whose result has a property. -/
def Keeps {α : Type} (r : Reading α) (post : α → Prop) : Prop :=
  ∀ c : Cursor, c.Proper → (r.run c).2.stream.tokens <:+ c.stream.tokens ∧ ∀ a, (r.run c).1 = some a → post a

namespace Keeps

variable {α β : Type} {r : Reading α} {p : α → Prop} {q : β → Prop} {k : α → Reading β}

theorem pure {a : α} (h : p a) : Keeps (Pure.pure a) p := fun _ _ => ⟨suffix_rfl, fun _ ha => Option.some.inj ha ▸ h⟩

theorem bind (h : Keeps r p) (hk : ∀ a, p a → Keeps (k a) q) : Keeps (r >>= k) q := by
  intro c hc
  obtain ⟨hsuffix, hpost⟩ := h c hc
  rw [run_bind]
  cases ha : (r.run c).1 with
  | none => exact ⟨hsuffix, nofun⟩
  | some a =>
    obtain ⟨hrest, hpost⟩ := hk a (hpost a ha) _ (hc.of_suffix hsuffix)
    exact ⟨hrest.trans hsuffix, hpost⟩

theorem andThen (h : Keeps r p) (hk : ∀ a, Keeps (k a) q) : Keeps (r >>= k) q := h.bind fun a _ => hk a

theorem done {f : α → β} (h : Keeps r p) : Keeps (r >>= fun a => Pure.pure (f a)) fun _ => True :=
  h.andThen fun _ => .pure trivial

theorem any (h : Keeps r p) : Keeps r fun _ => True := fun c hc => ⟨(h c hc).1, fun _ _ => trivial⟩

end Keeps

variable {α : Type} {p : α → Prop} {round : Reading (Option α)} {item : Reading α} {k : Unit → Reading α}

theorem keeps_remaining : Keeps remaining fun _ => True := fun _ _ => ⟨suffix_rfl, fun _ _ => trivial⟩

theorem keeps_current : Keeps current Token.Proper := by
  refine fun c hc => ⟨suffix_rfl, fun t ht => ?_⟩
  obtain rfl := Option.some.inj ht
  cases htokens : c.stream.tokens with
  | nil => exact ⟨nofun, nofun⟩
  | cons t rest => exact hc t (htokens ▸ mem_cons_self)

theorem keeps_peek : Keeps peek fun _ => True := fun _ _ => ⟨suffix_rfl, fun _ _ => trivial⟩

theorem keeps_modify {f : Cursor → Cursor} (h : ∀ c, (f c).stream.tokens <:+ c.stream.tokens) :
    Keeps (modify f : Reading Unit) fun _ => True :=
  fun c _ => ⟨h c, fun _ _ => trivial⟩

theorem keeps_skipTo {skip : List Token → List Token} (h : ∀ l, skip l <:+ l) : Keeps (skipTo skip) fun _ => True :=
  keeps_modify fun c => h c.stream.tokens

theorem keeps_next : Keeps next fun _ => True := keeps_skipTo tail_suffix

theorem keeps_reject (found : Token) (mistake : Mistake) : Keeps (reject found mistake : Reading α) p :=
  fun _ _ => ⟨suffix_rfl, nofun⟩

theorem keeps_ite_reject [Decidable c] {found : Token} {mistake : Mistake} (h : ¬c → Keeps (k ()) p) :
    Keeps (if c then reject found mistake >>= k else k ()) p := by
  split
  · exact (keeps_reject (p := fun _ => False) found mistake).bind fun _ => False.elim
  · next hc => exact h hc

theorem keeps_ite_step [Decidable c] {step : Reading Unit} (hstep : Keeps step fun _ => True) (h : Keeps (k ()) p) :
    Keeps (if c then step >>= k else k ()) p := by
  split
  · exact hstep.andThen fun _ => h
  · exact h

theorem keeps_failure : Keeps (failure : Reading α) p := fun _ _ => ⟨suffix_rfl, nofun⟩

theorem keeps_attempt {r : Reading α} (h : Keeps r p) : Keeps (attempt r) fun o => ∀ a ∈ o, p a :=
  fun c hc => ⟨(h c hc).1, fun _ ho a ha => (h c hc).2 a ((Option.some.inj ho).trans ha)⟩

theorem keeps_rounds (h : Keeps round fun o => ∀ a ∈ o, p a) (bound : Nat) :
    Keeps (rounds round bound) fun l => ∀ a ∈ l, p a := by
  induction bound with
  | zero => exact .pure nofun
  | succ bound ih =>
    refine h.bind fun o ho => ?_
    cases o with
    | none => exact .pure nofun
    | some a => exact ih.bind fun l hl => .pure (forall_mem_cons.2 ⟨ho a rfl, hl⟩)

theorem keeps_many (h : Keeps round fun o => ∀ a ∈ o, p a) : Keeps (many round) fun l => ∀ a ∈ l, p a :=
  keeps_remaining.andThen fun _ => keeps_rounds h _

theorem keeps_many_any (h : Keeps round fun _ => True) : Keeps (many round) fun _ => True :=
  (keeps_many (p := fun _ => True) fun c hc => ⟨(h c hc).1, fun _ _ _ _ => trivial⟩).any

theorem keeps_expect (kind : TokenKind) : Keeps (expect kind) fun _ => True := by
  refine keeps_current.andThen fun found => ?_
  split
  · exact keeps_next
  · exact keeps_reject _ _

theorem keeps_expectWord (word : String) : Keeps (expectWord word) fun _ => True := by
  refine keeps_current.andThen fun found => ?_
  split
  · exact keeps_next
  · exact keeps_reject _ _

theorem keeps_skipLine (line : Nat) : Keeps (skipLine line) fun _ => True := keeps_skipTo fun _ => dropWhile_suffix _

theorem keeps_nextItem (h : Keeps item fun _ => True) : Keeps (nextItem closing item) fun _ => True := by
  refine keeps_current.andThen fun comma => ?_
  split
  · exact .pure trivial
  · refine keeps_next.andThen fun _ => keeps_current.andThen fun after => ?_
    split
    · exact .pure trivial
    · exact h.done

theorem keeps_separated (h : Keeps item fun _ => True) : Keeps (separated closing item) fun _ => True := by
  refine keeps_current.andThen fun found => ?_
  split
  · exact .pure trivial
  · exact h.andThen fun first => (keeps_many_any (keeps_nextItem h)).done

/-! ## Types, operands and what is skipped -/

theorem keeps_readArrayHead : Keeps readArrayHead fun _ => True := by
  refine keeps_current.andThen fun bracket => ?_
  split
  · exact .pure trivial
  · refine keeps_next.andThen fun _ => keeps_current.andThen fun found => keeps_ite_reject fun _ => ?_
    exact keeps_next.andThen fun _ => (keeps_expectWord _).done

theorem keeps_closing (lengths : List Int64) : Keeps (lengths.forM fun _ => expect .rightBracket) fun _ => True := by
  induction lengths with
  | nil => exact .pure trivial
  | cons _ lengths ih => exact (keeps_expect _).andThen fun _ => ih

theorem keeps_readType : Keeps readType fun _ => True := by
  refine (keeps_many_any keeps_readArrayHead).andThen fun lengths => keeps_current.andThen fun found => ?_
  split
  · exact keeps_reject _ _
  · exact keeps_next.andThen fun _ => (keeps_closing lengths).done

theorem keeps_readValue : Keeps readValue fun _ => True := by
  refine keeps_current.andThen fun found => ?_
  split
  · exact keeps_next.done
  · exact keeps_next.done
  · refine keeps_next.andThen fun _ => ?_
    split
    · exact .pure trivial
    · exact keeps_reject _ _
  · split
    · exact keeps_next.done
    · exact keeps_reject _ _
  · exact keeps_reject _ _

theorem keeps_readTypedValue : Keeps readTypedValue fun _ => True :=
  keeps_readType.andThen fun _ => keeps_readValue.done

theorem skipGroup_cons (depth : Nat) (t : Token) (rest : List Token) : skipGroup depth (t :: rest) <:+ rest := by
  induction rest generalizing depth t with
  | nil =>
    have hrest : ∀ k, (if k = 0 then [] else skipGroup k []) <:+ ([] : List Token) := fun k => by
      split <;> exact suffix_rfl
    exact hrest _
  | cons u rest ih =>
    -- However deep the group is behind the first token, what is left is behind the second, or nothing more is taken.
    have hrest : ∀ k, (if k = 0 then u :: rest else skipGroup k (u :: rest)) <:+ u :: rest := fun k => by
      split
      · exact suffix_rfl
      · exact (ih k u).trans (suffix_cons u rest)
    exact hrest _

theorem skipGroup_suffix (depth : Nat) (tokens : List Token) : skipGroup depth tokens <:+ tokens := by
  cases tokens with
  | nil => exact suffix_rfl
  | cons t rest => exact (skipGroup_cons depth t rest).trans (suffix_cons t rest)

theorem keeps_skipAttribute : Keeps skipAttribute fun _ => True := by
  refine keeps_current.andThen fun found => ?_
  split
  · exact keeps_next.done
  · split
    · exact .pure trivial
    · refine keeps_next.andThen fun _ => keeps_current.andThen fun after => ?_
      split
      · exact (keeps_skipTo (skipGroup_suffix 0)).done
      · split
        · exact keeps_next.done
        · exact .pure trivial

theorem keeps_skipAttributes : Keeps skipAttributes fun _ => True :=
  (keeps_many_any keeps_skipAttribute).done

theorem keeps_skipFlags : Keeps skipFlags fun _ => True := keeps_skipTo fun _ => dropWhile_suffix _

/-! ## Instructions -/

/-- The operators of an instruction are among those that have names. -/
def Action.Named : Action → Prop
  | binop _ op _ _ _ => op ∈ BinOp.all
  | _ => True

theorem keeps_readPair : Keeps readPair fun _ => True :=
  keeps_readType.andThen fun _ => keeps_readValue.andThen fun _ => (keeps_expect _).andThen fun _ =>
    keeps_readValue.done

theorem keeps_readPointer : Keeps readPointer fun _ => True :=
  (keeps_expect _).andThen fun _ => (keeps_expectWord _).andThen fun _ => keeps_readValue

theorem keeps_readAlloca (result : String) : Keeps (readAlloca result) Action.Named := by
  refine keeps_readType.andThen fun _ => keeps_current.andThen fun _ => keeps_peek.andThen fun _ => ?_
  split
  · exact .pure trivial
  · refine keeps_next.andThen fun _ => keeps_readType.andThen fun _ => keeps_current.andThen fun _ => ?_
    exact keeps_ite_reject fun _ => keeps_next.andThen fun _ => .pure trivial

theorem keeps_readIndex : Keeps readIndex fun _ => True := by
  refine keeps_current.andThen fun _ => keeps_peek.andThen fun _ => ?_
  split
  · exact .pure trivial
  · exact keeps_next.andThen fun _ => keeps_skipFlags.andThen fun _ => keeps_readTypedValue.done

theorem keeps_readGep (result : String) : Keeps (readGep result) Action.Named :=
  keeps_readType.andThen fun _ => keeps_readPointer.andThen fun _ => (keeps_many_any keeps_readIndex).andThen fun _ =>
    .pure trivial

theorem keeps_readArg : Keeps readArg fun _ => True :=
  keeps_readType.andThen fun _ => keeps_skipAttributes.andThen fun _ => keeps_readValue.done

theorem keeps_readCall (result : String) : Keeps (readCall result) Action.Named := by
  refine keeps_skipAttributes.andThen fun _ => keeps_readType.andThen fun type => keeps_current.andThen fun found => ?_
  refine keeps_ite_step (keeps_skipTo (skipGroup_suffix 0)) (keeps_current.andThen fun callee => keeps_ite_reject fun _ => ?_)
  refine keeps_next.andThen fun _ => (keeps_expect _).andThen fun _ => (keeps_separated keeps_readArg).andThen fun _ => ?_
  exact (keeps_expect _).andThen fun _ => .pure trivial

theorem keeps_readIncoming : Keeps readIncoming fun _ => True := by
  refine (keeps_expect _).andThen fun _ => keeps_readValue.andThen fun _ => (keeps_expect _).andThen fun _ => ?_
  refine keeps_current.andThen fun _ => keeps_ite_reject fun _ => ?_
  exact keeps_next.andThen fun _ => (keeps_expect _).done

theorem keeps_readFurther : Keeps readFurther fun _ => True := by
  refine keeps_current.andThen fun _ => keeps_peek.andThen fun _ => ?_
  split
  · exact .pure trivial
  · exact keeps_next.andThen fun _ => keeps_readIncoming.done

theorem keeps_readPhi (result : String) : Keeps (readPhi result) Action.Named :=
  keeps_readType.andThen fun _ => keeps_readIncoming.andThen fun _ => (keeps_many_any keeps_readFurther).andThen fun _ =>
    .pure trivial

theorem keeps_readTarget : Keeps readTarget fun _ => True := by
  refine (keeps_expectWord _).andThen fun _ => keeps_current.andThen fun _ => keeps_ite_reject fun _ => ?_
  exact keeps_next.done

theorem keeps_readBranch : Keeps readBranch Action.Named := by
  refine keeps_current.andThen fun _ => ?_
  split
  · exact keeps_readTarget.andThen fun _ => .pure trivial
  · refine (keeps_expectWord _).andThen fun _ => keeps_readValue.andThen fun _ => (keeps_expect _).andThen fun _ => ?_
    refine keeps_readTarget.andThen fun _ => (keeps_expect _).andThen fun _ => keeps_readTarget.andThen fun _ => ?_
    exact .pure trivial

theorem keeps_readAction (op : Token) (result : String) : Keeps (readAction op result) Action.Named := by
  have hneed : Keeps (if result = "" then reject op (.noResult op.literal) else return ()) fun _ : Unit => True := by
    split
    · exact keeps_reject _ _
    · exact .pure trivial
  unfold readAction
  dsimp only
  split
  · exact hneed.andThen fun _ => keeps_readAlloca result
  · exact hneed.andThen fun _ => keeps_readType.andThen fun _ => keeps_readPointer.andThen fun _ => .pure trivial
  · exact keeps_readTypedValue.andThen fun _ => keeps_readPointer.andThen fun _ => .pure trivial
  · refine hneed.andThen fun _ => keeps_skipFlags.andThen fun _ => keeps_current.andThen fun _ => keeps_ite_reject fun _ => ?_
    exact keeps_next.andThen fun _ => keeps_readPair.andThen fun _ => .pure trivial
  · exact hneed.andThen fun _ => keeps_readGep result
  · exact keeps_readCall result
  · exact hneed.andThen fun _ => keeps_readPhi result
  · exact keeps_readBranch
  · refine keeps_readType.andThen fun type => ?_
    split
    · exact .pure trivial
    · exact keeps_readValue.andThen fun _ => .pure trivial
  · split
    · -- the only operators, which are found in the table of their names
      next binop hbinop =>
      exact hneed.andThen fun _ => keeps_readPair.andThen fun _ => .pure (mem_of_find?_eq_some hbinop)
    · split
      · refine hneed.andThen fun _ => keeps_readType.andThen fun _ => keeps_readValue.andThen fun _ => ?_
        exact (keeps_expectWord _).andThen fun _ => keeps_readType.andThen fun _ => .pure trivial
      · exact keeps_reject _ _

theorem keeps_readInstr : Keeps readInstr fun i => i.action.Named := by
  refine keeps_current.andThen fun start => keeps_peek.andThen fun after => ?_
  have hlast : ∀ op result, Keeps (do
      next
      skipFlags
      return (⟨start.pos, ← readAction op result⟩ : Instr)) fun i => i.action.Named := fun op result =>
    keeps_next.andThen fun _ => keeps_skipFlags.andThen fun _ => (keeps_readAction op result).bind fun _ h => .pure h
  -- with a result and without, a mark before the name of the instruction may be skipped
  dsimp only
  split
  · refine keeps_next.andThen fun _ => keeps_next.andThen fun _ => keeps_current.andThen fun op => keeps_ite_reject fun _ => ?_
    split
    · exact keeps_next.andThen fun _ => keeps_current.andThen fun op => hlast op _
    · exact hlast op _
  · refine keeps_current.andThen fun op => keeps_ite_reject fun _ => ?_
    split
    · exact keeps_next.andThen fun _ => keeps_current.andThen fun op => hlast op _
    · exact hlast op _

/-! ## Functions -/

/-- The label of a block is made of the characters of names, and so are the operators of its instructions. -/
structure Block.Named (b : Block) : Prop where
  label : ∀ c ∈ b.label.toList, isNameChar c
  action : ∀ i ∈ b.instrs, i.action.Named

structure Function.Named (f : Function) : Prop where
  name : f.name ≠ ""
  block : ∀ b ∈ f.blocks, b.Named

theorem keeps_implicitName : Keeps implicitName fun s => ∀ c ∈ s.toList, isNameChar c :=
  fun _ _ => ⟨suffix_rfl, fun _ hs => Option.some.inj hs ▸ (Asm.isName_decimal _).all⟩

theorem keeps_readParamName : Keeps readParamName fun _ => True := by
  refine keeps_skipAttributes.andThen fun _ => keeps_current.andThen fun name => ?_
  split
  · exact keeps_implicitName.any
  · split
    · refine (keeps_modify fun c => ?_).andThen fun _ => keeps_next.done
      split <;> exact suffix_rfl
    · exact keeps_next.done

theorem keeps_readParam (function : String) : Keeps (readParam function) fun _ => True := by
  refine keeps_current.andThen fun _ => keeps_ite_reject fun _ => ?_
  exact keeps_readType.andThen fun _ => keeps_readParamName.done

theorem keeps_readHead : Keeps readHead fun head => head.1 ≠ "" := by
  refine keeps_skipAttributes.andThen fun _ => keeps_readType.andThen fun _ => keeps_current.bind fun name hname => ?_
  refine keeps_ite_reject fun hkind => keeps_next.andThen fun _ => (keeps_expect _).andThen fun _ => ?_
  refine (keeps_separated (keeps_readParam _)).andThen fun _ => (keeps_expect _).andThen fun _ => .pure ?_
  -- The token has been tested to be a global name.
  exact hname.global (not_not.1 hkind)

theorem keeps_readLine : Keeps readLine fun o => ∀ line ∈ o, ∀ i ∈ line, i.action.Named := by
  refine keeps_current.andThen fun start => ?_
  split
  · exact .pure fun _ h => absurd h (Option.not_mem_none _)
  · refine (keeps_attempt keeps_readInstr).bind fun line hline => (keeps_skipLine _).andThen fun _ => .pure ?_
    exact fun _ h => Option.some.inj h ▸ hline

theorem keeps_readBlock : Keeps readBlock fun o => ∀ b ∈ o, b.Named := by
  refine keeps_current.bind fun start hstart => ?_
  split
  · exact .pure fun _ h => absurd h (Option.not_mem_none _)
  · -- what comes after the label, whether it is written or a number
    have hrest : ∀ label : String, (∀ c ∈ label.toList, isNameChar c) →
        Keeps (do
          let instrs ← many readLine
          return some (⟨start.pos, label, instrs.filterMap id⟩ : Block)) fun o => ∀ b ∈ o, b.Named := by
      refine fun label hlabel => (keeps_many keeps_readLine).bind fun lines hlines => .pure ?_
      rintro _ ⟨⟩
      refine ⟨hlabel, fun i hi => ?_⟩
      obtain ⟨line, hline, hi⟩ := mem_filterMap.1 hi
      exact hlines line hline i hi
    dsimp only
    split
    · next hkind => exact keeps_next.andThen fun _ => hrest _ (hstart.label hkind)
    · exact keeps_implicitName.bind fun label hlabel => hrest label hlabel

theorem keeps_readFunction : Keeps readFunction Function.Named := by
  have hreset : Keeps (modify fun c => { c with unnamed := 0 } : Reading Unit) fun _ => True :=
    keeps_modify fun _ => suffix_rfl
  refine keeps_current.andThen fun start => hreset.andThen fun _ => ?_
  refine keeps_next.andThen fun _ => (keeps_attempt keeps_readHead).bind fun head hhead => ?_
  cases head with
  | none => exact (keeps_skipTo fun _ => dropWhile_suffix _).andThen fun _ => keeps_next.andThen fun _ => keeps_failure
  | some head =>
    refine (keeps_skipTo fun _ => dropWhile_suffix _).andThen fun _ => (keeps_expect _).andThen fun _ => ?_
    refine (keeps_many keeps_readBlock).bind fun blocks hblocks => (keeps_expect _).andThen fun _ => .pure ?_
    exact ⟨hhead head rfl, hblocks⟩

theorem keeps_readTopLevel : Keeps readTopLevel fun o => ∀ line ∈ o, ∀ f ∈ line, f.Named := by
  refine keeps_current.andThen fun start => ?_
  split
  · exact .pure nofun
  · split
    · exact (keeps_attempt keeps_readFunction).bind fun f hf => .pure fun _ h => Option.some.inj h ▸ hf
    · exact (keeps_skipLine _).andThen fun _ => .pure fun _ h => Option.some.inj h ▸ nofun

theorem named_of_readFunctions (file source : String) : ∀ f ∈ (readFunctions file source).1, f.Named := by
  have hkeeps := (keeps_many keeps_readTopLevel ⟨file, scan source, [], 0⟩ (proper_of_mem_scan source)).2
  have heq : (readFunctions file source).1 =
      (((many readTopLevel).run ⟨file, scan source, [], 0⟩).1.getD []).filterMap id := rfl
  rw [heq]
  cases hlines : ((many readTopLevel).run ⟨file, scan source, [], 0⟩).1 with
  | none => exact nofun
  | some lines =>
    intro f hf
    obtain ⟨line, hline, hf⟩ := mem_filterMap.1 hf
    exact hkeeps lines hlines line hline f hf

end RegisterCompiler.Llvm
