import RegisterCompiler.Proofs.Labels
import RegisterCompiler.Proofs.Numerals
import RegisterCompiler.Proofs.Pieces

/-!
# The spelling of instructions

An instruction is spelled with a mnemonic, a tab and operands between commas. From that the same instruction is read, if
its registers and operators are those that have names, and if its label holds no character that would end it.
-/

namespace RegisterCompiler.Asm

open Success List
open Text (trimChars isBlank)

variable {name : String} {w : Width}

/-! ## Names and words -/

/-- The characters of plain names: letters, digits, `-`, `$`, `.` and `_`. -/
def isNameChar (c : Char) : Bool := c.isAlphanum || c == '-' || c == '$' || c == '.' || c == '_'

/-- A text over the characters of names. -/
structure IsName (cs : List Char) : Prop where
  ne_nil : cs ≠ []
  all : ∀ c ∈ cs, isNameChar c

/-- A text without blanks, commas and semicolons, which would end it. -/
structure IsWord (cs : List Char) : Prop where
  ne_nil : cs ≠ []
  all : ∀ c ∈ cs, isBlank c = false ∧ c ≠ ',' ∧ c ≠ ';'

theorem isName_iff {cs : List Char} : IsName cs ↔ cs ≠ [] ∧ cs.all isNameChar :=
  ⟨fun h => ⟨h.ne_nil, all_eq_true.2 h.all⟩, fun h => ⟨h.1, all_eq_true.1 h.2⟩⟩

instance (cs : List Char) : Decidable (IsName cs) := decidable_of_iff _ isName_iff.symm

theorem isWord_iff {cs : List Char} : IsWord cs ↔ cs ≠ [] ∧ cs.all fun c => !isBlank c && c != ',' && c != ';' := by
  simp only [all_eq_true, Bool.and_eq_true, Bool.not_eq_true', bne_iff_ne, and_assoc]
  exact ⟨fun h => ⟨h.ne_nil, h.all⟩, fun h => ⟨h.1, h.2⟩⟩

instance (cs : List Char) : Decidable (IsWord cs) := decidable_of_iff _ isWord_iff.symm

theorem toNat_of_isNameChar {c : Char} (h : isNameChar c) : 33 ≤ c.toNat ∧ c.toNat ≤ 122 := by
  simp only [isNameChar, Char.isAlphanum, Char.isAlpha, Char.isUpper, Char.isLower, Char.isDigit, Bool.or_eq_true,
    Bool.and_eq_true, decide_eq_true_eq, beq_iff_eq, UInt32.le_iff_toNat_le, ge_iff_le, Char.reduceVal,
    UInt32.reduceToNat] at h
  rcases h with ((((((h | h) | h) | rfl) | rfl) | rfl) | rfl)
  all_goals first | decide | exact ⟨by change _ ≤ c.val.toNat; omega, by change c.val.toNat ≤ _; omega⟩

theorem isBlank_of_isNameChar {c : Char} (h : isNameChar c) : isBlank c = false := by
  have := toNat_of_isNameChar h
  simp only [isBlank, Bool.or_eq_false_iff, Bool.and_eq_false_iff, decide_eq_false_iff_not, beq_eq_false_iff_ne]
  omega

theorem ne_of_isNameChar {c d : Char} (h : isNameChar c) (hd : isNameChar d = false) : c ≠ d := by
  rintro rfl
  rw [h] at hd
  cases hd

theorem isNameChar_of_isDigit {c : Char} (h : c.isDigit) : isNameChar c := by simp [isNameChar, Char.isAlphanum, h]

theorem IsName.isWord {cs : List Char} (h : IsName cs) : IsWord cs where
  ne_nil := h.ne_nil
  all c hc := ⟨isBlank_of_isNameChar (h.all c hc), ne_of_isNameChar (h.all c hc) rfl, ne_of_isNameChar (h.all c hc) rfl⟩

theorem IsName.notMem {cs : List Char} (h : IsName cs) {d : Char} (hd : isNameChar d = false) : d ∉ cs :=
  fun hmem => ne_of_isNameChar (h.all d hmem) hd rfl

theorem isName_name {r : Reg} (h : r.num < 18) : IsName r.name.toList := by
  have hall : ∀ n < 18, IsName (Reg.name ⟨UInt8.ofNat n⟩).toList := by decide +kernel
  have := hall r.num.toNat (UInt8.lt_iff_toNat_lt.1 h)
  rwa [UInt8.ofNat_toNat] at this

theorem isName_decimal (v : Int64) : IsName (Text.decimal v).toList where
  ne_nil := Text.decimal_ne_nil v
  all c hc := by
    rcases Text.mem_decimal hc with h | rfl
    · exact isNameChar_of_isDigit h
    · rfl

/-! ## Operands -/

/-- A text over the characters of names and the signs of constants and scales: a register, a constant or a scaled
    register. -/
structure IsPlain (cs : List Char) : Prop where
  ne_nil : cs ≠ []
  all : ∀ c ∈ cs, isNameChar c ∨ c = '#' ∨ c = '*'

theorem IsName.isPlain {cs : List Char} (h : IsName cs) : IsPlain cs := ⟨h.ne_nil, fun c hc => .inl (h.all c hc)⟩

namespace IsPlain

variable {cs : List Char} {c : Char}

theorem isWord (h : IsPlain cs) : IsWord cs where
  ne_nil := h.ne_nil
  all c hc := by
    rcases h.all c hc with hc | rfl | rfl
    · exact ⟨isBlank_of_isNameChar hc, ne_of_isNameChar hc rfl, ne_of_isNameChar hc rfl⟩
    · decide
    · decide

theorem unbracketed (h : IsPlain cs) : ∀ c ∈ cs, c ≠ '[' ∧ c ≠ ']' := fun c hc => by
  rcases h.all c hc with hc | rfl | rfl
  · exact ⟨ne_of_isNameChar hc rfl, ne_of_isNameChar hc rfl⟩
  · decide
  · decide

theorem trimChars_eq (h : IsPlain cs) : trimChars cs = cs := Text.trimChars_of_forall fun c hc => (h.isWord.all c hc).1

end IsPlain

/-- The separators of operands are not among the characters that mean something in or behind them. -/
theorem ne_of_mem_separator : ∀ c ∈ [',', ' '], c ≠ '[' ∧ c ≠ ']' ∧ c ≠ ';' ∧ c ≠ '\n' :=
  forall_mem_cons.2 ⟨by decide, forall_mem_singleton.2 (by decide)⟩

/-- A text that is read as the last operand of a line. -/
structure IsOperand (cs : List Char) : Prop where
  ne_nil : cs ≠ []
  whole : splitOuter 0 cs = [cs]
  first : ∀ c ∈ cs.head?, isBlank c = false
  last : ∀ c ∈ cs.getLast?, isBlank c = false
  all : ∀ c ∈ cs, c ≠ ';' ∧ c ≠ '\n'

theorem IsWord.isOperand {cs : List Char} (h : IsWord cs) : IsOperand cs where
  ne_nil := h.ne_nil
  whole := splitOuter_of_notMem (fun hmem => (h.all _ hmem).2.1 rfl) 0
  first c hc := (h.all c (mem_of_mem_head? hc)).1
  last c hc := (h.all c (mem_of_mem_getLast? hc)).1
  all c hc := ⟨(h.all c hc).2.2, by rintro rfl; cases (h.all _ hc).1⟩

/-- The characters that cannot stand in a label that is read: those that end it, or the line, or begin a comment. -/
def endsLabel (c : Char) : Bool := c == ' ' || c == '\t' || c == '\n' || c == ';'

/-- A text that is read as a label if a colon follows. -/
structure IsLabel (cs : List Char) : Prop where
  first : ∀ c ∈ cs.head?, isBlank c = false
  all : ∀ c ∈ cs, endsLabel c = false

theorem IsWord.isLabel {cs : List Char} (h : IsWord cs) : IsLabel cs := by
  refine ⟨h.isOperand.first, fun c hc => ?_⟩
  have hother : ∀ d, isBlank d → c ≠ d := by
    rintro d hd rfl
    rw [(h.all c hc).1] at hd
    cases hd
  simp [endsLabel, hother ' ' rfl, hother '\t' rfl, hother '\n' rfl, (h.all c hc).2.2]

theorem readReg_name {r : Reg} (h : r.num < 18) : readReg r.name.toList = .ok r := by
  rw [readReg, String.ofList_toList, Reg.ofName?_name h]

theorem toList_shownImm (v : Int64) : (shownImm v).toList = '#' :: (Text.decimal v).toList := by
  simp [shownImm]

theorem readImm_shownImm (v : Int64) : readImm (shownImm v).toList = .ok v := by
  rw [toList_shownImm, readImm, String.ofList_toList, Text.readSigned_decimal]
  rfl

theorem isPlain_shownImm (v : Int64) : IsPlain (shownImm v).toList := by
  rw [toList_shownImm]
  exact ⟨by simp, forall_mem_cons.2 ⟨.inr (.inl rfl), (isName_decimal v).isPlain.all⟩⟩

namespace Scaled

variable {s : Scaled}

theorem toList_shown (s : Scaled) : s.shown.toList = s.reg.name.toList ++ '*' :: (Text.decimal s.scale).toList := by
  simp [shown]

theorem isPlain_shown (h : s.reg.num < 18) : IsPlain s.shown.toList := by
  rw [toList_shown]
  refine ⟨by simp, forall_mem_append.2 ⟨(isName_name h).isPlain.all, ?_⟩⟩
  exact forall_mem_cons.2 ⟨.inr (.inr rfl), (isName_decimal s.scale).isPlain.all⟩

end Scaled

namespace Addr

def regs (a : Addr) : List Reg := a.base :: (a.index.map Scaled.reg).toList

/-- The components of a memory operand behind its base register. -/
def components (a : Addr) : List (List Char) :=
  ((a.index.map Scaled.shown).toList ++ if a.offset = 0 then [] else [shownImm a.offset]).map String.toList

variable {a : Addr}

theorem toList_shown (a : Addr) :
    a.shown.toList = '[' :: ([',', ' '].intercalate (a.base.name.toList :: a.components) ++ [']']) := by
  simp [shown, components, String.toList_intercalate]

theorem isPlain_of_mem (h : ∀ r ∈ a.regs, r.num < 18) : ∀ u ∈ a.base.name.toList :: a.components, IsPlain u := by
  refine forall_mem_cons.2 ⟨(isName_name (h _ mem_cons_self)).isPlain, fun u hu => ?_⟩
  obtain ⟨s, hs, rfl⟩ := mem_map.1 hu
  rcases mem_append.1 hs with hs | hs
  · obtain ⟨x, hx, rfl⟩ := Option.map_eq_some_iff.1 (Option.mem_toList.1 hs)
    exact Scaled.isPlain_shown (h _ (by simp [regs, hx]))
  · split at hs
    · cases hs
    · cases mem_singleton.1 hs
      exact isPlain_shownImm _

theorem addComponent_scaled {s : Scaled} (h : s.reg.num < 18) (a : Addr) :
    a.addComponent s.shown.toList = .ok { a with index := some s } := by
  have hname := isName_name h
  have hhead : s.shown.toList.head? ≠ some '#' := by
    rw [Scaled.toList_shown, head?_append_of_ne_nil _ hname.ne_nil]
    exact fun heq => hname.notMem rfl (mem_of_mem_head? heq)
  rw [addComponent, if_neg hhead, Scaled.toList_shown, cut_append (hname.notMem rfl)]
  simp only [readReg_name h, String.ofList_toList, Text.readSigned_decimal]
  rfl

theorem addComponent_imm (v : Int64) (a : Addr) : a.addComponent (shownImm v).toList = .ok { a with offset := v } := by
  rw [addComponent, if_pos (by rw [toList_shownImm]; rfl), readImm_shownImm]
  rfl

theorem foldlM_components (h : ∀ r ∈ a.regs, r.num < 18) :
    a.components.foldlM addComponent { base := a.base } = .ok a := by
  obtain ⟨base, index, offset⟩ := a
  -- An offset of zero is not written, and an address without one has the offset zero.
  have hoffset : ∀ b : Addr, b.offset = 0 →
      ((if offset = 0 then [] else [shownImm offset]).map String.toList).foldlM addComponent b = .ok { b with offset } := by
    rintro b hb
    split
    · next hzero =>
      subst hzero
      rw [← hb]
      rfl
    · rw [map_cons, foldlM_cons, addComponent_imm]
      rfl
  cases index with
  | none => exact hoffset _ rfl
  | some s =>
    rw [show components ⟨base, some s, offset⟩ =
      s.shown.toList :: (if offset = 0 then [] else [shownImm offset]).map String.toList from rfl, foldlM_cons,
      addComponent_scaled (h s.reg (by simp [regs]))]
    exact hoffset _ rfl

theorem readAddr_shown (h : ∀ r ∈ a.regs, r.num < 18) : readAddr a.shown.toList = .ok a := by
  have hpieces := map_splitAt_intercalate (cons_ne_nil a.base.name.toList a.components) fun u hu =>
    have hu := isPlain_of_mem h u hu
    ⟨fun hcomma => (hu.isWord.all _ hcomma).2.1 rfl, hu.trimChars_eq⟩
  have hinner : ∀ inner : List Char, bracketed? ('[' :: (inner ++ [']'])) = some inner := fun inner => by
    simp [bracketed?]
  rw [readAddr, toList_shown, hinner]
  simp only [hpieces, readReg_name (h _ mem_cons_self)]
  exact foldlM_components h

theorem isOperand_shown (h : ∀ r ∈ a.regs, r.num < 18) : IsOperand a.shown.toList := by
  have hinner : ∀ c ∈ [',', ' '].intercalate (a.base.name.toList :: a.components),
      c ≠ '[' ∧ c ≠ ']' ∧ c ≠ ';' ∧ c ≠ '\n' := fun c hc => by
    rcases mem_of_mem_intercalate hc with hc | ⟨u, hu, hc⟩
    · exact ne_of_mem_separator c hc
    · have hu := isPlain_of_mem h u hu
      exact ⟨(hu.unbracketed c hc).1, (hu.unbracketed c hc).2, hu.isWord.isOperand.all c hc⟩
  -- The commas are between brackets, and there are no other brackets.
  rw [toList_shown]
  refine ⟨by simp, splitOuter_bracketed fun c hc => ⟨(hinner c hc).1, (hinner c hc).2.1⟩, ?_, ?_, ?_⟩
  · rintro c ⟨⟩
    rfl
  · intro c hc
    rw [← cons_append, getLast?_concat] at hc
    cases hc
    rfl
  · refine forall_mem_cons.2 ⟨by decide, forall_mem_append.2 ⟨fun c hc => (hinner c hc).2.2,
      forall_mem_singleton.2 (by decide)⟩⟩

end Addr

/-! ## Mnemonics -/

theorem splitAt_bits (w : Width) : splitAt '.' (toString w.bits.toNat).toList = [(toString w.bits.toNat).toList] := by
  refine splitAt_of_notMem fun hdot => ?_
  rw [Nat.toString_eq_ofList_toDigits, String.toList_ofList] at hdot
  cases Nat.isDigit_of_mem_toDigits (by decide) (by decide) hdot

theorem toList_suffixed (name : String) (w : Width) :
    (suffixed name w).toList = name.toList ++ '.' :: (toString w.bits.toNat).toList := by
  simp [suffixed]

/-- A text is read as a name with a width as its suffix. The width may be any number whose last eight binary digits are
    its bits. -/
def Spells (name : String) (w : Width) (m : List Char) : Prop :=
  ∃ bits n, m = name.toList ++ '.' :: bits ∧ '.' ∉ bits ∧ Text.readSigned (String.ofList bits) = .ok n ∧
    n.toUInt64.toUInt8 = w.bits ∧ w.isValid

theorem spells_suffixed (name : String) (hw : w.isValid) : Spells name w (suffixed name w).toList := by
  have hall : ∀ w ∈ Width.all, ∃ n, Text.readSigned (String.ofList (toString w.bits.toNat).toList) = .ok n ∧
      n.toUInt64.toUInt8 = w.bits := by
    simp only [Width.all, forall_mem_cons]
    exact ⟨⟨8, by decide +kernel⟩, ⟨16, by decide +kernel⟩, ⟨32, by decide +kernel⟩, ⟨64, by decide +kernel⟩,
      forall_mem_nil _⟩
  obtain ⟨n, hread, hn⟩ := hall w (contains_iff_mem.1 hw)
  exact ⟨_, n, toList_suffixed name w, (eq_of_splitAt_singleton (splitAt_bits w)).2, hread, hn, hw⟩

theorem suffixed_inj {name' : String} (h : suffixed name w = suffixed name' w) : name = name' := by
  simpa [← String.toList_inj, toList_suffixed] using h

theorem Spells.exists_splitAt {m : List Char} (h : Spells name w m) :
    ∃ bits, splitAt '.' m = splitAt '.' name.toList ++ [bits] ∧ readWidth bits = .ok w := by
  obtain ⟨bits, n, rfl, hdot, hread, hn, hw⟩ := h
  refine ⟨bits, ?_, ?_⟩
  · rw [splitAt_append_cons, splitAt_of_notMem hdot]
  · have hwidth : (⟨n.toUInt64.toUInt8⟩ : Width) = w := by rw [hn]
    rw [readWidth, hread]
    dsimp only
    rw [hwidth, if_pos hw]

/-- A mnemonic is a name that begins with a letter. -/
structure IsMnemonic (cs : List Char) : Prop extends IsName cs where
  head : cs.head? ≠ some '.'

theorem isMnemonic_iff {cs : List Char} : IsMnemonic cs ↔ IsName cs ∧ cs.head? ≠ some '.' :=
  ⟨fun h => ⟨h.toIsName, h.head⟩, fun h => ⟨h.1, h.2⟩⟩

instance (cs : List Char) : Decidable (IsMnemonic cs) := decidable_of_iff _ isMnemonic_iff.symm

theorem isMnemonic_suffixed (h : IsMnemonic name.toList) (w : Width) : IsMnemonic (suffixed name w).toList := by
  rw [toList_suffixed]
  refine ⟨⟨by simp, forall_mem_append.2 ⟨h.all, forall_mem_cons.2 ⟨rfl, fun c hc => ?_⟩⟩⟩, ?_⟩
  · rw [Nat.toString_eq_ofList_toDigits, String.toList_ofList] at hc
    exact isNameChar_of_isDigit (Nat.isDigit_of_mem_toDigits (by decide) (by decide) hc)
  · rw [head?_append_of_ne_nil _ h.ne_nil]
    exact h.head

/-! ## Instructions -/

namespace OperandReader

variable {α β γ : Type} {u v : List Char} {us us' : List (List Char)}

theorem run_bind_of {x : OperandReader α} {f : α → OperandReader β} {a : α} (h : x.run us = .ok (a, us')) :
    (x >>= f).run us = (f a).run us' := by
  rw [StateT.run_bind, h]
  rfl

theorem run_map {x : OperandReader α} {f : α → β} {a : α} (hx : x.run [u] = .ok (a, [])) :
    (do return f (← x)).run [u] = .ok (f a, []) := by
  rw [run_bind_of hx]
  rfl

theorem run_map₂ {x : OperandReader α} {y : OperandReader β} {f : α → β → γ} {a : α} {b : β}
    (hx : x.run [u, v] = .ok (a, [v])) (hy : y.run [v] = .ok (b, [])) :
    (do return f (← x) (← y)).run [u, v] = .ok (f a b, []) := by
  rw [run_bind_of hx, run_bind_of hy]
  rfl

theorem run_next : next.run (u :: us) = .ok (u, us) := rfl

theorem run_liftM {x : Except LineError α} {a : α} (h : x = .ok a) : (liftM x : OperandReader α).run us = .ok (a, us) := by
  rw [h]
  rfl

theorem run_reg {r : Reg} (h : r.num < 18) : reg.run (r.name.toList :: us) = .ok (r, us) := by
  rw [reg, run_bind_of run_next]
  exact run_liftM (readReg_name h)

theorem run_imm (v : Int64) : imm.run ((shownImm v).toList :: us) = .ok (v, us) := by
  rw [imm, run_bind_of run_next]
  exact run_liftM (readImm_shownImm v)

theorem run_addr {a : Addr} (h : ∀ r ∈ a.regs, r.num < 18) : addr.run (a.shown.toList :: us) = .ok (a, us) := by
  rw [addr, run_bind_of run_next]
  exact run_liftM (Addr.readAddr_shown h)

theorem run_label (l : Label) : label.run (l.toList :: us) = .ok (l, us) := by
  change Except.ok (String.ofList l.toList, us) = _
  rw [String.ofList_toList]

section

variable {ofReg : Reg → Reg → Reg → Instr} {ofImm : Reg → Reg → Int64 → Instr} {d x y : Reg}

theorem run_binary_reg (hd : d.num < 18) (hx : x.num < 18) (hy : y.num < 18) :
    (binary ofReg ofImm).run [d.name.toList, x.name.toList, y.name.toList] = .ok (ofReg d x y, []) := by
  have himm : atImm.run [y.name.toList] = .ok (false, [y.name.toList]) := by
    have hget : (get : OperandReader _).run [y.name.toList] = .ok ([y.name.toList], [y.name.toList]) := rfl
    rw [atImm, run_bind_of hget]
    split
    · next heq =>
      obtain ⟨heq, -⟩ := List.cons.inj heq
      exact absurd (heq ▸ mem_cons_self) ((isName_name hy).notMem (d := '#') rfl)
    · rfl
  rw [binary, run_bind_of (run_reg hd), run_bind_of (run_reg hx), run_bind_of himm, if_neg (by decide),
    run_bind_of (run_reg hy)]
  rfl

theorem run_binary_imm (hd : d.num < 18) (hx : x.num < 18) (v : Int64) :
    (binary ofReg ofImm).run [d.name.toList, x.name.toList, (shownImm v).toList] = .ok (ofImm d x v, []) := by
  have himm : atImm.run [(shownImm v).toList] = .ok (true, [(shownImm v).toList]) := by
    rw [toList_shownImm]
    rfl
  rw [binary, run_bind_of (run_reg hd), run_bind_of (run_reg hx), run_bind_of himm, if_pos rfl, run_bind_of (run_imm v)]
  rfl

end

end OperandReader

namespace Instr

def regs : Instr → List Reg
  | mov _ d s | sext _ d s | zext _ d s => [d, s]
  | movImm _ d _ => [d]
  | alu _ _ d x y | cmp _ _ d x y => [d, x, y]
  | aluImm _ _ d x _ | cmpImm _ _ d x _ => [d, x]
  | load _ r a | store _ r a | lea r a => r :: a.regs
  | push r | pop r | jumpZero r _ | jumpNonzero r _ => [r]
  | jump _ | call _ | ret | halt | label _ | comment _ => []

def op? : Instr → Option BinOp
  | alu op .. | aluImm op .. => some op
  | _ => none

def cond? : Instr → Option Cond
  | cmp c .. | cmpImm c .. => some c
  | _ => none

/-- An instruction over the registers of the file, the operators and the comparisons that there are. -/
structure Standard (i : Instr) : Prop where
  regs : ∀ r ∈ i.regs, r.num < 18
  op : ∀ op ∈ i.op?, op ∈ BinOp.all
  cond : ∀ c ∈ i.cond?, c ∈ Cond.all

variable {i : Instr}

theorem standard_iff : i.Standard ↔
    (∀ r ∈ i.regs, r.num < 18) ∧ (∀ op ∈ i.op?, op ∈ BinOp.all) ∧ ∀ c ∈ i.cond?, c ∈ Cond.all :=
  ⟨fun h => ⟨h.regs, h.op, h.cond⟩, fun ⟨hregs, hop, hcond⟩ => ⟨hregs, hop, hcond⟩⟩

instance (i : Instr) : Decidable i.Standard := decidable_of_iff _ standard_iff.symm

theorem isMnemonic_mnemonic (hi : i.Standard) (hsilent : i.isSilent = false) : IsMnemonic i.mnemonic.toList := by
  have hop : ∀ op ∈ BinOp.all, IsMnemonic op.name.toList := by decide +kernel
  have hcond : ∀ c ∈ Cond.all, IsMnemonic ("cmp." ++ c.name).toList := by decide +kernel
  cases i with
  | alu op | aluImm op => exact isMnemonic_suffixed (hop op (hi.op op rfl)) _
  | cmp c | cmpImm c => exact isMnemonic_suffixed (hcond c (hi.cond c rfl)) _
  | mov | movImm | sext | zext | load | store => exact isMnemonic_suffixed (by decide +kernel) _
  | lea | push | pop | jump | jumpZero | jumpNonzero | call | ret | halt =>
    rw [mnemonic]
    decide +kernel
  | label | comment => cases hsilent

/-- How the mnemonic of an instruction may be spelled. Where it has no width, anything may follow behind a dot. -/
def Spelled (i : Instr) (m : List Char) : Prop :=
  match i.width? with
  | none => m = i.mnemonic.toList ∨ ∃ rest, m = i.mnemonic.toList ++ '.' :: rest
  | some w => ∃ name, i.mnemonic = suffixed name w ∧ Spells name w m

theorem spelled_mnemonic (hw : ∀ w ∈ i.width?, w.isValid) : i.Spelled i.mnemonic.toList := by
  unfold Spelled
  split
  · exact .inl rfl
  · next w hwidth =>
    obtain ⟨name, hname⟩ : ∃ name, i.mnemonic = suffixed name w := by
      cases i <;> cases hwidth <;> exact ⟨_, rfl⟩
    rw [hname]
    exact ⟨name, rfl, spells_suffixed name (hw w hwidth)⟩

theorem readMnemonic_suffixed {r : Width → OperandReader Instr} {m : List Char} (hdot : '.' ∉ name.toList)
    (hname : ∀ m bits, splitAt '.' m = [name.toList, bits] → readMnemonic m = r <$> readWidth bits) (hm : Spells name w m) :
    readMnemonic m = .ok (r w) := by
  obtain ⟨bits, hsplit, hread⟩ := hm.exists_splitAt
  rw [splitAt_of_notMem hdot] at hsplit
  rw [hname _ bits hsplit, hread]
  rfl

/-- The same for a mnemonic with two operands, each of a kind of its own. -/
theorem exists_reader_suffixed {α β : Type} {x : OperandReader α} {y : OperandReader β} {u v : List Char} {a : α}
    {b : β} (f : Width → α → β → Instr) (hdot : '.' ∉ name.toList)
    (hname : ∀ m bits, splitAt '.' m = [name.toList, bits] →
      readMnemonic m = (fun w => do return f w (← x) (← y)) <$> readWidth bits)
    (hx : x.run [u, v] = .ok (a, [v])) (hy : y.run [v] = .ok (b, [])) :
    ∃ r, (∀ m, (∃ name', suffixed name w = suffixed name' w ∧ Spells name' w m) → readMnemonic m = .ok r) ∧
      r.run [u, v] = .ok (f w a b, []) := by
  refine ⟨_, ?_, OperandReader.run_map₂ hx hy⟩
  rintro m ⟨name', heq, hm⟩
  exact readMnemonic_suffixed hdot hname (suffixed_inj heq ▸ hm)

theorem readMnemonic_alu {op : BinOp} {m : List Char} (hop : op ∈ BinOp.all)
    (hm : ∃ name, suffixed op.name w = suffixed name w ∧ Spells name w m) :
    readMnemonic m = .ok (OperandReader.binary (alu op w) (aluImm op w)) := by
  have hdot : ∀ op ∈ BinOp.all, '.' ∉ op.name.toList := by decide +kernel
  obtain ⟨name, heq, hm⟩ := hm
  obtain rfl := suffixed_inj heq
  refine readMnemonic_suffixed (r := fun w => .binary (alu op w) (aluImm op w)) (hdot op hop) (fun m bits hsplit => ?_) hm
  simp only [BinOp.all, mem_cons, not_mem_nil, or_false] at hop
  rcases hop with rfl | rfl | rfl | rfl | rfl | rfl | rfl | rfl | rfl | rfl | rfl | rfl | rfl
  all_goals
    simp only [BinOp.name, BinOp.name?, Option.getD_some] at hsplit
    simp [readMnemonic, hsplit]
    rfl

theorem readMnemonic_cmp {c : Cond} {m : List Char} (hc : c ∈ Cond.all)
    (hm : ∃ name, suffixed ("cmp." ++ c.name) w = suffixed name w ∧ Spells name w m) :
    readMnemonic m = .ok (OperandReader.binary (cmp c w) (cmpImm c w)) := by
  have hname : ∀ c ∈ Cond.all, Cond.ofName? c.name = some c := by decide +kernel
  have hparts : ∀ c ∈ Cond.all, splitAt '.' ("cmp." ++ c.name).toList = ["cmp".toList, c.name.toList] := by decide +kernel
  obtain ⟨name, heq, hm⟩ := hm
  obtain rfl := suffixed_inj heq
  obtain ⟨bits, hsplit, hread⟩ := hm.exists_splitAt
  rw [hparts c hc] at hsplit
  simp only [readMnemonic, hsplit, cons_append, nil_append, headD_cons, String.ofList_toList, hname c hc, hread]
  rfl

/-- A mnemonic without a width decides how its operands are read, whatever follows behind a dot. -/
theorem readMnemonic_bare (name : String) {r : OperandReader Instr} {m : List Char} (hdot : '.' ∉ name.toList)
    (hname : ∀ m parts, splitAt '.' m = name.toList :: parts → readMnemonic m = .ok r)
    (hm : m = name.toList ∨ ∃ rest, m = name.toList ++ '.' :: rest) : readMnemonic m = .ok r := by
  rcases hm with rfl | ⟨rest, rfl⟩
  · exact hname _ [] (splitAt_of_notMem hdot)
  · exact hname _ _ (splitAt_append hdot rest)

open OperandReader in
/-- All spellings of the mnemonic of an instruction are recognised, and then its operands are read. -/
theorem exists_reader (hi : i.Standard) (hsilent : i.isSilent = false) :
    ∃ r, (∀ m, i.Spelled m → readMnemonic m = .ok r) ∧ r.run (i.operands.map String.toList) = .ok (i, []) := by
  have hregs := hi.regs
  cases i with
  | mov w d s =>
    obtain ⟨hd, hs⟩ : d.num < 18 ∧ s.num < 18 := by simpa [regs] using hregs
    refine exists_reader_suffixed mov (by decide) (fun m bits h => ?_) (run_reg hd) (run_reg hs)
    simp [readMnemonic, h]
  | movImm w d v =>
    refine exists_reader_suffixed movImm (by decide) (fun m bits h => ?_) (run_reg (hregs d mem_cons_self)) (run_imm v)
    simp [readMnemonic, h]
  | sext w d s =>
    obtain ⟨hd, hs⟩ : d.num < 18 ∧ s.num < 18 := by simpa [regs] using hregs
    refine exists_reader_suffixed sext (by decide) (fun m bits h => ?_) (run_reg hd) (run_reg hs)
    simp [readMnemonic, h]
  | zext w d s =>
    obtain ⟨hd, hs⟩ : d.num < 18 ∧ s.num < 18 := by simpa [regs] using hregs
    refine exists_reader_suffixed zext (by decide) (fun m bits h => ?_) (run_reg hd) (run_reg hs)
    simp [readMnemonic, h]
  | load w r a =>
    obtain ⟨hr, ha⟩ := forall_mem_cons.1 hregs
    refine exists_reader_suffixed load (by decide) (fun m bits h => ?_) (run_reg hr) (run_addr ha)
    simp [readMnemonic, h]
  | store w r a =>
    obtain ⟨hr, ha⟩ := forall_mem_cons.1 hregs
    refine exists_reader_suffixed store (by decide) (fun m bits h => ?_) (run_reg hr) (run_addr ha)
    simp [readMnemonic, h]
  | alu op w d x y =>
    obtain ⟨hd, hx, hy⟩ : d.num < 18 ∧ x.num < 18 ∧ y.num < 18 := by simpa [regs] using hregs
    exact ⟨_, fun m => readMnemonic_alu (hi.op op rfl), run_binary_reg hd hx hy⟩
  | aluImm op w d x v =>
    obtain ⟨hd, hx⟩ : d.num < 18 ∧ x.num < 18 := by simpa [regs] using hregs
    exact ⟨_, fun m => readMnemonic_alu (hi.op op rfl), run_binary_imm hd hx v⟩
  | cmp c w d x y =>
    obtain ⟨hd, hx, hy⟩ : d.num < 18 ∧ x.num < 18 ∧ y.num < 18 := by simpa [regs] using hregs
    exact ⟨_, fun m => readMnemonic_cmp (hi.cond c rfl), run_binary_reg hd hx hy⟩
  | cmpImm c w d x v =>
    obtain ⟨hd, hx⟩ : d.num < 18 ∧ x.num < 18 := by simpa [regs] using hregs
    exact ⟨_, fun m => readMnemonic_cmp (hi.cond c rfl), run_binary_imm hd hx v⟩
  | lea r a =>
    obtain ⟨hr, ha⟩ := forall_mem_cons.1 hregs
    refine ⟨_, fun m => readMnemonic_bare "lea" (by decide) fun m parts h => ?_, run_map₂ (f := lea) (run_reg hr) (run_addr ha)⟩
    simp [readMnemonic, h]
  | push r =>
    refine ⟨_, fun m => readMnemonic_bare "push" (by decide) fun m parts h => ?_,
      run_map (f := push) (run_reg (hregs r mem_cons_self))⟩
    simp [readMnemonic, h]
  | pop r =>
    refine ⟨_, fun m => readMnemonic_bare "pop" (by decide) fun m parts h => ?_,
      run_map (f := pop) (run_reg (hregs r mem_cons_self))⟩
    simp [readMnemonic, h]
  | jumpZero r l =>
    refine ⟨_, fun m => readMnemonic_bare "jmp0" (by decide) fun m parts h => ?_,
      run_map₂ (f := jumpZero) (run_reg (hregs r mem_cons_self)) (run_label l)⟩
    simp [readMnemonic, h]
  | jumpNonzero r l =>
    refine ⟨_, fun m => readMnemonic_bare "jnz" (by decide) fun m parts h => ?_,
      run_map₂ (f := jumpNonzero) (run_reg (hregs r mem_cons_self)) (run_label l)⟩
    simp [readMnemonic, h]
  | jump l =>
    refine ⟨_, fun m => readMnemonic_bare "jmp" (by decide) fun m parts h => ?_, run_map (f := jump) (run_label l)⟩
    simp [readMnemonic, h]
  | call l =>
    refine ⟨_, fun m => readMnemonic_bare "call" (by decide) fun m parts h => ?_, run_map (f := call) (run_label l)⟩
    simp [readMnemonic, h]
  | ret =>
    refine ⟨pure ret, fun m => readMnemonic_bare "ret" (by decide) fun m parts h => ?_, rfl⟩
    simp [readMnemonic, h]
  | halt =>
    refine ⟨pure halt, fun m => readMnemonic_bare "halt" (by decide) fun m parts h => ?_, rfl⟩
    simp [readMnemonic, h]
  | label | comment => cases hsilent

theorem exists_operands (hi : i.Standard) (ht : ∀ l ∈ i.target?, IsOperand l.toList) (hops : i.operands ≠ []) :
    ∃ us v, i.operands.map String.toList = us ++ [v] ∧ (∀ u ∈ us, IsPlain u) ∧ IsOperand v := by
  have hregs := hi.regs
  have hplain : ∀ r ∈ i.regs, IsPlain r.name.toList := fun r hr => (isName_name (hregs r hr)).isPlain
  have hlast : ∀ r ∈ i.regs, IsOperand r.name.toList := fun r hr => (hplain r hr).isWord.isOperand
  have himm : ∀ v, IsOperand (shownImm v).toList := fun v => (isPlain_shownImm v).isWord.isOperand
  cases i with
  | mov w d s | sext w d s | zext w d s =>
    exact ⟨[d.name.toList], s.name.toList, rfl, by simpa using hplain d (by simp [regs]), hlast s (by simp [regs])⟩
  | movImm w d v => exact ⟨[d.name.toList], _, rfl, by simpa using hplain d (by simp [regs]), himm v⟩
  | alu _ w d x y | cmp _ w d x y =>
    exact ⟨[d.name.toList, x.name.toList], y.name.toList, rfl,
      by simpa using ⟨hplain d (by simp [regs]), hplain x (by simp [regs])⟩, hlast y (by simp [regs])⟩
  | aluImm _ w d x v | cmpImm _ w d x v =>
    exact ⟨[d.name.toList, x.name.toList], _, rfl,
      by simpa using ⟨hplain d (by simp [regs]), hplain x (by simp [regs])⟩, himm v⟩
  | load w r a | store w r a | lea r a =>
    exact ⟨[r.name.toList], _, rfl, by simpa using hplain r (by simp [regs]),
      Addr.isOperand_shown fun s hs => hregs s (mem_cons_of_mem _ hs)⟩
  | push r | pop r => exact ⟨[], r.name.toList, rfl, nofun, hlast r (by simp [regs])⟩
  | jump l | call l => exact ⟨[], l.toList, rfl, nofun, ht l rfl⟩
  | jumpZero r l | jumpNonzero r l =>
    exact ⟨[r.name.toList], l.toList, rfl, by simpa using hplain r (by simp [regs]), ht l rfl⟩
  | ret | halt | label | comment => exact absurd rfl hops

end Instr

/-! ## Lines -/

section

variable {m v : List Char} {us : List (List Char)} {i : Instr} {r : OperandReader Instr}

theorem splitMnemonic_eq (hm : IsMnemonic m) (rest : List Char) : splitMnemonic (m ++ '\t' :: rest) = (m, rest) := by
  rw [splitMnemonic, cut_append (hm.toIsName.notMem rfl)]
  dsimp only
  rw [cut_of_notMem (hm.toIsName.notMem rfl)]
  rfl

theorem readLine_eq_ok {cs : List Char} : readLine cs = .ok i ↔
    ∃ r, readMnemonic (splitMnemonic cs).1 = .ok r ∧ r.run (splitOperands (splitMnemonic cs).2) = .ok (i, []) := by
  unfold readLine
  rw [bind_eq_ok]
  refine exists_congr fun r => and_congr_right fun _ => ?_
  rw [bind_eq_ok]
  constructor
  · rintro ⟨⟨j, left⟩, hrun, h⟩
    dsimp only at h
    split at h
    · cases h
      exact hrun
    · cases h
  · exact fun hrun => ⟨(i, []), hrun, rfl⟩

theorem readLine_operands (hm : IsMnemonic m) (hus : ∀ u ∈ us, IsPlain u) (hv : IsOperand v)
    (hread : readMnemonic m = .ok r) (hrun : r.run (us ++ [v]) = .ok (i, [])) :
    readLine (m ++ '\t' :: [',', ' '].intercalate (us ++ [v])) = .ok i := by
  have hplain : ∀ u ∈ us, (∀ d ∈ u, d ≠ ',' ∧ d ≠ '[' ∧ d ≠ ']') ∧ trimChars u = u := fun u hu =>
    ⟨fun d hd => ⟨((hus u hu).isWord.all d hd).2.1, (hus u hu).unbracketed d hd⟩, (hus u hu).trimChars_eq⟩
  have hops := splitOperands_concat hplain hv.whole (Text.trimChars_eq_self hv.first hv.last) hv.ne_nil
  rw [readLine_eq_ok, splitMnemonic_eq hm, hops]
  exact ⟨r, hread, hrun⟩

theorem ne_of_mem_operands (hus : ∀ u ∈ us, IsPlain u) (hv : IsOperand v) :
    ∀ c ∈ [',', ' '].intercalate (us ++ [v]), c ≠ ';' ∧ c ≠ '\n' := by
  intro c hc
  rcases mem_of_mem_intercalate hc with hc | ⟨u, hu, hc⟩
  · exact (ne_of_mem_separator c hc).2.2
  · rcases mem_append.1 hu with hu | hu
    · exact (hus u hu).isWord.isOperand.all c hc
    · exact hv.all c (mem_singleton.1 hu ▸ hc)

theorem readText_operands (hm : IsMnemonic m) (hus : ∀ u ∈ us, IsPlain u) (hv : IsOperand v)
    (hread : readMnemonic m = .ok r) (hrun : r.run (us ++ [v]) = .ok (i, [])) :
    readText (m ++ '\t' :: [',', ' '].intercalate (us ++ [v])) = .ok (some i) := by
  have hoperands : ';' ∉ [',', ' '].intercalate (us ++ [v]) := fun hmem => (ne_of_mem_operands hus hv _ hmem).1 rfl
  have hcut : cut ';' (m ++ '\t' :: [',', ' '].intercalate (us ++ [v])) =
      (m ++ '\t' :: [',', ' '].intercalate (us ++ [v]), none) :=
    cut_of_notMem (by simp [hm.toIsName.notMem (d := ';') rfl, hoperands])
  have htrim : trimChars (m ++ '\t' :: [',', ' '].intercalate (us ++ [v])) =
      m ++ '\t' :: [',', ' '].intercalate (us ++ [v]) := by
    refine Text.trimChars_eq_self ?_ ?_
    · rw [head?_append_of_ne_nil _ hm.ne_nil]
      exact fun c hc => isBlank_of_isNameChar (hm.all c (mem_of_mem_head? hc))
    · rw [intercalate_concat, ← cons_append, ← append_assoc, getLast?_append_of_ne_nil _ hv.ne_nil]
      exact hv.last
  -- The tab behind the mnemonic keeps the line from being a label, even if its last operand ends with a colon.
  have hlabel : isLabelLine (m ++ '\t' :: [',', ' '].intercalate (us ++ [v])) = false := by
    simp [isLabelLine]
  have hhead : (m ++ '\t' :: [',', ' '].intercalate (us ++ [v])).head? ≠ some '.' := by
    rw [head?_append_of_ne_nil _ hm.ne_nil]
    exact hm.head
  rw [readText, hcut]
  dsimp only
  rw [htrim, if_neg (by simp), hlabel, if_neg (by decide), if_neg hhead, readLine_operands hm hus hv hread hrun]
  rfl

end

end RegisterCompiler.Asm
