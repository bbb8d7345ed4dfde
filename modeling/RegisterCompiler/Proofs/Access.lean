import RegisterCompiler.Proofs.Instructions

/-!
# Accesses to memory

The machine and the interpreter access memory in the same way. An access to bytes that are there succeeds in both and
obeys the laws of loads and stores; any other is refused with its address and changes nothing, as long as the sum of the
address and the number of bytes is a word. Where that sum wraps around, the access passes the test all the same and then
leaves the memory.
-/

namespace RegisterCompiler

open Asm (Addr)
open IR (EvalCause readValue writeValue)
open Machine (Cause Image State View step)

/-! ## Places -/

namespace Memory

/-- The memory has `n` bytes from an address on. -/
def Contains (m : Memory) (address : Int64) (n : Nat) : Prop := 0 ≤ address.toInt ∧ address.toInt + n ≤ m.size

instance (m : Memory) (address : Int64) (n : Nat) : Decidable (m.Contains address n) := inferInstanceAs (Decidable (_ ∧ _))

variable {m : Memory} {w : Width} {address : Int64}

theorem locate_of_contains (hsize : m.size < 2 ^ 63) (h : m.Contains address w.size) :
    m.locate address w.bytes w.size = .ok address.toInt.toNat :=
  m.locate_of_bounds w.toInt_bytes hsize h.1 h.2

/-- An access beyond the memory is out of bounds, if its end is the address of anything at all. -/
theorem locate_of_not_contains (hsize : m.size < 2 ^ 63) (h : ¬m.Contains address w.size)
    (hend : address.toInt + w.size < 2 ^ 63) : m.locate address w.bytes w.size = .error (.outOfBounds address) := by
  cases hlocate : m.locate address w.bytes w.size with
  | ok place =>
    have := bounds_of_locate m hlocate
    exact absurd ⟨this.1, by omega⟩ h
  | error e =>
    obtain rfl | ⟨-, hover⟩ := m.locate_eq_error hsize hlocate
    · rfl
    · omega

/-- An access whose end is beyond the largest address passes the test, since the sum wraps around. -/
theorem locate_of_overflow (hsize : m.size < 2 ^ 63) (hw : w.isValid) (hend : 2 ^ 63 ≤ address.toInt + w.size) :
    m.locate address w.bytes w.size = .error .wild := by
  have hbytes := (Width.size_of_isValid hw).2.2
  have hmax := address.toInt_lt
  have hsum : (address + w.bytes).toInt = address.toInt + w.size - 2 ^ 64 := by
    rw [Int64.toInt_add, Width.toInt_bytes, Int.bmod_def]
    omega
  have hadmits : m.admits address w.bytes := by
    simp only [admits, Bool.and_eq_true, decide_eq_true_eq, Int64.le_iff_toInt_le, hsum, Int64.toInt_ofNat_of_lt hsize]
    exact ⟨show 0 ≤ address.toInt by omega, by omega⟩
  rw [locate, if_pos hadmits]
  exact if_neg (by omega)

end Memory

/-! ## Accesses of the machine -/

namespace Machine.State

variable {w : Width} (s : State) (address x : Int64)

theorem read_eq (hw : w.isValid) :
    s.read w address = ((s.memory.locate address w.bytes w.size).mapError Cause.ofAccess).map (s.memory.value w) :=
  View.read_eq hw s.view address

theorem write_eq (hw : w.isValid) :
    s.write w address x = ((s.memory.locate address w.bytes w.size).mapError Cause.ofAccess).map fun a =>
      { s with memory := s.memory.store a x.toUInt64 w.size } := by
  unfold write
  rw [View.touched_eq hw]
  cases s.memory.locate address w.bytes w.size <;> rfl

end Machine.State

/-! ## The laws of reads and writes -/

namespace Memory

/-- The machine and the interpreter both read a value. -/
structure Reads (m : Memory) (w : Width) (address x : Int64) : Prop where
  machine : ∀ s : State, s.memory = m → s.read w address = .ok x
  interpreter : readValue m w address = .ok x

/-- The machine and the interpreter both write a value, and leave the same memory. -/
structure Writes (m : Memory) (w : Width) (address x : Int64) (m' : Memory) : Prop where
  machine : ∀ s : State, s.memory = m → s.write w address x = .ok { s with memory := m' }
  interpreter : writeValue m w address x = .ok m'

variable {m m' : Memory} {w : Width} {address : Int64}

section

variable (hsize : m.size < 2 ^ 63) (hw : w.isValid) (h : m.Contains address w.size)
include hsize hw h

theorem reads_value : m.Reads w address (m.value w address.toInt.toNat) where
  machine := by
    rintro s rfl
    rw [s.read_eq address hw, locate_of_contains hsize h]
    rfl
  interpreter := by
    rw [IR.readValue_eq hw, locate_of_contains hsize h]
    rfl

theorem writes_store (x : Int64) : m.Writes w address x (m.store address.toInt.toNat x.toUInt64 w.size) where
  machine := by
    rintro s rfl
    rw [s.write_eq address x hw, locate_of_contains hsize h]
    rfl
  interpreter := by
    rw [IR.writeValue_eq hw, locate_of_contains hsize h]
    rfl

end

theorem map_value_store_of_outside {ε : Type} (g : AccessError → ε) {w' : Width} {address' : Int64}
    (hlow : 0 ≤ address.toInt)
    (h : address'.toInt + w'.size ≤ address.toInt ∨ address.toInt + w.size ≤ address'.toInt) (x : UInt64) :
    (((m.store address.toInt.toNat x w.size).locate address' w'.bytes w'.size).mapError g).map
        ((m.store address.toInt.toNat x w.size).value w') =
      ((m.locate address' w'.bytes w'.size).mapError g).map (m.value w') := by
  rw [locate_congr (m.size_store _ x _)]
  cases hlocate : m.locate address' w'.bytes w'.size with
  | error e => simp only [Except.mapError, Except.map]
  | ok a =>
    obtain ⟨hlow', ha, -⟩ := m.bounds_of_locate hlocate
    have houtside : a + w'.size ≤ address.toInt.toNat ∨ address.toInt.toNat + w.size ≤ a := by omega
    simp only [Except.mapError, Except.map, m.value_store_of_outside houtside]

/-- The two memories agree and obey the laws of loads and stores: both read the same value and leave the same memory
    behind a write; the bytes of the range become those of the value, the lowest first, and no other byte changes; what
    was written is read back in its canonical form at its width or a narrower one, and reads of other bytes give what
    they gave before. -/
theorem accesses_agree (hsize : m.size < 2 ^ 63) (hw : w.isValid) (h : m.Contains address w.size) (x : Int64) :
    (∃ y, m.Reads w address y) ∧
      ∃ m', m.Writes w address x m' ∧ m'.size = m.size ∧
        (∀ k < w.size, (m'.get (address.toInt.toNat + k)).toNat = x.toUInt64.toNat / 256 ^ k % 256) ∧
        (∀ a : Nat, a < address.toInt ∨ address.toInt + w.size ≤ a → m'.get a = m.get a) ∧
        m'.Reads w address (w.canonical x) ∧
        (∀ w' : Width, w'.isValid → w'.bits ≤ w.bits → m'.Reads w' address (w'.canonical x)) ∧
        ∀ (w' : Width) (address' : Int64), w'.isValid →
          address'.toInt + w'.size ≤ address.toInt ∨ address.toInt + w.size ≤ address'.toInt →
          (∀ s : State, s.memory = m → ({ s with memory := m' } : State).read w' address' = s.read w' address') ∧
            readValue m' w' address' = readValue m w' address' := by
  have hnarrow : ∀ w' : Width, w'.isValid → w'.bits ≤ w.bits →
      (m.store address.toInt.toNat x.toUInt64 w.size).Reads w' address (w'.canonical x) := by
    intro w' hw' hle
    have hle' : w'.size ≤ w.size := Nat.div_le_div_right (UInt8.le_iff_toNat_le.1 hle)
    have hin : m.Contains address w'.size := ⟨h.1, by have := h.2; omega⟩
    rw [← m.value_store_of_le hw' hle' (Width.size_of_isValid hw).2.2 address.toInt.toNat x]
    refine reads_value ?_ hw' ?_
    · rwa [size_store]
    · rwa [Contains, size_store]
  refine ⟨⟨_, reads_value hsize hw h⟩, _, writes_store hsize hw h x, m.size_store _ _ _, ?_, ?_,
    hnarrow w hw (UInt8.le_refl _), hnarrow, ?_⟩
  · exact fun k hk => m.toNat_get_store hk x.toUInt64
  · intro a ha
    have hlow := h.1
    exact m.get_store_of_outside (by omega) x.toUInt64
  · intro w' address' hw' hdisjoint
    refine ⟨?_, ?_⟩
    · rintro s rfl
      rw [State.read_eq _ _ hw', State.read_eq _ _ hw']
      exact map_value_store_of_outside _ h.1 hdisjoint _
    · rw [IR.readValue_eq hw', IR.readValue_eq hw']
      exact map_value_store_of_outside _ h.1 hdisjoint _

theorem accesses_agree_odd : (⟨64, ∅⟩ : Memory).size < 2 ^ 63 ∧ Width.w32.isValid = true ∧
    Contains ⟨64, ∅⟩ 5 Width.w32.size ∧
    ∃ m', Writes ⟨64, ∅⟩ .w32 5 (-2) m' ∧ m'.Reads .w32 5 (-2) ∧ m'.Reads .w8 5 (-2) ∧
      readValue m' .w64 9 = readValue ⟨64, ∅⟩ .w64 9 := by
  have hin : Contains ⟨64, ∅⟩ 5 Width.w32.size := by decide
  obtain ⟨-, m', hwrites, -, -, -, hback, hnarrow, hother⟩ :=
    accesses_agree (m := ⟨64, ∅⟩) (w := .w32) (by decide) (by decide) hin (-2)
  exact ⟨by decide, by decide, hin, m', hwrites, hback, hnarrow .w8 (by decide) (by decide),
    (hother .w64 9 (by decide) (by decide)).2⟩

/-! ## Clean accesses -/

/-- An access is clean: it succeeds if the bytes are there, and changes no others; and otherwise it is refused with a
    certain error, and changes nothing. -/
structure Clean {ε α : Type} (m : Memory) (address : Int64) (n : Nat) (refusal : ε) (r : Except ε α) (m' : Memory) :
    Prop where
  answered : ∀ x, r = .ok x → m.Contains address n ∧ m'.size = m.size ∧
    ∀ a : Nat, a < address.toInt ∨ address.toInt + n ≤ a → m'.get a = m.get a
  refused : ∀ e, r = .error e → ¬m.Contains address n ∧ e = refusal ∧ m' = m

/-- An access that fails where its place is not found is clean if and only if its end is the address of anything. -/
theorem clean_iff_of_locate {ε α : Type} {g : AccessError → ε} (hg : g .wild ≠ g (.outOfBounds address))
    (hsize : m.size < 2 ^ 63) (hw : w.isValid) {r : Except ε α}
    (hok : ∀ a, m.locate address w.bytes w.size = .ok a → (∃ x, r = .ok x) ∧ m'.size = m.size ∧
      ∀ b, b < a ∨ a + w.size ≤ b → m'.get b = m.get b)
    (herror : ∀ e, m.locate address w.bytes w.size = .error e → r = .error (g e) ∧ m' = m) :
    m.Clean address w.size (g (.outOfBounds address)) r m' ↔ address.toInt + w.size < 2 ^ 63 := by
  -- The bytes are there, or beyond the memory, or beyond the addresses: only in the last case the test is wrong.
  by_cases hin : m.Contains address w.size
  · have hend := hin.2
    obtain ⟨⟨x, rfl⟩, hsize', hbytes⟩ := hok _ (locate_of_contains hsize hin)
    refine iff_of_true ⟨fun _ _ => ⟨hin, hsize', fun b hb => hbytes b ?_⟩, fun e he => by cases he⟩ (by omega)
    have := hin.1
    omega
  by_cases hend : address.toInt + w.size < 2 ^ 63
  · obtain ⟨rfl, rfl⟩ := herror _ (locate_of_not_contains hsize hin hend)
    refine iff_of_true ⟨fun x hx => (by cases hx), fun e he => ⟨hin, ?_, rfl⟩⟩ hend
    exact (Except.error.inj he).symm
  · obtain ⟨rfl, -⟩ := herror _ (locate_of_overflow hsize hw (by omega))
    exact iff_of_false (fun hclean => hg (hclean.refused _ rfl).2.1) hend

end Memory

namespace IR

variable {m : Memory} {w : Width}

theorem clean_readValue_iff (hsize : m.size < 2 ^ 63) (hw : w.isValid) (address : Int64) :
    m.Clean address w.size (EvalCause.badAddress address) (readValue m w address) m ↔ address.toInt + w.size < 2 ^ 63 := by
  refine Memory.clean_iff_of_locate (g := EvalCause.ofAccess) EvalCause.noConfusion hsize hw ?_ ?_
  · intro a ha
    rw [readValue_eq hw, ha]
    exact ⟨⟨_, rfl⟩, rfl, fun _ _ => rfl⟩
  · intro e he
    rw [readValue_eq hw, he]
    exact ⟨rfl, rfl⟩

theorem clean_writeValue_iff (hsize : m.size < 2 ^ 63) (hw : w.isValid) (address x : Int64) :
    m.Clean address w.size (EvalCause.badAddress address) (writeValue m w address x)
      ((writeValue m w address x).toOption.getD m) ↔ address.toInt + w.size < 2 ^ 63 := by
  refine Memory.clean_iff_of_locate (g := EvalCause.ofAccess) EvalCause.noConfusion hsize hw ?_ ?_
  · intro a ha
    rw [writeValue_eq hw, ha]
    exact ⟨⟨_, rfl⟩, m.size_store _ _ _, fun b hb => m.get_store_of_outside hb _⟩
  · intro e he
    rw [writeValue_eq hw, he]
    exact ⟨rfl, rfl⟩

end IR

namespace Machine

namespace State

/-- A part of an instruction, or all of it, accesses the memory cleanly. -/
def Clean {α : Type} (s : State) (address : Int64) (n : Nat) (refusal : Cause) (r : Except Cause α × State) : Prop :=
  s.memory.Clean address n refusal r.1 r.2.memory

variable {α : Type} {s : State} {w : Width} {r : Except Cause α × State}

theorem clean_iff_of_read (hsize : s.memory.size < 2 ^ 63) (hw : w.isValid) {address : Int64}
    (hok : ∀ x, s.read w address = .ok x → (∃ y, r.1 = .ok y) ∧ r.2.memory = s.memory)
    (herror : ∀ c, s.read w address = .error c → r.1 = .error c ∧ r.2.memory = s.memory) :
    s.Clean address w.size (.badAddress address) r ↔ address.toInt + w.size < 2 ^ 63 := by
  refine Memory.clean_iff_of_locate (g := Cause.ofAccess) Cause.noConfusion hsize hw ?_ ?_
  · intro a ha
    obtain ⟨hr, hmemory⟩ := hok (s.memory.value w a) (by rw [s.read_eq address hw, ha]; rfl)
    exact ⟨hr, congrArg Memory.size hmemory, fun b _ => by rw [hmemory]⟩
  · exact fun e he => herror _ (by rw [s.read_eq address hw, he]; rfl)

theorem clean_iff_of_write (hsize : s.memory.size < 2 ^ 63) (hw : w.isValid) {address x : Int64}
    (hok : ∀ t, s.write w address x = .ok t → (∃ y, r.1 = .ok y) ∧ r.2.memory = t.memory)
    (herror : ∀ c, s.write w address x = .error c → r.1 = .error c ∧ r.2.memory = s.memory) :
    s.Clean address w.size (.badAddress address) r ↔ address.toInt + w.size < 2 ^ 63 := by
  refine Memory.clean_iff_of_locate (g := Cause.ofAccess) Cause.noConfusion hsize hw ?_ ?_
  · intro a ha
    obtain ⟨hr, hmemory⟩ := hok { s with memory := s.memory.store a x.toUInt64 w.size }
      (by rw [s.write_eq address x hw, ha]; rfl)
    rw [hmemory]
    exact ⟨hr, s.memory.size_store _ _ _, fun b hb => s.memory.get_store_of_outside hb _⟩
  · exact fun e he => herror _ (by rw [s.write_eq address x hw, he]; rfl)

end State

variable {s : State} {w : Width} {a : Addr} {d : Reg}

/-! ### The stack -/

theorem run_write (s : State) (w : Width) (address x : Int64) :
    (Exec.write w address x).run s = match s.write w address x with
      | .ok t => (.ok (), t)
      | .error c => (.error c, s) := by
  simp only [Exec.write, View.run_bind, View.run_get]
  cases s.write w address x <;> rfl

theorem run_setReg (hd : d.num.toNat < Reg.count) (x : Int64) (s : State) :
    ∃ t, (Exec.setReg d x).run s = (.ok (), t) ∧ t.memory = s.memory := by
  obtain ⟨t, ht, hview, -, -⟩ := (View.does_setReg d x).of_ok (View.put_of_lt hd x : s.view.put d x = _)
  exact ⟨t, ht, congrArg View.memory hview⟩

section

variable (hsize : s.memory.size < 2 ^ 63)
include hsize

theorem clean_pop_bind_iff {α : Type} {k : Int64 → Exec α}
    (hk : ∀ (x : Int64) (s : State), ∃ y t, (k x).run s = (.ok y, t) ∧ t.memory = s.memory) :
    s.Clean s.sp 8 (.badAddress s.sp) ((Exec.pop >>= k).run s) ↔ s.sp.toInt + 8 < 2 ^ 63 := by
  refine State.clean_iff_of_read hsize Width.isValid_w64 ?_ ?_
  · intro x hx
    obtain ⟨y, t, ht, hmemory⟩ := hk x (s.setSp (s.sp + 8))
    rw [View.run_bind, View.run_pop, show s.view.read .w64 s.sp = .ok x from hx]
    dsimp only
    rw [ht]
    exact ⟨⟨y, rfl⟩, hmemory⟩
  · intro c hc
    rw [View.run_bind, View.run_pop, show s.view.read .w64 s.sp = .error c from hc]
    exact ⟨rfl, rfl⟩

/-- A push is clean unless the new stack pointer wraps around: then it lies at the end of the address space, where there
    is no room for a word. -/
theorem clean_push_iff (x : Int64) :
    s.Clean (s.sp - 8) 8 (if s.sp.toInt < 8 then .stackOverflow else .badAddress (s.sp - 8)) ((Exec.push x).run s) ↔
      -2 ^ 63 + 8 ≤ s.sp.toInt := by
  have hmin := s.sp.le_toInt
  have hmax := s.sp.toInt_lt
  have height : (8 : Int64).toInt = 8 := by decide
  have hneg : s.sp - 8 < 0 ↔ (s.sp - 8).toInt < 0 := Int64.lt_iff_toInt_lt
  rw [View.run_push]
  by_cases hwrap : s.sp.toInt < -2 ^ 63 + 8
  · -- The new stack pointer is not negative, so the stack does not seem to overflow, and no word fits in above it.
    have hsp : (s.sp - 8).toInt = s.sp.toInt + 2 ^ 64 - 8 := by
      rw [Int64.toInt_sub, height, Int.bmod_def]
      omega
    have hend : 2 ^ 63 ≤ (s.sp - 8).toInt + Width.w64.size := by
      rw [hsp, Width.size_w64]
      omega
    have hlocate := Memory.locate_of_overflow hsize Width.isValid_w64 hend
    have hwrite : s.write .w64 (s.sp - 8) x = .error .crash := by
      rw [s.write_eq _ x Width.isValid_w64, hlocate]
      rfl
    rw [if_pos (by omega), if_neg (hneg.not.2 (by omega)), run_write, hwrite]
    exact iff_of_false (fun hclean => Cause.noConfusion (hclean.refused _ rfl).2.1) (by omega)
  · have hsp : (s.sp - 8).toInt = s.sp.toInt - 8 := by
      rw [toInt_sub_of_bounds] <;> omega
    refine iff_of_true ?_ (by omega)
    by_cases hlow : s.sp.toInt < 8
    · rw [if_pos hlow, if_pos (hneg.2 (by omega))]
      refine ⟨fun x hx => (by cases hx), fun c hc => ⟨fun hin => ?_, (Except.error.inj hc).symm, rfl⟩⟩
      have := hin.1
      omega
    · rw [if_neg hlow, if_neg (hneg.not.2 (by omega))]
      refine (State.clean_iff_of_write (x := x) hsize Width.isValid_w64 ?_ ?_).2
        (by rw [hsp, Width.size_w64]; omega)
      · intro t ht
        rw [run_write, ht]
        exact ⟨⟨_, rfl⟩, congrArg View.memory (View.noteDepth_view (t.setSp (s.sp - 8))).1⟩
      · intro c hc
        rw [run_write, hc]
        exact ⟨rfl, rfl⟩

/-! ### Instructions -/

theorem clean_load_iff (hw : w.isValid) (img : Image) (hd : d.num.toNat < Reg.count) {address : Int64}
    (ha : s.view.effective a = .ok address) :
    s.Clean address w.size (.badAddress address) ((Exec.instr img (.load w d a)).run s) ↔
      address.toInt + w.size < 2 ^ 63 := by
  have hrun : (Exec.instr img (.load w d a)).run s = (Exec.read w address >>= Exec.setReg d).run s := by
    simp only [Exec.instr, View.run_bind, View.gives_effective a s, ha]
  rw [hrun, View.run_bind, View.gives_read]
  refine State.clean_iff_of_read hsize hw ?_ ?_
  · intro x hx
    obtain ⟨t, ht, hmemory⟩ := run_setReg hd x s
    simp only [show s.view.read w address = .ok x from hx, ht]
    exact ⟨⟨(), trivial⟩, hmemory⟩
  · intro c hc
    simp only [show s.view.read w address = .error c from hc, and_self]

theorem clean_store_iff (hw : w.isValid) (img : Image) {r : Reg} (hr : r.num.toNat < Reg.count) {address : Int64}
    (ha : s.view.effective a = .ok address) :
    s.Clean address w.size (.badAddress address) ((Exec.instr img (.store w r a)).run s) ↔
      address.toInt + w.size < 2 ^ 63 := by
  have hrun : (Exec.instr img (.store w r a)).run s = (Exec.write w address (s.view.regs r)).run s := by
    simp only [Exec.instr, View.run_bind, View.gives_effective a s, ha, View.gives_reg r s, View.get_of_lt hr]
  rw [hrun, run_write]
  refine State.clean_iff_of_write (x := s.view.regs r) hsize hw ?_ ?_
  · intro t ht
    rw [ht]
    exact ⟨⟨(), rfl⟩, rfl⟩
  · intro c hc
    rw [hc]
    exact ⟨rfl, rfl⟩

end

/-- An access of the machine or the interpreter is clean if and only if the address and the number of bytes have a sum
    that is a word, and so are the instructions that load and store; what pops a word does so at the stack pointer, and
    a push is clean if and only if there is a word eight below the stack pointer. -/
theorem accesses_clean_iff (s : State) (hsize : s.memory.size < 2 ^ 63) {w : Width} (hw : w.isValid) (address x : Int64) :
    (s.memory.Clean address w.size (Cause.badAddress address) (s.read w address) s.memory ↔
        address.toInt + w.size < 2 ^ 63) ∧
      (s.memory.Clean address w.size (Cause.badAddress address) (s.write w address x)
          ((s.write w address x).toOption.getD s).memory ↔ address.toInt + w.size < 2 ^ 63) ∧
      (s.memory.Clean address w.size (EvalCause.badAddress address) (readValue s.memory w address) s.memory ↔
        address.toInt + w.size < 2 ^ 63) ∧
      (s.memory.Clean address w.size (EvalCause.badAddress address) (writeValue s.memory w address x)
          ((writeValue s.memory w address x).toOption.getD s.memory) ↔ address.toInt + w.size < 2 ^ 63) ∧
      (s.Clean (s.sp - 8) 8 (if s.sp.toInt < 8 then .stackOverflow else .badAddress (s.sp - 8)) ((Exec.push x).run s) ↔
        -2 ^ 63 + 8 ≤ s.sp.toInt) ∧
      (s.Clean s.sp 8 (.badAddress s.sp) (Exec.pop.run s) ↔ s.sp.toInt + 8 < 2 ^ 63) ∧
      ∀ (img : Image) (r : Reg), r.num.toNat < Reg.count →
        (∀ a, (Exec.effective a).run s = (.ok address, s) →
          (s.Clean address w.size (.badAddress address) (step img (.load w r a) s) ↔ address.toInt + w.size < 2 ^ 63) ∧
          (s.Clean address w.size (.badAddress address) (step img (.store w r a) s) ↔ address.toInt + w.size < 2 ^ 63)) ∧
        (s.Clean (s.sp - 8) 8 (if s.sp.toInt < 8 then .stackOverflow else .badAddress (s.sp - 8)) (step img (.push r) s) ↔
          -2 ^ 63 + 8 ≤ s.sp.toInt) ∧
        (s.Clean s.sp 8 (.badAddress s.sp) (step img (.pop r) s) ↔ s.sp.toInt + 8 < 2 ^ 63) := by
  have hread : s.Clean address w.size (.badAddress address) (s.read w address, s) ↔ _ :=
    State.clean_iff_of_read hsize hw (fun y hy => ⟨⟨y, hy⟩, rfl⟩) fun c hc => ⟨hc, rfl⟩
  have hwrite : s.Clean address w.size (.badAddress address)
      (s.write w address x, (s.write w address x).toOption.getD s) ↔ _ :=
    State.clean_iff_of_write (x := x) hsize hw (fun t ht => ⟨⟨t, ht⟩, by rw [ht]; rfl⟩) fun c hc => ⟨hc, by rw [hc]; rfl⟩
  refine ⟨hread, hwrite, IR.clean_readValue_iff hsize hw address, IR.clean_writeValue_iff hsize hw address x,
    clean_push_iff hsize x, ?_, ?_⟩
  · have hpop := clean_pop_bind_iff hsize (k := pure) fun x t => ⟨x, t, rfl, rfl⟩
    rwa [bind_pure] at hpop
  intro img r hr
  -- An instruction that counts as a step works on a state with the same registers and the same memory.
  have hsize' : ({ s with steps := s.steps + 1 } : State).memory.size < 2 ^ 63 := hsize
  refine ⟨fun a ha => ?_, ?_, ?_⟩
  · have ha' : s.view.effective a = .ok address := congrArg Prod.fst ((View.gives_effective a s).symm.trans ha)
    exact ⟨clean_load_iff hsize' hw img hr ha', clean_store_iff hsize' hw img hr ha'⟩
  · have hrun : step img (.push r) s = (Exec.push (s.view.regs r)).run { s with steps := s.steps + 1 } := by
      change (Exec.reg r >>= Exec.push).run { s with steps := s.steps + 1 } = _
      rw [View.run_bind, View.gives_reg]
      simp only [View.get_of_lt hr]
      rfl
    rw [hrun]
    exact clean_push_iff hsize' (s.view.regs r)
  · refine clean_pop_bind_iff hsize' (k := Exec.setReg r) fun y t => ?_
    obtain ⟨t', ht', hmemory⟩ := run_setReg hr y t
    exact ⟨(), t', ht', hmemory⟩

theorem accesses_clean_iff_last : (⟨64, ∅⟩ : Memory).size < 2 ^ 63 ∧ Width.w64.isValid = true ∧
    (⟨64, ∅⟩ : Memory).Clean 56 8 (Cause.badAddress 56) (({ memory := ⟨64, ∅⟩ } : State).read .w64 56) ⟨64, ∅⟩ ∧
    (⟨64, ∅⟩ : Memory).Clean 64 8 (EvalCause.badAddress 64) (readValue ⟨64, ∅⟩ .w64 64) ⟨64, ∅⟩ :=
  ⟨by decide, by decide,
    (accesses_clean_iff { memory := ⟨64, ∅⟩ } (by decide) (w := .w64) (by decide) 56 0).1.2 (by decide),
    (accesses_clean_iff { memory := ⟨64, ∅⟩ } (by decide) (w := .w64) (by decide) 64 0).2.2.1.2 (by decide)⟩

/-- At the largest address there is nothing to read, and yet the address is not refused; nor is a push below the least
    address. -/
theorem read_largest_crashes : ({ memory := ⟨64, ∅⟩ } : State).read .w64 Int64.maxValue = .error .crash ∧
    ({ memory := ⟨64, ∅⟩ } : State).write .w64 Int64.maxValue 5 = .error .crash ∧
    readValue ⟨64, ∅⟩ .w64 Int64.maxValue = .error .stuck ∧
    ((Exec.push 5).run (({ memory := ⟨64, ∅⟩ } : State).setSp Int64.minValue)).1 = .error .crash := by
  exact ⟨rfl, rfl, rfl, rfl⟩

end Machine

end RegisterCompiler
