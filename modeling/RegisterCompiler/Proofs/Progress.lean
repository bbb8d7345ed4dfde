import RegisterCompiler.Proofs.Lawful
import RegisterCompiler.Proofs.Simulation

/-!
# Verified code does not get stuck

The interpreter executes code that may be malformed, and then lacks an operand, an address, a block or a frame variable.
In a module whose functions have all been checked nothing is lacking: every state that a call goes through is at a place
in the code of one of the functions, and what the next instruction needs is there. One failure is left that is no outcome
of a program: an access so near to the end of the address space that its own end wraps around.
-/

namespace RegisterCompiler

open Success List

namespace IR

/-! ## What an instruction needs -/

namespace Instr

/-- An instruction computes an address. -/
inductive Addresses : Instr → Option MemRef → Prop
  | load {dest : Var} {r : Option MemRef} : Addresses (.load dest r) r
  | store {x : Option Operand} {r : Option MemRef} : Addresses (.store x r) r
  | slotAddr {dest : Var} {ref : SlotRef} : Addresses (.slotAddr dest ref) (some (.slot ref))

/-- An instruction gets at a value of a width in memory. -/
inductive Accesses : Instr → Width → Option MemRef → Prop
  | load {dest : Var} {r : Option MemRef} : Accesses (.load dest r) dest.width r
  | store {x : Operand} {r : Option MemRef} : Accesses (.store (some x) r) x.width r

end Instr

/-- What the instruction `i` needs is there: its operands have values, its address can be computed, and the blocks that
    it may lead to exist, with values for their phis. -/
structure Activation.Supports (a : Activation) (i : Instr) : Prop where
  operand : i.isPhi = false → ∀ o, i.Reads o → ∃ x, a.value o = .ok x
  address : ∀ r, i.Addresses r → ∃ x, a.address r = .ok x
  target : ∀ id, i.LeadsTo id → ∃ b, a.function.block? id = some b ∧
    ∀ m ∈ b.phiMoves a.blockId, ∃ x, a.value m.source = .ok x

/-- The next instruction is there, with all that it needs. -/
def Config.Able (c : Config) : Prop := ∃ i rest, c.active.rest = i :: rest ∧ c.active.Supports i

/-- The next instruction is an access whose end lies beyond the largest address. -/
def Config.Overreaches (c : Config) : Prop :=
  ∃ i rest w r x, c.active.rest = i :: rest ∧ i.Accesses w r ∧ c.active.address r = .ok x ∧ 2 ^ 63 ≤ x.toInt + w.size

/-- A failure that is an outcome of the program, not a defect of its code. -/
def EvalCause.IsOutcome : EvalCause → Prop
  | noFunction _ | argCount .. | stackOverflow _ | stepLimit | badAddress _ | scalar .divideByZero => True
  | _ => False

/-- The states that a call of a function goes through. -/
inductive Module.Visits (m : Module) (maxDepth : Int) (memory : Memory) (name : String) (args : List Int64) : Config → Prop
  | start {a : Activation} : m.enter maxDepth 0 (Int64.ofNat memory.size) name args = .ok a →
      Visits m maxDepth memory name args ⟨a, [], memory, 0⟩
  | step {c c' : Config} {i : Instr} {rest : List Instr} : Visits m maxDepth memory name args c →
      c.active.rest = i :: rest → (c.advance rest).step m maxDepth i = .ok (.next c') →
      Visits m maxDepth memory name args c'

/-! ## Places in the code -/

/-- An activation is at an instruction of a function of the module, and has addresses for all frame variables. -/
structure Activation.InPlace (a : Activation) (m : Module) : Prop where
  mem : a.function ∈ m.functions
  block : a.function.block? a.blockId = some a.block
  slots : a.slots.length = a.function.slots.length
  rest : a.rest ≠ []
  suffix : a.rest <:+ a.block.code

/-- All activations are in place. -/
structure Config.InPlace (c : Config) (m : Module) : Prop where
  active : c.active.InPlace m
  callers : ∀ k ∈ c.callers, k.activation.InPlace m
  memory : c.memory.size < 2 ^ 63

/-- The functions of a module have been checked, and their operators exist. -/
structure Module.Verified (m : Module) : Prop where
  wellFormed : ∀ f ∈ m.functions, f.WellFormed
  operators : ∀ f ∈ m.functions, ∀ b ∈ f.blocks, ∀ op dest x y, .binop op dest x y ∈ b.code → op ∈ BinOp.all

variable {m : Module} {a : Activation} {c c' : Config} {i : Instr} {rest : List Instr} {maxDepth : Int}

namespace Activation.InPlace

variable (h : a.InPlace m)
include h

theorem mem_blocks (hm : m.Verified) : a.block ∈ a.function.blocks :=
  (((hm.wellFormed _ h.mem).block?_eq_some_iff).1 h.block).1

theorem mem_code (hrest : a.rest = i :: rest) : i ∈ a.block.code :=
  h.suffix.subset (hrest ▸ mem_cons_self)

theorem advance (hm : m.Verified) (hrest : a.rest = i :: rest) (hterm : i.isTerminator = false) :
    InPlace { a with rest } m := by
  obtain ⟨phis, body, last, hshape⟩ := (hm.wellFormed _ h.mem).shape _ (h.mem_blocks hm)
  obtain ⟨before, hbefore⟩ := h.suffix
  rw [hrest] at hbefore
  refine ⟨h.mem, h.block, h.slots, ?_, before ++ [i], by rw [← hbefore]; simp⟩
  -- If nothing came after the instruction, it would end the block.
  rintro rfl
  have hi : a.block.code[before.length]? = some i := by simp [← hbefore]
  have := (hshape.isTerminator_iff hi).2 (by simp [← hbefore])
  simp [hterm] at this

theorem goTo (hm : m.Verified) (rest : List Instr) {id : BlockId} {b : Block} {env : Env}
    (hb : a.function.block? id = some b) :
    InPlace { { a with rest } with env, blockId := id, block := b, rest := b.code } m := by
  obtain ⟨phis, body, last, hshape⟩ :=
    (hm.wellFormed _ h.mem).shape b (((hm.wellFormed _ h.mem).block?_eq_some_iff).1 hb).1
  exact ⟨h.mem, hb, h.slots, by simp [hshape.code], suffix_rfl⟩

theorem exists_slotBase {id : SlotId} (hid : 0 ≤ id ∧ id < a.function.slots.length) :
    ∃ base, a.slotBase id = .ok base := by
  have hlt : id.toNat < a.slots.length := h.slots ▸ (Int.toNat_lt hid.1).2 hid.2
  exact ⟨a.slots[id.toNat], by simp [slotBase, Int.not_lt.2 hid.1, hlt]⟩

theorem exists_address {r : Option MemRef} (ha : a.function.Addressable r)
    (hr : ∀ x, r = some x → ∀ o ∈ x.uses, a.function.Readable o) : ∃ x, a.address r = .ok x := by
  match r with
  | none => exact absurd ha id
  | some (.pointer base offset) =>
    obtain ⟨x, hx⟩ := a.exists_value (hr _ rfl base mem_cons_self)
    exact ⟨x + offset, by simp only [address, hx]; rfl⟩
  | some (.slot ref) =>
    obtain ⟨base, hbase⟩ := h.exists_slotBase ha
    simp only [address, slotAddress, hbase, bind, Except.bind]
    split
    · next hindex =>
      obtain ⟨x, hx⟩ := a.exists_value (hr _ rfl ref.index (by simp [MemRef.uses, hindex]))
      exact ⟨_, by rw [hx]; rfl⟩
    · exact ⟨_, rfl⟩

theorem supports (hm : m.Verified) (hrest : a.rest = i :: rest) : a.Supports i := by
  have hf := hm.wellFormed _ h.mem
  have hb := h.mem_blocks hm
  have hi := h.mem_code hrest
  have hread := hf.readable _ hb i hi
  refine ⟨fun hphi o ho => ?_, fun r hr => ?_, fun id hid => ?_⟩
  · rcases Instr.reads_iff.1 ho with huse | ⟨dest, edges, rfl, -⟩
    · exact a.exists_value (hread o huse)
    · cases hphi
  · have hfits := hf.fits _ hb i hi
    cases hr with
    | load => exact h.exists_address hfits fun x hx o ho => hread o (by simpa [Instr.uses, hx] using ho)
    | store => exact h.exists_address hfits fun x hx o ho => hread o (by simpa [Instr.uses, hx] using .inr ho)
    | slotAddr =>
      refine h.exists_address hfits.2 ?_
      rintro _ ⟨⟩ o ho
      exact hread o ho
  · obtain ⟨b, hmem, rfl, -⟩ := hf.exists_of_mem_successors hb hi (Instr.leadsTo_iff.1 hid)
    exact ⟨b, hf.block?_eq_some_iff.2 ⟨hmem, rfl⟩, fun move hmove => a.exists_value (hf.readable_phiMove hmem hmove)⟩

theorem assign (v : Var) (x : Int64) : (a.assign v x).InPlace m :=
  ⟨h.mem, h.block, h.slots, h.rest, h.suffix⟩

end Activation.InPlace

/-! ## Calls -/

theorem length_of_reserve {name : String} {slots : List Slot} {sp last : Int64} {bases : List Int64}
    (h : reserve name sp slots = .ok (bases, last)) : bases.length = slots.length := by
  induction slots generalizing sp bases with
  | nil =>
    cases h
    rfl
  | cons s slots ih =>
    unfold reserve at h
    obtain ⟨-, h⟩ := ite_throw_bind_eq_ok.1 h
    obtain ⟨⟨others, last'⟩, hothers, hpair⟩ := bind_eq_ok.1 h
    cases hpair
    exact congrArg (· + 1) (ih hothers)

/-- A function of the module is entered at its beginning, or there is a reason outside of its code why not. -/
theorem Module.Verified.enter (hm : m.Verified) (maxDepth : Int) (depth : Nat) (sp : Int64) (name : String) (args : List Int64) :
    (∃ a, m.enter maxDepth depth sp name args = .ok a ∧ a.InPlace m) ∨
      ∃ cause, m.enter maxDepth depth sp name args = .error cause ∧ cause.IsOutcome := by
  cases hname : m.function? name with
  | none => exact .inr ⟨.noFunction name, by rw [Module.enter, hname], trivial⟩
  | some f =>
    have hmem : f ∈ m.functions := mem_of_find?_eq_some hname
    have hf := hm.wellFormed f hmem
    cases henter : m.enter maxDepth depth sp name args with
    | ok a =>
      obtain ⟨b, slots, last, hb, hreserve, rfl⟩ := Module.enter_eq_ok hname hf henter
      obtain ⟨phis, body, last, hshape⟩ := hf.shape b (hf.block?_eq_some_iff.1 hb).1
      exact .inl ⟨_, rfl, hmem, hb, length_of_reserve hreserve, by simp [hshape.code], suffix_rfl⟩
    | error cause =>
      refine .inr ⟨cause, rfl, ?_⟩
      simp only [Module.enter, hname] at henter
      split at henter
      · cases henter
        trivial
      split at henter
      · cases henter
        trivial
      cases hreserve : reserve name (sp - 8) f.slots with
      | error cause' =>
        rw [hreserve] at henter
        cases henter
        rw [reserve_eq_error hreserve]
        trivial
      | ok reserved =>
        -- The entry block exists, and has no phi that could lack a value.
        obtain ⟨b, hb⟩ := Option.isSome_iff_exists.1 hf.entry
        rw [hreserve] at henter
        simp only [bind, Except.bind] at henter
        obtain ⟨env, hgo⟩ := Activation.exists_goTo
          ⟨f, bindParams f.params args, reserved.1, reserved.2, -1, default, []⟩ (-1) hb
          (by simp [hf.phiMoves_start hb])
        rw [hgo] at henter
        cases henter

/-! ## Steps -/

/-- What an instruction leads to is in place; a failure is an outcome of the program, or an access that reaches too far. -/
def Config.Proceeds (c : Config) (m : Module) : Except EvalCause Progress → Prop
  | .ok (.next c') => c'.InPlace m ∧ c'.steps = c.steps + 1
  | .ok (.finished _ c') => c'.steps = c.steps + 1
  | .error cause => cause.IsOutcome ∨ cause = .stuck ∧ c.Overreaches

theorem BinOp.eval_eq_error {op : BinOp} (hop : op ∈ BinOp.all) {w : Width} {x y : Int64} {e : ScalarError}
    (h : op.eval w x y = .error e) : e = .divideByZero := by
  unfold BinOp.eval at h
  dsimp only at h
  cases op with
  | other code => simp [BinOp.all] at hop
  | sdiv | srem | udiv | urem =>
    dsimp only at h
    split at h
    · cases h
      rfl
    · cases h
  | _ => cases h

section

variable {memory memory' : Memory} {w : Width} {x v : Int64} {cause : EvalCause}

variable (hmemory : memory.size < 2 ^ 63)
include hmemory

/-- A failure to get at a value in memory is an outcome, unless the end of the access lies beyond the largest address. -/
theorem isOutcome_of_locate {e : AccessError} (h : memory.locate x w.bytes w.size = .error e) :
    (EvalCause.ofAccess e).IsOutcome ∨ EvalCause.ofAccess e = .stuck ∧ 2 ^ 63 ≤ x.toInt + w.size := by
  obtain rfl | ⟨rfl, hfar⟩ := Memory.locate_eq_error _ hmemory h
  · exact .inl trivial
  · exact .inr ⟨rfl, hfar⟩

theorem readValue_eq_error (h : readValue memory w x = .error cause) :
    cause.IsOutcome ∨ cause = .stuck ∧ 2 ^ 63 ≤ x.toInt + w.size := by
  unfold readValue at h
  cases hlocate : memory.locate x w.bytes w.size with
  | error e =>
    rw [hlocate] at h
    cases h
    exact isOutcome_of_locate hmemory hlocate
  | ok place =>
    rw [hlocate] at h
    cases h

/-- A value of a machine width is written into a memory of the same size, or the failure is as for reading. -/
theorem writeValue_cases (hw : w.isValid) :
    (∃ memory', writeValue memory w x v = .ok memory' ∧ memory'.size = memory.size) ∨
      ∃ cause, writeValue memory w x v = .error cause ∧
        (cause.IsOutcome ∨ cause = .stuck ∧ 2 ^ 63 ≤ x.toInt + w.size) := by
  unfold writeValue
  cases hlocate : memory.locate x w.bytes w.size with
  | error e => exact .inr ⟨_, rfl, isOutcome_of_locate hmemory hlocate⟩
  | ok place =>
    have hsize : ¬8 < w.size := Nat.not_lt.2 (Width.size_of_isValid hw).2.2
    refine .inl ⟨memory.store place v.toUInt64 w.size, ?_, Memory.size_store ..⟩
    simp [hsize, Except.mapError, bind, Except.bind, pure, Except.pure]

end

namespace Config.InPlace

variable (h : c.InPlace m)
include h

theorem supports (hm : m.Verified) (hrest : c.active.rest = i :: rest) : (c.advance rest).active.Supports i := by
  have hs := h.active.supports hm hrest
  exact ⟨hs.operand, hs.address, hs.target⟩

theorem advance (hm : m.Verified) (hrest : c.active.rest = i :: rest) (hterm : i.isTerminator = false) :
    (c.advance rest).InPlace m :=
  ⟨h.active.advance hm hrest hterm, h.callers, h.memory⟩

theorem assign (v : Var) (x : Int64) : (c.assign v x).InPlace m :=
  ⟨h.active.assign v x, h.callers, h.memory⟩

theorem goTo (hm : m.Verified) (hrest : c.active.rest = i :: rest) {id : BlockId} (hid : i.LeadsTo id) :
    c.Proceeds m (do
      pure (.next { c.advance rest with active := ← (c.advance rest).active.goTo c.active.blockId id })) := by
  obtain ⟨b, hb, hmoves⟩ := (h.supports hm hrest).target id hid
  obtain ⟨env, hgo⟩ := Activation.exists_goTo _ _ hb hmoves
  rw [show (c.advance rest).active.blockId = c.active.blockId from rfl] at hgo
  rw [hgo]
  exact ⟨⟨h.active.goTo hm rest hb, h.callers, h.memory⟩, rfl⟩

theorem leave (rest : List Instr) (x : Int64) : c.Proceeds m (.ok ((c.advance rest).leave x)) := by
  unfold Config.leave
  cases hcallers : (c.advance rest).callers with
  | nil => rfl
  | cons k callers =>
    obtain ⟨a, dest⟩ := k
    have hall : ∀ k ∈ ⟨a, dest⟩ :: callers, k.activation.InPlace m := fun k hk => h.callers k (hcallers ▸ hk)
    obtain ⟨ha, hothers⟩ := forall_mem_cons.1 hall
    refine ⟨⟨?_, hothers, h.memory⟩, rfl⟩
    cases dest with
    | none => exact ha
    | some d => exact ha.assign d _

theorem step (hm : m.Verified) (maxDepth : Int) (hrest : c.active.rest = i :: rest) :
    c.Proceeds m ((c.advance rest).step m maxDepth i) := by
  have hs := h.supports hm hrest
  have hnext : i.isTerminator = false → (c.advance rest).InPlace m := h.advance hm hrest
  have hf := hm.wellFormed _ h.active.mem
  have hb := h.active.mem_blocks hm
  have hi := h.active.mem_code hrest
  cases i with
  | phi dest edges => exact ⟨hnext rfl, rfl⟩
  | binop op dest x y =>
    obtain ⟨vx, hx⟩ := hs.operand rfl x .binopLeft
    obtain ⟨vy, hy⟩ := hs.operand rfl y .binopRight
    simp only [Config.step, hx, hy, bind, Except.bind]
    cases heval : op.eval dest.width vx vy with
    | error e =>
      cases BinOp.eval_eq_error (hm.operators _ h.active.mem _ hb op dest x y hi) heval
      exact .inl trivial
    | ok v => exact ⟨(hnext rfl).assign dest v, rfl⟩
  | cmp cond dest x y =>
    obtain ⟨vx, hx⟩ := hs.operand rfl x .cmpLeft
    obtain ⟨vy, hy⟩ := hs.operand rfl y .cmpRight
    cases x with
    | none => cases hx
    | some x =>
      simp only [Config.step, hx, hy, Activation.widthOf, bind, Except.bind]
      exact ⟨(hnext rfl).assign dest _, rfl⟩
  | cast op dest x =>
    obtain ⟨vx, hx⟩ := hs.operand rfl x .cast
    cases x with
    | none => cases hx
    | some x =>
      simp only [Config.step, hx, Activation.widthOf, bind, Except.bind]
      exact ⟨(hnext rfl).assign dest _, rfl⟩
  | load dest r =>
    obtain ⟨address, haddress⟩ := hs.address r .load
    simp only [Config.step, haddress, bind, Except.bind]
    cases hread : readValue (c.advance rest).memory dest.width address with
    | error cause =>
      refine (readValue_eq_error h.memory hread).imp_right (And.imp_right fun hfar => ?_)
      exact ⟨_, rest, dest.width, r, address, hrest, .load, haddress, hfar⟩
    | ok v => exact ⟨(hnext rfl).assign dest v, rfl⟩
  | store x r =>
    obtain ⟨v, hv⟩ := hs.operand rfl x .stored
    obtain ⟨address, haddress⟩ := hs.address r .store
    cases x with
    | none => cases hv
    | some x =>
      simp only [Config.step, hv, haddress, Activation.widthOf, bind, Except.bind]
      have hwidth : x.width.isValid := by
        have hread := hf.readable _ hb _ hi (some x) mem_cons_self
        cases x with
        | imm value w => exact hread
        | var v => exact hf.width v hread
      obtain ⟨memory, hwrite, hsize⟩ | ⟨cause, hwrite, hcause⟩ :=
        writeValue_cases (x := address) (v := v) h.memory hwidth
      · rw [show (c.advance rest).memory = c.memory from rfl, hwrite]
        exact ⟨⟨(hnext rfl).active, h.callers, hsize ▸ h.memory⟩, rfl⟩
      · rw [show (c.advance rest).memory = c.memory from rfl, hwrite]
        refine hcause.imp_right (And.imp_right fun hfar => ?_)
        exact ⟨_, rest, x.width, r, address, hrest, .store, haddress, hfar⟩
  | slotAddr dest ref =>
    obtain ⟨address, haddress⟩ := hs.address _ .slotAddr
    have haddress : (c.advance rest).active.slotAddress ref = .ok address := haddress
    simp only [Config.step, haddress, bind, Except.bind]
    exact ⟨(hnext rfl).assign dest _, rfl⟩
  | call dest callee args =>
    obtain ⟨values, hvalues⟩ := exists_mapM fun o ho => hs.operand rfl o (.arg ho)
    simp only [Config.step, hvalues, bind, Except.bind]
    obtain ⟨a, henter, ha⟩ | ⟨cause, henter, hcause⟩ := hm.enter maxDepth
      ((c.advance rest).callers.length + 1) (c.advance rest).active.sp callee values
    · rw [henter]
      exact ⟨⟨ha, forall_mem_cons.2 ⟨(hnext rfl).active, h.callers⟩, h.memory⟩, rfl⟩
    · rw [henter]
      exact .inl hcause
  | jump target => exact h.goTo hm hrest .jump
  | branch condition t f =>
    obtain ⟨v, hv⟩ := hs.operand rfl condition .condition
    have hleads : (Instr.branch condition t f).LeadsTo (if v ≠ 0 then t else f) := by
      split
      · exact .thenTarget
      · exact .elseTarget
    simp only [Config.step, hv, bind, Except.bind]
    exact h.goTo hm hrest hleads
  | ret value =>
    cases value with
    | none => exact h.leave rest 0
    | some o =>
      obtain ⟨v, hv⟩ := hs.operand rfl (some o) .returned
      simp only [Config.step, hv, bind, Except.bind]
      exact h.leave rest v

theorem able (hm : m.Verified) : c.Able := by
  obtain ⟨i, rest, hrest⟩ := exists_cons_of_ne_nil h.active.rest
  exact ⟨i, rest, hrest, h.active.supports hm hrest⟩

end Config.InPlace

/-! ## Runs -/

/-- How a call ends: with a value, by a failure that is an outcome, or at an access that reaches too far. -/
def Outcome.Ended (o : Outcome) (visited : Config → Prop) : Prop :=
  (∃ x, o.result = .ok x) ∨ ∃ e, o.result = .error e ∧
    (e.cause.IsOutcome ∨ e.cause = .stuck ∧ ∃ c, visited c ∧ c.Overreaches)

section

variable {memory : Memory} {name : String} {args : List Int64}

variable (hm : m.Verified) (hmemory : memory.size < 2 ^ 63) (h : m.Visits maxDepth memory name args c)
include hm hmemory h

theorem Module.Visits.inPlace : c.InPlace m := by
  induction h with
  | start henter =>
    obtain ⟨a, ha, hplace⟩ | ⟨cause, hcause, -⟩ := hm.enter maxDepth 0 (Int64.ofNat memory.size) name args
    · cases henter.symm.trans ha
      exact ⟨hplace, nofun, hmemory⟩
    · cases henter.symm.trans hcause
  | step _ hrest hstep ih =>
    have := ih.step hm maxDepth hrest
    rw [hstep] at this
    exact this.1

theorem Module.Visits.run (n : Nat) :
    (c.run m maxDepth n).Ended (m.Visits maxDepth memory name args) ∧ (c.run m maxDepth n).steps ≤ c.steps + n + 1 := by
  induction n generalizing c with
  | zero =>
    obtain ⟨i, rest, hrest, -⟩ := (h.inPlace hm hmemory).able hm
    rw [Config.run_zero hrest]
    exact ⟨.inr ⟨_, rfl, .inl trivial⟩, Nat.le_refl _⟩
  | succ n ih =>
    have hplace := h.inPlace hm hmemory
    obtain ⟨i, rest, hrest, -⟩ := hplace.able hm
    have hproceeds := hplace.step hm maxDepth hrest
    cases hstep : (c.advance rest).step m maxDepth i with
    | error cause =>
      rw [hstep] at hproceeds
      rw [Config.run_of_error hrest hstep]
      refine ⟨.inr ⟨_, rfl, ?_⟩, by simp [Config.fail, Config.advance]⟩
      exact hproceeds.imp_right (And.imp_right fun hfar => ⟨c, h, hfar⟩)
    | ok progress =>
      rw [hstep] at hproceeds
      rw [Config.run_of_ok hrest hstep]
      cases progress with
      | next c' =>
        obtain ⟨hended, hsteps⟩ := ih (h.step hrest hstep)
        have := hproceeds.2
        exact ⟨hended, by simp only [Progress.resume]; omega⟩
      | finished x c' =>
        have : c'.steps = c.steps + 1 := hproceeds
        exact ⟨.inl ⟨x, rfl⟩, by simp only [Progress.resume]; omega⟩

end

/-- A call in a module whose functions the check accepts does not get stuck. In every state that it goes through the next
    instruction is there, with operands that have values, an address that can be computed and blocks to go on with. The
    call ends with a value or by a failure that is an outcome, unless it comes to an access whose end lies beyond the
    largest address; and at most one instruction is counted more than the limit allows. -/
theorem Module.eval_progress {m : Module} (hverify : ∀ f ∈ m.functions, f.verify = .ok ())
    (hops : ∀ f ∈ m.functions, ∀ b ∈ f.blocks, ∀ op dest x y, .binop op dest x y ∈ b.code → op ∈ BinOp.all)
    (limits : Limits) (hsteps : 0 ≤ limits.maxSteps) (memory : Memory) (hmemory : memory.size < 2 ^ 63)
    (name : String) (args : List Int64) :
    (∀ c, m.Visits limits.maxDepth memory name args c → c.Able) ∧
      (m.eval limits memory name args).Ended (m.Visits limits.maxDepth memory name args) ∧
      (m.eval limits memory name args).steps ≤ limits.maxSteps + 1 := by
  have hm : m.Verified := ⟨fun f hf => Function.verify_eq_ok.1 (hverify f hf), hops⟩
  refine ⟨fun c hc => (hc.inPlace hm hmemory).able hm, ?_⟩
  unfold Module.eval
  obtain ⟨a, henter, -⟩ | ⟨cause, henter, hcause⟩ :=
    hm.enter limits.maxDepth 0 (Int64.ofNat memory.size) name args
  · rw [henter]
    obtain ⟨hended, hcount⟩ := (Module.Visits.start henter).run hm hmemory limits.maxSteps.toNat
    exact ⟨hended, by dsimp only at hcount ⊢; omega⟩
  · rw [henter]
    exact ⟨.inr ⟨_, rfl, .inl hcause⟩, by dsimp only; omega⟩

/-- A function that keeps a value in its frame and calls itself without end. -/
def descent : Function :=
  { name := "descent", params := [], result := .w64, entry := 0, slots := [⟨0, "kept", 1, .w64⟩]
    blocks := [⟨0, "entry", [
      .store (some (.imm 7 .w64)) (some (.slot ⟨0, none, 0, 0⟩)),
      .load ⟨0, .w64⟩ (some (.slot ⟨0, none, 0, 0⟩)),
      .call (some ⟨1, .w64⟩) "descent" [],
      .ret (some (.var ⟨0, .w64⟩))]⟩] }

theorem eval_progress_descent :
    descent.verify = .ok () ∧
      (Module.eval ⟨[descent]⟩ { maxSteps := 10 } ⟨256, ∅⟩ "descent" []).Ended
        (Module.Visits ⟨[descent]⟩ 10000 ⟨256, ∅⟩ "descent" []) ∧
      (Module.eval ⟨[descent]⟩ { maxSteps := 10 } ⟨256, ∅⟩ "descent" []).steps = 11 := by
  have hops : ∀ f ∈ [descent], ∀ b ∈ f.blocks, ∀ op dest x y, Instr.binop op dest x y ∈ b.code → op ∈ BinOp.all := by
    simp [descent]
  have hended := Module.eval_progress (m := ⟨[descent]⟩) (by decide) hops { maxSteps := 10 } (by decide)
    ⟨256, ∅⟩ (by decide) "descent" []
  exact ⟨rfl, hended.2.1, by decide +kernel⟩

end IR

end RegisterCompiler
