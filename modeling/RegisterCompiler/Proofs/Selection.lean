import RegisterCompiler.Proofs.Meaning

/-!
# The code of an instruction does what the instruction does

An instruction that computes a value or accesses the memory is executed by the interpreter in one step, and by the
machine in the few instructions that are its code. The two are compared from any state in which the machine has what the
instruction reads (`Emission.Supplies`): the variables are in their homes, and the frame variables are in the frame.
-/

namespace RegisterCompiler

open List
open IR (Activation Block EvalCause Function MemRef Operand Progress Var)
open Machine (Cause Image View)
open Machine.View (Changes)

/-! ## Instructions that stay in their block -/

namespace IR.Instr

/-- An instruction that computes a value or accesses the memory. -/
def IsPlain : Instr → Prop
  | .binop .. | .cmp .. | .load .. | .store .. | .slotAddr .. => True
  | .cast op _ _ => op ∈ CastOp.all
  | _ => False

instance : (i : Instr) → Decidable i.IsPlain
  | .binop .. | .cmp .. | .load .. | .store .. | .slotAddr .. => .isTrue trivial
  | .cast op _ _ => inferInstanceAs (Decidable (op ∈ CastOp.all))
  | .phi .. | .call .. | .jump _ | .branch .. | .ret _ => .isFalse id

/-- The element of a frame variable that an instruction refers to. -/
def slotRef? : Instr → Option SlotRef
  | .load _ (some (.slot ref)) | .store _ (some (.slot ref)) | .slotAddr _ ref => some ref
  | _ => none

end IR.Instr

/-! ## States of the interpreter in the machine -/

namespace Emission

/-- The machine has what an instruction reads in a state of the interpreter: the memory, the frame variables at their
    offsets from the frame pointer, and the values of variables in their homes. -/
structure Supplies (e : Emission) (i : IR.Instr) (c : IR.Config) (v : View) : Prop where
  memory : v.memory = c.memory
  slots : ∀ (k : Nat) offset, e.layout.slotOffset? k = some offset → c.active.slots[k]? = some (v.regs .fp + offset)
  vars : ∀ u ∈ i.usedVars, u.width.IsCanonical (c.active.env.getD u.id 0) ∧
    ∀ p, e.home u = .ok p → v.held (v.regs .fp).toInt u.width p = c.active.env.getD u.id 0

/-- The bytes of the home of a result. -/
def ResultByte (e : Emission) (i : IR.Instr) (base : Int) (x : Nat) : Prop :=
  ∃ d p, i.dest? = some d ∧ e.home d = .ok p ∧ p.Covers base d.width x

/-- The registers that the code of an instruction may change: scratch registers, and the home of the result. -/
def ResultReg (e : Emission) (i : IR.Instr) (r : Reg) : Prop :=
  r ∈ e.target.scratch ∨ ∃ d, i.dest? = some d ∧ e.home d = .ok (.reg r)

end Emission

/-- The bytes that an instruction stores. -/
def IR.Activation.StoredByte (a : Activation) (i : IR.Instr) (x : Nat) : Prop :=
  ∃ o ref address, i = .store (some o) ref ∧ a.address ref = .ok address ∧
    address.toInt ≤ x ∧ x < address.toInt + o.width.size

/-- A failure of an instruction, and the failure of its code. -/
inductive SameFailure : EvalCause → Cause → Prop
  | scalar (s : ScalarError) : SameFailure (.scalar s) (.scalar s)
  | badAddress (x : Int64) : SameFailure (.badAddress x) (.badAddress x)
  /-- An access that reaches beyond the end of the address space. -/
  | wild : SameFailure .stuck .crash

theorem SameFailure.ofAccess (s : AccessError) : SameFailure (.ofAccess s) (.ofAccess s) := by
  cases s with
  | outOfBounds x => exact .badAddress x
  | wild => exact .wild

namespace Emission

/-- The machine answers to what an instruction leads to in the interpreter. Its code, from the index `p` to the index
    `q`, leaves the same result in its home and the same bytes in the memory, or fails for the same reason, and changes
    nothing else but scratch registers. -/
inductive Answers (e : Emission) (img : Image) (p q : Nat) (i : IR.Instr) (a : Activation) (v : View) :
    Except EvalCause Progress → Prop
  | next {c : IR.Config} {w : View} (goes : img.Goes p v q w)
      (result : ∀ d, i.dest? = some d → d.width.IsCanonical (c.active.env.getD d.id 0) ∧
        ∃ home, e.home d = .ok home ∧ w.held (v.regs .fp).toInt d.width home = c.active.env.getD d.id 0)
      (memory : ∀ x, ¬e.ResultByte i (v.regs .fp).toInt x → w.memory.get x = c.memory.get x)
      (changes : Changes (e.ResultReg i) (fun x => e.ResultByte i (v.regs .fp).toInt x ∨ a.StoredByte i x) v w) :
      Answers e img p q i a v (.ok (.next c))
  | fails {cause : EvalCause} {cause' : Cause} {w : View} (same : SameFailure cause cause')
      (fails : img.FailsWith p v cause' w) (changes : Changes (· ∈ e.target.scratch) (fun _ => False) v w) :
      Answers e img p q i a v (.error cause)

variable {e : Emission} {site : BlockSite} {i : IR.Instr} {n p size : Nat} {v : View} {c : IR.Config} {d : Var}
  {home : Place} {img : Image} {em : Emitted}

namespace Supplies

theorem reads (h : e.Supplies i c v) {x : Option Operand} (hreadable : e.function.Readable x) (hx : x ∈ i.uses) :
    ∃ y z, x = some y ∧ c.active.value x = .ok z ∧ e.Reads (v.regs .fp).toInt v y z := by
  rcases x with _ | (u | ⟨k, wd⟩)
  · exact absurd hreadable id
  · obtain ⟨hcanonical, hheld⟩ := h.vars u (mem_filterMap.2 ⟨_, hx, rfl⟩)
    exact ⟨.var u, _, rfl, rfl, hreadable, hcanonical, hheld⟩
  · exact ⟨.imm k wd, _, rfl, rfl, hreadable, rfl⟩

variable (h : e.Supplies i c v) (hready : e.Ready)
include h hready

theorem slotBase {ref : IR.SlotRef} (haddressable : e.function.Addressable (some (.slot ref))) :
    ∃ offset, e.layout.slotOffset? ref.slot = some offset ∧ c.active.slotBase ref.slot = .ok (v.regs .fp + offset) := by
  have hslot : 0 ≤ ref.slot ∧ ref.slot < e.function.slots.length := haddressable
  obtain ⟨offset, hoffset⟩ := hready.slot ref.slot hslot
  have hbegins := h.slots ref.slot.toNat offset (by rwa [Int.toNat_of_nonneg hslot.1])
  exact ⟨offset, hoffset, by rw [Activation.slotBase, if_neg (Int.not_lt.2 hslot.1), hbegins]⟩

theorem slotAddress {ref : IR.SlotRef} (haddressable : e.function.Addressable (some (.slot ref)))
    (hreadable : ∀ x ∈ i.uses, e.function.Readable x) (huses : ∀ x ∈ (MemRef.slot ref).uses, x ∈ i.uses)
    (hindex : ∀ o, ref.index = some o → Operand.IsRegular (some o)) :
    ∃ address, c.active.slotAddress ref = .ok address ∧ e.Addresses (v.regs .fp).toInt v (.slot ref) address := by
  obtain ⟨offset, hoffset, hbase⟩ := h.slotBase hready haddressable
  cases hy : ref.index with
  | none =>
    refine ⟨_, ?_, addresses_slot (z := 0) hoffset ?_⟩
    · simp only [Activation.slotAddress, hbase, hy, bind, Except.bind]
      rw [if_neg (by decide), if_neg (by decide), Int64.add_zero]
      rfl
    · rintro o ho
      cases hy.symm.trans ho
  | some y =>
    have hused : some y ∈ i.uses := huses _ (by simp [MemRef.uses, hy])
    obtain ⟨_, z, ⟨⟩, hz, hreads⟩ := h.reads (hreadable _ hused) hused
    refine ⟨_, ?_, addresses_slot (z := z) hoffset ?_⟩
    · simp only [Activation.slotAddress, hbase, hy, hz, bind, Except.bind]
      rfl
    · rintro o ho
      cases hy.symm.trans ho
      exact ⟨hreads, hindex y hy⟩

theorem address {ref : MemRef} (haddressable : e.function.Addressable (some ref))
    (hreadable : ∀ x ∈ i.uses, e.function.Readable x) (huses : ∀ x ∈ ref.uses, x ∈ i.uses)
    (hindex : ∀ s, ref = .slot s → ∀ o, s.index = some o → Operand.IsRegular (some o)) :
    ∃ address, c.active.address (some ref) = .ok address ∧ e.Addresses (v.regs .fp).toInt v ref address := by
  cases ref with
  | slot ref => exact h.slotAddress hready haddressable hreadable huses (hindex ref rfl)
  | pointer o offset =>
    have hused : o ∈ i.uses := huses o mem_cons_self
    obtain ⟨y, z, rfl, hz, hreads⟩ := h.reads (hreadable o hused) hused
    refine ⟨z + offset, ?_, y, z, rfl, hreads, rfl⟩
    simp only [Activation.address, hz, bind, Except.bind]
    rfl

end Supplies

theorem Computes.answers {σ : Type} (result : Except σ Int64) {f : σ → EvalCause} {g : σ → Cause}
    (h : e.Computes (v.regs .fp).toInt d home v em.code (result.mapError g)) (hfg : ∀ s, SameFailure (f s) (g s))
    (hresult : ∀ x, result = .ok x → d.width.IsCanonical x) (hdest : i.dest? = some d) (hhome : e.home d = .ok home)
    (hmemory : v.memory = c.memory) (hat : img.CodeAt p em.code) :
    e.Answers img p (p + em.code.length) i c.active v ((result.mapError f).map fun x => .next (c.assign d x)) := by
  cases result with
  | error s =>
    obtain ⟨w, hstops, hc⟩ := h
    exact .fails (hfg s) (Image.failsWith_of_stops hat hstops) hc
  | ok x =>
    obtain ⟨w, hrun, hheld, hc⟩ := h
    have hvalue : (c.assign d x).active.env.getD d.id 0 = x := by
      simp [IR.Config.assign, Activation.assign, Std.ExtTreeMap.getD_insert_self]
    refine .next (Image.goes_of_run hat hrun) ?_ (fun y hy => ?_) (hc.mono ?_ ?_)
    · rintro d' hd'
      cases hdest.symm.trans hd'
      rw [hvalue]
      exact ⟨hresult x rfl, home, hhome, hheld⟩
    · rw [hc.bytes y fun hcovers => hy ⟨d, home, hdest, hhome, hcovers⟩, hmemory]
      rfl
    · rintro r (hr | rfl)
      · exact .inl hr
      · exact .inr ⟨d, hdest, hhome⟩
    · exact fun y hy => .inl ⟨d, home, hdest, hhome, hy⟩

namespace Homed

variable {x y : Operand} {ref : MemRef} {address z : Int64} {m : IR.Module} {maxDepth : Int}

theorem answers_store (h : e.Homed (v.regs .fp).toInt size) (hv : v.Stands (v.regs .fp).toInt size)
    (hx : e.Reads (v.regs .fp).toInt v x z) (hxv : c.active.value (some x) = .ok z)
    (href : e.Addresses (v.regs .fp).toInt v ref address) (haddress : c.active.address (some ref) = .ok address)
    (hmemory : v.memory = c.memory) (hcode : e.instr site n (.store (some x) (some ref)) = .ok em)
    (hat : img.CodeAt p em.code) :
    e.Answers img p (p + em.code.length) (.store (some x) (some ref)) c.active v
      (c.step m maxDepth (.store (some x) (some ref))) := by
  rw [IR.Config.step_store (hx.canonical h.toPlaced).1 hxv haddress, ← hmemory]
  cases hlocate : v.memory.locate address x.width.bytes x.width.size with
  | error s =>
    obtain ⟨w, hstops, hc⟩ := h.stops_store hv hx href hlocate hcode
    exact .fails (.ofAccess s) (Image.failsWith_of_stops hat hstops) hc
  | ok k =>
    obtain ⟨w, hrun, hget, hc⟩ := h.run_store hv hx href hlocate hcode
    obtain ⟨hlow, rfl, -⟩ := Memory.bounds_of_locate _ hlocate
    refine .next (Image.goes_of_run hat hrun) ?_ (fun y _ => hget y) (hc.mono (fun _ => .inl) ?_)
    · rintro d ⟨⟩
    · rintro y ⟨hle, hlt⟩
      exact .inr ⟨x, _, address, rfl, haddress, by omega, by omega⟩

end Homed

section

variable (h : e.Supplies i c v) (hhomed : e.Homed (v.regs .fp).toInt v.memory.size)
  (hv : v.Stands (v.regs .fp).toInt v.memory.size)
include h hhomed hv

/-- The code of an instruction that follows the rules of the function answers to the instruction. -/
theorem Supplies.answers_of_fits (hreadable : ∀ x ∈ i.uses, e.function.Readable x)
    (hfits : e.function.Fits site.block i) (hvars : ∀ d, i.dest? = some d → d ∈ e.function.vars) (hplain : i.IsPlain)
    (hindex : ∀ ref ∈ i.slotRef?, ∀ o, ref.index = some o → Operand.IsRegular (some o))
    (hcode : e.instr site n i = .ok em) (hat : img.CodeAt p em.code) (m : IR.Module) (maxDepth : Int) :
    e.Answers img p (p + em.code.length) i c.active v (c.step m maxDepth i) := by
  have hready := hhomed.ready
  have hdest : ∀ d, i.dest? = some d → d ∈ e.function.vars ∧ ∃ home, e.home d = .ok home := fun d hd =>
    ⟨hvars d hd, hhomed.exists_home (hvars d hd)⟩
  cases i with
  | binop _ d | cmp _ d | cast _ d =>
    obtain ⟨hd, home, hhome⟩ := hdest d rfl
    obtain ⟨result, hresult, hstep, hcomputes⟩ := hhomed.exists_computes hv (by exact hplain) rfl hd hhome
      (fun x hx => h.reads (hreadable x hx) hx) hfits hcode m maxDepth
    rw [hstep]
    exact hcomputes.answers _ .scalar hresult rfl hhome h.memory hat
  | load d ref =>
    obtain ⟨hd, home, hhome⟩ := hdest d rfl
    cases ref with
    | none => exact absurd hfits id
    | some ref =>
      obtain ⟨address, haddress, href⟩ := h.address hready hfits hreadable (fun _ => id) fun s hs => by
        subst hs
        exact hindex s rfl
      have hcomputes := hhomed.computes_load hv href hd hhome hcode
      rw [IR.Config.step_load (hhomed.width hd) haddress, ← h.memory]
      rw [View.read_eq (hhomed.width hd)] at hcomputes
      refine Computes.answers ((v.memory.locate address d.width.bytes d.width.size).map (v.memory.value d.width))
        ?_ .ofAccess (fun z hz => ?_) rfl hhome h.memory hat
      · cases hlocate : v.memory.locate address d.width.bytes d.width.size <;> rw [hlocate] at hcomputes <;>
          exact hcomputes
      · obtain ⟨k, -, rfl⟩ := Success.map_eq_ok.1 hz
        exact Memory.value_isCanonical _ _ _
  | store x ref =>
    obtain ⟨x, z, rfl, hxv, hx⟩ := h.reads (hreadable x (by simp [IR.Instr.uses])) (by simp [IR.Instr.uses])
    cases ref with
    | none => exact absurd hfits id
    | some ref =>
      obtain ⟨address, haddress, href⟩ := h.address hready hfits hreadable (fun _ => mem_cons_of_mem _) fun s hs => by
        subst hs
        exact hindex s rfl
      exact hhomed.answers_store hv hx hxv href haddress h.memory hcode hat
  | slotAddr d ref =>
    obtain ⟨hd, home, hhome⟩ := hdest d rfl
    obtain ⟨hwidth, haddressable⟩ := hfits
    obtain ⟨address, haddress, href⟩ := h.slotAddress hready haddressable hreadable (fun _ => id) (hindex ref rfl)
    rw [IR.Config.step_slotAddr haddress]
    refine Computes.answers (.ok _) (hhomed.computes_slotAddr hv href hd hhome hwidth hcode) .scalar ?_ rfl
      hhome h.memory hat
    rintro z ⟨⟩
    rw [hwidth]
    exact Width.canonical_w64 address
  | phi | call | jump | branch | ret => exact absurd hplain id

theorem Supplies.answers (hsite : site.block ∈ e.function.blocks) (hi : i ∈ site.block.code) (hplain : i.IsPlain)
    (hindex : ∀ ref ∈ i.slotRef?, ∀ o, ref.index = some o → Operand.IsRegular (some o))
    (hcode : e.instr site n i = .ok em) (hat : img.CodeAt p em.code) (m : IR.Module) (maxDepth : Int) :
    e.Answers img p (p + em.code.length) i c.active v (c.step m maxDepth i) :=
  have hwell := hhomed.ready.wellFormed
  h.answers_of_fits hhomed hv (hwell.readable _ hsite i hi) (hwell.fits _ hsite i hi)
    (fun _ hd => IR.Function.WellFormed.mem_vars_of_dest hsite hi hd) hplain hindex hcode hat m maxDepth

end

/-- Code does what its instruction does. An instruction of a function that passes the check has code if the machine has
    the instructions for it, and the code answers to the instruction from every state of the machine that has what the
    instruction reads and in whose memory the frame lies. -/
theorem instr_answers {config : RegisterCompiler.Config} {d : Descriptor} {f : Function} {a : Allocation} {l : Layout}
    (hd : config.descriptor = .ok d) (hf : f.verify = .ok ()) (ha : Allocation.ofFunction d f = .ok a)
    (hl : Layout.ofFunction d f a.spilled a.saved = .ok l) (hsite : site.block ∈ f.blocks) (hi : i ∈ site.block.code)
    (hplain : i.IsPlain) (hform : ∀ x ∈ i.form?, d.supports x.1 x.2)
    (hindex : ∀ ref ∈ i.slotRef?, ∀ o, ref.index = some o → Operand.IsRegular (some o)) (n : Nat) :
    ∃ em, Emission.instr ⟨f, a, l, d⟩ site n i = .ok em ∧
      ∀ (img : Image) (p : Nat) (v : View) (c : IR.Config), img.CodeAt p em.code → v.memory.size < 2 ^ 63 →
        l.LiesIn (v.regs .fp).toInt 0 v.memory.size → Supplies ⟨f, a, l, d⟩ i c v →
        ∀ (m : IR.Module) (maxDepth : Int),
          Answers ⟨f, a, l, d⟩ img p (p + em.code.length) i c.active v (c.step m maxDepth i) := by
  have hd := RegisterCompiler.Config.wellFormed_of_descriptor hd
  have hf := IR.Function.verify_eq_ok.1 hf
  have hready := Emission.ready hf ha hl
  -- The machine has all that the instruction needs, so its code is found.
  obtain ⟨em, hem, -⟩ := (@Ready.instr ⟨f, a, l, d⟩ [] n site hready hsite i hi).resolve_right
    fun ⟨⟨x, hx, hlacks⟩, _⟩ => hlacks (hform x hx)
  refine ⟨em, hem, fun img p v c hat hbound hlies hsupplies m maxDepth => ?_⟩
  exact hsupplies.answers (homed hd hf ha hl hbound hlies) ⟨rfl, rfl, hbound⟩ hsite hi hplain hindex hem hat m maxDepth

end Emission

namespace Selection

open Allocation (assignment ofFunction smallTarget)
open Meaning (smallConfig)

/-- A store of a variable at an index that is a variable. -/
def storeCell : IR.Instr := .store (some (.var ⟨2, .w64⟩)) (some (.slot ⟨0, some (.var ⟨0, .w64⟩), 8, 0⟩))

def cellsSite : BlockSite :=
  { block := ⟨0, "entry", [
      .binop .mul ⟨2, .w64⟩ (some (.var ⟨0, .w64⟩)) (some (.imm 3 .w64)), storeCell,
      .binop .sdiv ⟨3, .w64⟩ (some (.var ⟨2, .w64⟩)) (some (.var ⟨1, .w64⟩)),
      .ret (some (.var ⟨3, .w64⟩))]⟩
    next := none }

/-- A function in which the variable that is stored lives in the frame. -/
def cells : Function :=
  { name := "cells", params := [⟨0, .w64⟩, ⟨1, .w64⟩], result := .w64, entry := 0, slots := [⟨0, "a", 4, .w64⟩]
    blocks := [cellsSite.block] }

def cellsFrame : Layout :=
  { function := "cells", size := 48, argSize := 8
    areas := [⟨.save ⟨2⟩, -8, 8, 8⟩, ⟨.slot ⟨0, "a", 4, .w64⟩, -40, 32, 8⟩, ⟨.spill ⟨2, .w64⟩, -48, 8, 8⟩] }

def cellsEmission : Emission := ⟨cells, assignment smallTarget cells, cellsFrame, smallTarget⟩

/-- A state before the store, with the variable and the index in their homes. -/
def cellsView : View :=
  { regs := fun r => if r = .fp then 64 else if r = ⟨1⟩ then 2 else 0, memory := Memory.store ⟨128, ∅⟩ 16 6 8 }

def cellsConfig : IR.Config :=
  { active := ⟨cells, ((∅ : IR.Env).insert 0 2).insert 2 6, [24], 16, 0, cellsSite.block, []⟩, callers := []
    memory := cellsView.memory, steps := 0 }

theorem supplies_cells : cellsEmission.Supplies storeCell cellsConfig cellsView := by
  have hindex : cellsEmission.home ⟨0, .w64⟩ = .ok (.reg ⟨1⟩) := by cbv
  have hstored : cellsEmission.home ⟨2, .w64⟩ = .ok (.frame (-48)) := by cbv
  refine ⟨rfl, fun k offset hoffset => ?_, ?_⟩
  · cases k with
    | zero => cases hoffset; rfl
    | succ k => cases hoffset
  · refine forall_mem_cons.2 ⟨⟨?_, fun p hp => ?_⟩, forall_mem_singleton.2 ⟨?_, fun p hp => ?_⟩⟩
    · exact Width.canonical_w64 _
    · cases hstored.symm.trans hp
      rfl
    · exact Width.canonical_w64 _
    · cases hindex.symm.trans hp
      rfl

theorem instr_answers_cells :
    smallConfig.descriptor = .ok smallTarget ∧ cells.verify = .ok () ∧
      ofFunction smallTarget cells = .ok (assignment smallTarget cells) ∧
      Layout.ofFunction smallTarget cells (assignment smallTarget cells).spilled (assignment smallTarget cells).saved =
        .ok cellsFrame ∧
      cellsSite.block ∈ cells.blocks ∧ storeCell ∈ cellsSite.block.code ∧ storeCell.IsPlain ∧
      (∀ x ∈ storeCell.form?, smallTarget.supports x.1 x.2) ∧
      (∀ ref ∈ storeCell.slotRef?, ∀ o, ref.index = some o → Operand.IsRegular (some o)) ∧
      cellsView.memory.size < 2 ^ 63 ∧ cellsFrame.LiesIn (cellsView.regs .fp).toInt 0 cellsView.memory.size ∧
      cellsEmission.Supplies storeCell cellsConfig cellsView ∧
      ∃ em, cellsEmission.instr cellsSite 0 storeCell = .ok em ∧
        cellsEmission.Answers ⟨em.code.toArray, []⟩ 0 (0 + em.code.length) storeCell cellsConfig.active cellsView
          (cellsConfig.step ⟨[]⟩ 1 storeCell) := by
  have hd := Meaning.descriptor_smallConfig
  have ha : ofFunction smallTarget cells = .ok (assignment smallTarget cells) := by cbv
  have hl : Layout.ofFunction smallTarget cells (assignment smallTarget cells).spilled (assignment smallTarget cells).saved =
      .ok cellsFrame := by cbv
  have hindex : ∀ ref ∈ storeCell.slotRef?, ∀ o, ref.index = some o → Operand.IsRegular (some o) := by
    rintro ref ⟨⟩ o ⟨⟩
    trivial
  have hform : ∀ x ∈ storeCell.form?, smallTarget.supports x.1 x.2 := by
    rintro x ⟨⟩
    rfl
  have hlies : cellsFrame.LiesIn (cellsView.regs .fp).toInt 0 cellsView.memory.size := by decide
  have hi : storeCell ∈ cellsSite.block.code := mem_cons_of_mem _ mem_cons_self
  obtain ⟨em, hem, hanswers⟩ := Emission.instr_answers hd rfl ha hl mem_cons_self hi trivial hform hindex 0
  refine ⟨hd, rfl, ha, hl, mem_cons_self, hi, trivial, hform, hindex, by decide, hlies, supplies_cells, em, hem, ?_⟩
  exact hanswers _ 0 _ _ (fun k j hj => by simpa using hj) (by decide) hlies supplies_cells _ _

/-- A conversion that does not exist. -/
def foreignCast : IR.Instr := .cast (.other 3) ⟨1, .w64⟩ (some (.var ⟨0, .w8⟩))

def foreignSite : BlockSite := { block := ⟨0, "entry", [foreignCast, .ret (some (.var ⟨1, .w64⟩))]⟩, next := none }

def foreign : Function :=
  { name := "f", params := [⟨0, .w8⟩], result := .w64, entry := 0, slots := [], blocks := [foreignSite.block] }

def foreignEmission : Emission :=
  { function := foreign, allocation := assignment smallTarget foreign, target := smallTarget
    layout := { function := "f", areas := [⟨.save ⟨2⟩, -8, 8, 8⟩], size := 16, argSize := 8 } }

def foreignState : Machine.State :=
  { memory := ⟨128, ∅⟩, regs := (Vector.replicate Reg.count 0).set 16 64 |>.set 1 5 }

def foreignConfig : IR.Config :=
  { active := ⟨foreign, (∅ : IR.Env).insert 0 5, [], 64, 0, foreignSite.block, []⟩, callers := []
    memory := ⟨128, ∅⟩, steps := 0 }

/-- A conversion that does not exist leaves its operand as it is in the interpreter, and has no code. -/
theorem not_answers_foreignCast :
    smallConfig.descriptor = .ok smallTarget ∧ foreign.verify = .ok () ∧
      ofFunction smallTarget foreign = .ok foreignEmission.allocation ∧
      Layout.ofFunction smallTarget foreign foreignEmission.allocation.spilled foreignEmission.allocation.saved =
        .ok foreignEmission.layout ∧
      foreignSite.block ∈ foreign.blocks ∧ foreignCast ∈ foreignSite.block.code ∧
      (∀ x ∈ foreignCast.form?, smallTarget.supports x.1 x.2) ∧
      foreignEmission.layout.LiesIn (foreignState.view.regs .fp).toInt 0 foreignState.view.memory.size ∧
      foreignEmission.Supplies foreignCast foreignConfig foreignState.view ∧
      foreignEmission.instr foreignSite 0 foreignCast = .ok ⟨[], []⟩ ∧
      ¬foreignEmission.Answers ⟨#[], []⟩ 0 0 foreignCast foreignConfig.active foreignState.view
        (foreignConfig.step ⟨[]⟩ 1 foreignCast) := by
  have hoperand : foreignEmission.home ⟨0, .w8⟩ = .ok (.reg ⟨1⟩) := by cbv
  have hresult : foreignEmission.home ⟨1, .w64⟩ = .ok (.reg ⟨2⟩) := by cbv
  have heval : (CastOp.other 3).eval .w8 .w64 (foreignConfig.active.env.getD 0 0) = 5 := by decide +kernel
  have hstep : foreignConfig.step ⟨[]⟩ 1 foreignCast = .ok (.next (foreignConfig.assign ⟨1, .w64⟩ 5)) :=
    (IR.Config.step_cast rfl).trans (congrArg (fun x => Except.ok (Progress.next (foreignConfig.assign ⟨1, .w64⟩ x))) heval)
  refine ⟨by cbv, rfl, by cbv, by cbv, mem_cons_self, mem_cons_self, ?_, by decide, ⟨rfl, ?_, ?_⟩, by cbv, ?_⟩
  · rintro x ⟨⟩
    rfl
  · rintro k offset ⟨⟩
  · refine forall_mem_singleton.2 ⟨by decide +kernel, fun p hp => ?_⟩
    cases hoperand.symm.trans hp
    decide +kernel
  · rw [hstep]
    intro hanswers
    cases hanswers with
    | next goes result memory changes =>
      -- Where there is no code the machine stays where it is.
      obtain ⟨t, hreach, -, rfl, -⟩ := goes foreignState rfl rfl rfl
      have hstays : t = foreignState := by
        rcases hreach.cases_head with rfl | ⟨u, hadvances, -⟩
        · rfl
        · cases hadvances with
          | pass hinstr | step hinstr => cases hinstr
      obtain ⟨-, p, hp, hheld⟩ := result _ rfl
      cases hresult.symm.trans hp
      rw [hstays] at hheld
      exact absurd hheld (by decide +kernel)

end Selection

end RegisterCompiler
