import RegisterCompiler.Proofs.Selection
import RegisterCompiler.Proofs.Transfer

/-!
# Constants as they stand

A branch on a constant is decided, and an element with a constant index is located, when the code is made. Both go by the
constant as it stands, while the interpreter takes the value of the constant at its width. So the machine does what the
interpreter would do if these constants were as wide as a register (`IR.Instr.widened`).
-/

namespace RegisterCompiler

open List
open IR (Activation Block BlockId Function MemRef Operand SlotRef Var)
open Machine (Image View)
open Success

/-! ## Wide constants -/

namespace IR

variable {f : Function}

/-- An operand, with a constant as it stands. -/
def Operand.widened : Operand → Operand
  | .imm x _ => .imm x .w64
  | .var v => .var v

/-- An element, with a constant index as it stands. -/
def SlotRef.widened (ref : SlotRef) : SlotRef := { ref with index := ref.index.map Operand.widened }

/-- An instruction, with a constant condition or a constant index as it stands. -/
def Instr.widened : Instr → Instr
  | .load dest (some (.slot ref)) => .load dest (some (.slot ref.widened))
  | .store source (some (.slot ref)) => .store source (some (.slot ref.widened))
  | .slotAddr dest ref => .slotAddr dest ref.widened
  | .branch condition t f => .branch (condition.map Operand.widened) t f
  | i => i

theorem Operand.isRegular_widened (o : Operand) : IsRegular (some o.widened) := by
  cases o with
  | imm x w => exact Width.canonical_w64 x
  | var v => trivial

theorem Function.Readable.widened {x : Option Operand} (h : f.Readable x) : f.Readable (x.map Operand.widened) := by
  rcases x with _ | (x | v)
  · exact h
  · exact h
  · rfl

namespace Instr

variable {i : Instr} {x : Option Operand}

theorem mem_uses_slot_widened {ref : SlotRef} (h : x ∈ (MemRef.slot ref.widened).uses) :
    ∃ y ∈ (MemRef.slot ref).uses, x = y.map Operand.widened := by
  obtain ⟨slot, index, scale, offset⟩ := ref
  cases index with
  | none => cases h
  | some o => exact ⟨some o, mem_cons_self, mem_singleton.1 h⟩

theorem mem_uses_widened : x ∈ i.widened.uses → ∃ y ∈ i.uses, x = y ∨ x = y.map Operand.widened := by
  fun_cases widened i with
  | case1 dest ref | case3 dest ref =>
    intro h
    obtain ⟨y, hy, rfl⟩ := mem_uses_slot_widened h
    exact ⟨y, hy, .inr rfl⟩
  | case2 source ref =>
    intro h
    rcases mem_cons.1 h with rfl | h
    · exact ⟨x, mem_cons_self, .inl rfl⟩
    · obtain ⟨y, hy, rfl⟩ := mem_uses_slot_widened h
      exact ⟨y, mem_cons_of_mem _ hy, .inr rfl⟩
  | case4 condition t f => exact fun h => ⟨condition, mem_cons_self, .inr (mem_singleton.1 h)⟩
  | case5 => exact fun h => ⟨x, h, .inl rfl⟩

theorem mem_usedVars_of_widened {u : Var} (h : u ∈ i.widened.usedVars) : u ∈ i.usedVars := by
  obtain ⟨x, hx, hu⟩ := mem_filterMap.1 h
  refine mem_filterMap.2 ?_
  obtain ⟨y, hy, rfl | rfl⟩ := mem_uses_widened hx
  · exact ⟨x, hy, hu⟩
  · refine ⟨y, hy, ?_⟩
    rcases y with _ | (y | v)
    · exact hu
    · exact hu
    · cases hu

theorem dest?_widened : i.widened.dest? = i.dest? := by
  fun_cases widened i <;> rfl

theorem IsPlain.widened (h : i.IsPlain) : i.widened.IsPlain := by
  fun_cases Instr.widened i <;> trivial

theorem slotRef?_widened : i.widened.slotRef? = i.slotRef?.map SlotRef.widened := by
  fun_cases widened i with
  | case1 | case2 | case3 | case4 => rfl
  | case5 _ hload hstore haddr =>
    fun_cases slotRef? i with
    | case1 dest ref => exact absurd rfl (hload dest ref)
    | case2 source ref => exact absurd rfl (hstore source ref)
    | case3 dest ref => exact absurd rfl (haddr dest ref)
    | case4 => rfl

end Instr

theorem Instr.slotRef?_cases {i : Instr} {ref : SlotRef} : i.slotRef? = some ref →
    (∃ dest, i = .load dest (some (.slot ref))) ∨ (∃ source, i = .store source (some (.slot ref))) ∨
      ∃ dest, i = .slotAddr dest ref := by
  fun_cases Instr.slotRef? i with
  | case1 dest => rintro ⟨⟩; exact .inl ⟨dest, rfl⟩
  | case2 source => rintro ⟨⟩; exact .inr (.inl ⟨source, rfl⟩)
  | case3 dest => rintro ⟨⟩; exact .inr (.inr ⟨dest, rfl⟩)
  | case4 => rintro ⟨⟩

theorem Function.Fits.of_slotRef {b : Block} {i : Instr} {ref : SlotRef} (h : f.Fits b i) (href : i.slotRef? = some ref) :
    i.IsPlain ∧ f.Addressable (some (.slot ref)) := by
  rcases Instr.slotRef?_cases href with ⟨dest, rfl⟩ | ⟨source, rfl⟩ | ⟨dest, rfl⟩
  · exact ⟨trivial, h⟩
  · exact ⟨trivial, h⟩
  · exact ⟨trivial, h.2⟩

/-- The address of a machine instruction that accesses an element as an instruction does. -/
def Instr.access? : Instr → Asm.Instr → Option Asm.Addr
  | .load .., .load _ _ a | .store .., .store _ _ a | .slotAddr .., .lea _ a => some a
  | _, _ => none

theorem Activation.slotAddress_of_imm (a : Activation) {ref : SlotRef} {base x : Int64} {wd : Width}
    (hbase : a.slotBase ref.slot = .ok base) (hindex : ref.index = some (.imm x wd)) :
    a.slotAddress ref = .ok (base + ref.offset + wd.canonical x * ref.scale) := by
  simp only [slotAddress, hbase, hindex, bind, Except.bind]
  rfl

theorem Function.Fits.widened {b : Block} {i : Instr} (h : f.Fits b i) : f.Fits b i.widened := by
  fun_cases Instr.widened i <;> exact h

end IR

namespace Emission

variable {e : Emission} {site : BlockSite} {n p : Nat} {i : IR.Instr} {em : Emitted} {img : Image} {b : Block} {v : View}
  {c : IR.Config} {ref : SlotRef} {x : Int64} {wd : Width}

/-! ## The code of wide constants -/

theorem address_widened (ref : SlotRef) : e.address n (.slot ref.widened) = e.address n (.slot ref) := by
  obtain ⟨slot, index, scale, offset⟩ := ref
  rcases index with _ | (_ | _) <;> rfl

theorem slotAddr_widened (d : Var) (ref : SlotRef) : e.slotAddr d ref.widened = e.slotAddr d ref := by
  obtain ⟨slot, index, scale, offset⟩ := ref
  rcases index with _ | (_ | _) <;> rfl

theorem require_of_eq_ok {j : IR.Instr} {form : Form} {u : Unit} (h : e.require b i wd form = .ok u) :
    e.require b j wd form = .ok u := by
  unfold require at h ⊢
  split at h
  · next hsupports => rw [if_pos hsupports, h]
  · cases h

theorem instr_widened (h : e.instr site n i = .ok em) : e.instr site n i.widened = .ok em := by
  fun_cases IR.Instr.widened i with
  | case1 dest ref =>
    obtain ⟨u, hrequire, h⟩ := bind_eq_ok.1 h
    obtain ⟨_, ⟨⟩, h⟩ := bind_eq_ok.1 h
    obtain ⟨a, ha, h⟩ := bind_eq_ok.1 h
    exact bind_eq_ok.2 ⟨u, require_of_eq_ok hrequire,
      bind_eq_ok.2 ⟨_, rfl, bind_eq_ok.2 ⟨a, (address_widened ref).trans ha, h⟩⟩⟩
  | case2 source ref =>
    obtain ⟨o, ho, h⟩ := bind_eq_ok.1 h
    obtain ⟨u, hrequire, h⟩ := bind_eq_ok.1 h
    obtain ⟨s, hs, h⟩ := bind_eq_ok.1 h
    obtain ⟨_, ⟨⟩, h⟩ := bind_eq_ok.1 h
    obtain ⟨a, ha, h⟩ := bind_eq_ok.1 h
    refine bind_eq_ok.2 ⟨o, ho, bind_eq_ok.2 ⟨u, require_of_eq_ok hrequire, ?_⟩⟩
    exact bind_eq_ok.2 ⟨s, hs, bind_eq_ok.2 ⟨_, rfl,
      bind_eq_ok.2 ⟨a, (address_widened ref).trans ha, h⟩⟩⟩
  | case3 dest ref => simpa only [instr, slotAddr_widened] using h
  | case4 condition t f => rcases condition with _ | (_ | _) <;> exact h
  | case5 => exact h

/-! ## Elements -/

theorem filterMap_produce (kind : Asm.Instr → Option Asm.Addr) (hstore : ∀ w r a, kind (.store w r a) = none) {d : Var}
    {make : Reg → List Asm.Instr} {code : List Asm.Instr} (h : e.produce d make = .ok code) :
    ∃ r, code.filterMap kind = (make r).filterMap kind := by
  obtain ⟨r, -, h⟩ := bind_eq_ok.1 h
  obtain ⟨last, hlast, ⟨⟩⟩ := bind_eq_ok.1 h
  refine ⟨r, ?_⟩
  have hnone : last.filterMap kind = [] := by
    unfold writeBack at hlast
    split at hlast
    · obtain ⟨offset, -, ⟨⟩⟩ := bind_eq_ok.1 hlast
      rw [filterMap_cons_none (hstore _ _ _), filterMap_nil]
    · cases hlast
      rfl
  rw [filterMap_append, hnone, append_nil]

theorem filterMap_fetch {o : Operand} {y : Fetched} (h : e.fetch n o = .ok y) (source : Option Operand)
    (target : Option MemRef) : y.code.filterMap (IR.Instr.store source target).access? = [] := by
  obtain ⟨s, -, h⟩ := bind_eq_ok.1 h
  rcases s with (r | offset) | x
  · cases h
    rfl
  · obtain ⟨r, -, ⟨⟩⟩ := bind_eq_ok.1 h
    rfl
  · obtain ⟨r, -, ⟨⟩⟩ := bind_eq_ok.1 h
    rfl

/-- The code of an instruction accesses an element with a constant index where the constant is as it stands. -/
theorem filterMap_instr {offset : Int64} (href : i.slotRef? = some ref) (hindex : ref.index = some (.imm x wd))
    (hoffset : e.layout.slotOffset? ref.slot = some offset) (hem : e.instr site n i = .ok em) :
    em.code.filterMap i.access? = [{ base := .fp, offset := offset + ref.offset + x * ref.scale }] := by
  have hslot : e.slotOffset ref.slot = .ok offset := by rw [slotOffset, hoffset]
  have haddress : ∀ n, e.address n (.slot ref) =
      .ok ⟨[], { base := .fp, offset := offset + ref.offset + x * ref.scale }, n⟩ := fun n => by
    simp only [address, hslot, hindex, bind, Except.bind]
    rfl
  rcases IR.Instr.slotRef?_cases href with ⟨dest, rfl⟩ | ⟨source, rfl⟩ | ⟨dest, rfl⟩
  · obtain ⟨-, -, hem⟩ := bind_eq_ok.1 hem
    obtain ⟨_, ⟨⟩, hem⟩ := bind_eq_ok.1 hem
    obtain ⟨a, ha, hem⟩ := bind_eq_ok.1 hem
    obtain ⟨last, hlast, ⟨⟩⟩ := bind_eq_ok.1 hem
    cases (haddress 0).symm.trans ha
    obtain ⟨r, hr⟩ := filterMap_produce (IR.Instr.load dest (some (.slot ref))).access? (fun _ _ _ => rfl) hlast
    exact hr
  · obtain ⟨o, -, hem⟩ := bind_eq_ok.1 hem
    obtain ⟨-, -, hem⟩ := bind_eq_ok.1 hem
    obtain ⟨s, hs, hem⟩ := bind_eq_ok.1 hem
    obtain ⟨_, ⟨⟩, hem⟩ := bind_eq_ok.1 hem
    obtain ⟨a, ha, ⟨⟩⟩ := bind_eq_ok.1 hem
    cases (haddress s.used).symm.trans ha
    rw [append_nil, filterMap_append, filterMap_fetch hs]
    rfl
  · obtain ⟨code, hcode, ⟨⟩⟩ := bind_eq_ok.1 hem
    have hproduce : e.produce dest (fun r => [.lea r { base := .fp, offset := offset + ref.offset + x * ref.scale }]) =
        .ok code := by
      simpa only [slotAddr, hslot, hindex, bind, Except.bind] using hcode
    obtain ⟨r, hr⟩ := filterMap_produce (IR.Instr.slotAddr dest ref).access? (fun _ _ _ => rfl) hproduce
    exact hr

theorem Supplies.widened (h : e.Supplies i c v) : e.Supplies i.widened c v :=
  { h with vars := fun u hu => h.vars u (IR.Instr.mem_usedVars_of_widened hu) }

theorem Supplies.answers_widened (h : e.Supplies i c v) (hhomed : e.Homed (v.regs .fp).toInt v.memory.size)
    (hv : v.Stands (v.regs .fp).toInt v.memory.size) (hsite : site.block ∈ e.function.blocks) (hi : i ∈ site.block.code)
    (hplain : i.IsPlain) (hcode : e.instr site n i = .ok em) (hat : img.CodeAt p em.code) (m : IR.Module) (maxDepth : Int) :
    e.Answers img p (p + em.code.length) i.widened c.active v (c.step m maxDepth i.widened) := by
  have hwell := hhomed.ready.wellFormed
  refine h.widened.answers_of_fits hhomed hv (fun x hx => ?_) (hwell.fits _ hsite i hi).widened (fun d hd => ?_)
    hplain.widened (fun ref href o ho => ?_) (instr_widened hcode) hat m maxDepth
  · obtain ⟨y, hy, rfl | rfl⟩ := IR.Instr.mem_uses_widened hx
    · exact hwell.readable _ hsite i hi x hy
    · exact (hwell.readable _ hsite i hi y hy).widened
  · exact IR.Function.WellFormed.mem_vars_of_dest hsite hi (IR.Instr.dest?_widened ▸ hd)
  · rw [IR.Instr.slotRef?_widened] at href
    obtain ⟨narrow, -, rfl⟩ := Option.mem_map.1 href
    obtain ⟨y, -, rfl⟩ := Option.map_eq_some_iff.1 ho
    exact y.isRegular_widened

/-- The address of an element with a constant index, for the interpreter and with the constant as it stands. -/
theorem Supplies.slotAddress_imm (h : e.Supplies i c v) (hready : e.Ready)
    (haddressable : e.function.Addressable (some (.slot ref))) (hindex : ref.index = some (.imm x wd)) :
    ∃ offset, e.layout.slotOffset? ref.slot = some offset ∧
      c.active.slotAddress ref = .ok (v.regs .fp + offset + ref.offset + wd.canonical x * ref.scale) ∧
      c.active.slotAddress ref.widened = .ok (v.regs .fp + offset + ref.offset + x * ref.scale) := by
  obtain ⟨offset, hoffset, hbase⟩ := h.slotBase hready haddressable
  refine ⟨offset, hoffset, c.active.slotAddress_of_imm hbase hindex, ?_⟩
  have hwide : ref.widened.index = some (.imm x .w64) := by rw [SlotRef.widened, hindex]; rfl
  have haddress := c.active.slotAddress_of_imm (show c.active.slotBase ref.widened.slot = _ from hbase) hwide
  rwa [Width.canonical_w64] at haddress

/-! ## Branches -/

/-- The machine goes on with the block that a constant condition chooses as it stands. -/
theorem Bears.branch_imm {base : Int} {size : Nat} {a : Activation} {t f : BlockId}
    (h : e.Bears base a b (b.code.length - 1) v) (hlinked : e.Linked img) (hresolves : img.Resolves)
    (hhomed : e.Homed base size) (hv : v.Stands base size) (hb : b ∈ e.function.blocks)
    (hlast : b.code.getLast? = some (.branch (some (.imm x wd)) t f))
    (hcode : e.RestAt img b [.branch (some (.imm x wd)) t f] p) :
    ∃ s ∈ e.function.blocks, s.id = (if x ≠ 0 then t else f) ∧
      ∃ q w, img.Goes p v q w ∧ e.BlockAt img s.id q ∧ e.Crosses base b s a v w := by
  have hdemand := hhomed.ready.demand b hb _ (mem_of_getLast? hlast)
  refine h.jumpTo hlinked hresolves hhomed hv hb hlast rfl ?_
    ((Ready.demand_branch hdemand).2 _ mem_cons_self) (fun site n em hem => ?_) hcode
  · exact IR.Instr.ite_mem_successors (x ≠ 0)
  · obtain ⟨code, hcode, ⟨⟩⟩ := bind_eq_ok.1 (show (do
      pure ⟨← e.jumpTo site (if x ≠ 0 then t else f), []⟩ : Except EmitError Emitted) = .ok em from hem)
    exact hcode

theorem choice_eq_iff (hwd : wd.isValid) (x : Int64) (t f : BlockId) :
    (if wd.canonical x ≠ 0 then t else f) = (if x ≠ 0 then t else f) ↔ t = f ∨ (wd.canonical x = 0 → x = 0) := by
  have hzero : wd.canonical 0 = 0 := isCanonical_ite_one_zero hwd false
  by_cases hx : x = 0
  · subst hx
    simp [hzero]
  · by_cases hcanonical : wd.canonical x = 0
    · simp [hx, hcanonical, eq_comm]
    · simp [hx, hcanonical]

/-- The interpreter goes on with the block that the value of a constant condition chooses at its width. -/
theorem exists_step_branch_imm {t t' : BlockId} (hwell : c.active.function.WellFormed) (hb : b ∈ c.active.function.blocks)
    (hi : .branch (some (.imm x wd)) t t' ∈ b.code) (m : IR.Module) (maxDepth : Int) :
    ∃ c', c.step m maxDepth (.branch (some (.imm x wd)) t t') = .ok (.next c') ∧
      c'.active.blockId = if wd.canonical x ≠ 0 then t else t' := by
  obtain ⟨s, hs, hid, -⟩ := hwell.exists_of_mem_successors hb hi (IR.Instr.ite_mem_successors (wd.canonical x ≠ 0))
  obtain ⟨a, hgo, -, hblockId⟩ := exists_goTo_block hwell hs c.active.blockId
  rw [hid] at hgo hblockId
  refine ⟨{ c with active := a }, ?_, hblockId⟩
  simp only [IR.Config.step, Activation.value, bind, Except.bind, hgo]
  rfl

/-- Constants are taken as they stand. A function is compiled, and its code is in a program that can be loaded. At a branch
    on a constant the interpreter goes on with the block that the value of the constant at its width chooses; the scratch
    registers are counted for the block that the constant chooses as it stands, and the machine gets to that one, from every
    state that has what is live there. An instruction that refers to an element with a constant index accesses, for the
    interpreter, the element of the value at the width. The access in its code has the address that the constant gives as it
    stands, and the code does what the interpreter would do at that address, from every state that has what the instruction
    reads. -/
theorem constants_stand {config : RegisterCompiler.Config} {d : Descriptor} {f : Function} {k : Compiled}
    {prog : Asm.Program} (hd : config.descriptor = .ok d) (hk : f.compile d = .ok k) (hmem : k.code ∈ prog.functions)
    (hload : Image.load prog.flatten = .ok img) (hb : b ∈ f.blocks) :
    (∀ x wd t t', b.code.getLast? = some (.branch (some (.imm x wd)) t t') →
      (∃ p, RestAt ⟨f, k.allocation, k.layout, d⟩ img b [.branch (some (.imm x wd)) t t'] p) ∧
      ∀ (p : Nat) (v : View) (c : IR.Config), RestAt ⟨f, k.allocation, k.layout, d⟩ img b [.branch (some (.imm x wd)) t t'] p →
        v.memory.size < 2 ^ 63 → k.layout.LiesIn (v.regs .fp).toInt 0 v.memory.size → c.active.function = f →
        Bears ⟨f, k.allocation, k.layout, d⟩ (v.regs .fp).toInt c.active b (b.code.length - 1) v →
        ∀ (m : IR.Module) (maxDepth : Int), ∃ c' s q w,
          c.step m maxDepth (.branch (some (.imm x wd)) t t') = .ok (.next c') ∧
          c'.active.blockId = (if wd.canonical x ≠ 0 then t else t') ∧
          s ∈ f.blocks ∧ s.id = (if x ≠ 0 then t else t') ∧
          Allocation.takenSuccessors (.branch (some (.imm x wd)) t t') = [s.id] ∧
          img.Goes p v q w ∧ BlockAt ⟨f, k.allocation, k.layout, d⟩ img s.id q ∧
          Crosses ⟨f, k.allocation, k.layout, d⟩ (v.regs .fp).toInt b s c.active v w ∧
          (c'.active.blockId = s.id ↔ t = t' ∨ (wd.canonical x = 0 → x = 0))) ∧
    ∀ (n : Nat) i ref x wd, b.code[n]? = some i → i.slotRef? = some ref → ref.index = some (.imm x wd) →
      (∃ p, RestAt ⟨f, k.allocation, k.layout, d⟩ img b (b.code.drop n) p) ∧
      ∀ (p : Nat) (v : View) (c : IR.Config), RestAt ⟨f, k.allocation, k.layout, d⟩ img b (b.code.drop n) p →
        v.memory.size < 2 ^ 63 → k.layout.LiesIn (v.regs .fp).toInt 0 v.memory.size →
        Supplies ⟨f, k.allocation, k.layout, d⟩ i c v →
        ∃ offset code addr, k.layout.slotOffset? ref.slot = some offset ∧
          img.CodeAt p code ∧ code.filterMap i.access? = [addr] ∧
          (∀ u : View, u.effective addr = .ok (u.regs .fp + offset + ref.offset + x * ref.scale)) ∧
          c.active.slotAddress ref = .ok (v.regs .fp + offset + ref.offset + wd.canonical x * ref.scale) ∧
          c.active.slotAddress ref.widened = .ok (v.regs .fp + offset + ref.offset + x * ref.scale) ∧
          RestAt ⟨f, k.allocation, k.layout, d⟩ img b (b.code.drop (n + 1)) (p + code.length) ∧
          (∀ (m : IR.Module) (maxDepth : Int), Answers ⟨f, k.allocation, k.layout, d⟩ img p (p + code.length) i.widened
            c.active v (c.step m maxDepth i.widened)) ∧
          (c.active.slotAddress ref = c.active.slotAddress ref.widened ↔ wd.canonical x * ref.scale = x * ref.scale) := by
  have hd := RegisterCompiler.Config.wellFormed_of_descriptor hd
  obtain ⟨hwell, ha, hl, hemit⟩ := IR.Function.compile_eq_ok hk
  obtain ⟨-, hresolves⟩ := Image.load_eq_ok hload
  have hlinked := linked_of_load hemit hmem hload
  refine ⟨fun x wd t t' hlast => ⟨?_, fun p v c hrest hbound hlies hfunction hbears m maxDepth => ?_⟩,
    fun n i ref x wd hn href hindex => ⟨?_, fun p v c hrest hbound hlies hsupplies => ?_⟩⟩
  · obtain ⟨body, hbody⟩ := getLast?_eq_some_iff.1 hlast
    exact hlinked.exists_restAt hb hbody
  · have hi := mem_of_getLast? hlast
    obtain ⟨s, hs, hid, q, w, hgoes, hat, hcross⟩ := hbears.branch_imm hlinked hresolves
      (homed hd hwell ha hl hbound hlies) ⟨rfl, rfl, hbound⟩ hb hlast hrest
    obtain ⟨c', hstep, hblockId⟩ := exists_step_branch_imm (hfunction ▸ hwell) (hfunction ▸ hb) hi m maxDepth
    refine ⟨c', s, q, w, hstep, hblockId, hs, hid, hid ▸ rfl, hgoes, hat, hcross, ?_⟩
    rw [hblockId, hid, choice_eq_iff (hwell.readable b hb _ hi _ mem_cons_self)]
  · exact hlinked.exists_restAt hb (take_append_drop n b.code).symm
  · obtain ⟨hlt, hget⟩ := List.getElem?_eq_some_iff.1 hn
    rw [drop_eq_getElem_cons hlt, hget] at hrest
    obtain ⟨site, edges, em, rfl, hem, hat, -, hafter, -⟩ := hrest.cons
    have hi := mem_of_getElem? hn
    have hhomed := homed hd hwell ha hl hbound hlies
    obtain ⟨hplain, haddressable⟩ := (hwell.fits _ hb i hi).of_slotRef href
    obtain ⟨offset, hoffset, hnarrow, hwide⟩ := hsupplies.slotAddress_imm hhomed.ready haddressable hindex
    refine ⟨offset, em.code, _, hoffset, hat, filterMap_instr href hindex hoffset hem, fun u => ?_, hnarrow, hwide, hafter,
      hsupplies.answers_widened hhomed ⟨rfl, rfl, hbound⟩ hb hi hplain hem hat, ?_⟩
    · exact congrArg Except.ok (by rw [Int64.add_assoc, Int64.add_assoc, Int64.add_assoc])
    · rw [hnarrow, hwide, Except.ok.injEq, Int64.add_right_inj]

end Emission

namespace Constants

open Allocation (assignment smallTarget)
open Meaning (callCompiled smallConfig)

def cell (x : Int64) (wd : Width) : SlotRef := ⟨0, some (.imm x wd), 8, 0⟩

def loadCell (x : Int64) : IR.Instr := .load ⟨0, .w64⟩ (some (.slot (cell x .w8)))

def onConstant (y : Int64) : IR.Instr := .branch (some (.imm y .w8)) 1 2

/-- The block with both of them, after 7 is stored as the second element. -/
def elementBlock (x y : Int64) : Block :=
  ⟨0, "entry", [.store (some (.imm 7 .w64)) (some (.slot (cell 1 .w64))), loadCell x, onConstant y]⟩

def element (x y : Int64) : Function :=
  { name := "at", params := [], result := .w64, entry := 0, slots := [⟨0, "a", 4, .w64⟩]
    blocks := [elementBlock x y, ⟨1, "then", [.ret (some (.var ⟨0, .w64⟩))]⟩, ⟨2, "else", [.ret (some (.imm 2 .w64))]⟩] }

def elementFrame : Layout :=
  { function := "at", size := 32, argSize := 8, areas := [⟨.slot ⟨0, "a", 4, .w64⟩, -32, 32, 8⟩] }

/-- What its code is made from, for the element of the index 1 and the condition 0 at the width of these constants. -/
def elementEmission : Emission := ⟨element (-255) 256, assignment smallTarget (element (-255) 256), elementFrame, smallTarget⟩

def elementView : View := { regs := fun r => if r = .fp then 3000 else 0, memory := ⟨4096, ∅⟩ }

def elementConfig : IR.Config :=
  { active := ⟨element (-255) 256, ∅, [2968], 2968, 0, elementBlock (-255) 256, []⟩, callers := [], memory := ⟨4096, ∅⟩
    steps := 0 }

theorem bears_element (b : Block) (n : Nat) :
    elementEmission.Bears (elementView.regs .fp).toInt elementConfig.active b n elementView := by
  have hvars : elementEmission.function.vars = [⟨0, .w64⟩] := rfl
  have hhome : elementEmission.home ⟨0, .w64⟩ = .ok (.reg ⟨1⟩) := by cbv
  intro u hu _
  rw [hvars] at hu
  cases mem_singleton.1 hu
  refine ⟨Width.canonical_w64 _, fun q hq => ?_⟩
  cases hhome.symm.trans hq
  rfl

theorem supplies_element : elementEmission.Supplies (loadCell (-255)) elementConfig elementView := by
  refine ⟨rfl, fun n offset hoffset => ?_, forall_mem_nil _⟩
  cases n with
  | zero => cases hoffset; rfl
  | succ n => cases hoffset

/-- The constants -255 and 256 are 1 and 0 at their width. The machine goes to the block for a condition that holds, and the
    load is 256 elements away from the one that the interpreter loads. -/
theorem constants_stand_element :
    smallConfig.descriptor = .ok smallTarget ∧ elementBlock (-255) 256 ∈ (element (-255) 256).blocks ∧
      elementFrame.LiesIn (elementView.regs .fp).toInt 0 elementView.memory.size ∧
      ∃ k img, (element (-255) 256).compile smallTarget = .ok k ∧ Image.load (Asm.Program.flatten ⟨"", [k.code]⟩) = .ok img ∧
        (∃ p c q w, elementEmission.RestAt img (elementBlock (-255) 256) [onConstant 256] p ∧
          elementConfig.step ⟨[]⟩ 1 (onConstant 256) = .ok (.next c) ∧ c.active.blockId = 2 ∧
          img.Goes p elementView q w ∧ elementEmission.BlockAt img 1 q) ∧
        ∃ p q addr, elementEmission.RestAt img (elementBlock (-255) 256) [loadCell (-255), onConstant 256] p ∧
          (∀ u : View, u.effective addr = .ok (u.regs .fp + -32 + 0 + -255 * 8)) ∧
          elementConfig.active.slotAddress (cell (-255) .w8) = .ok 2976 ∧
          elementConfig.active.slotAddress (cell (-255) .w64) = .ok 928 ∧
          elementEmission.Answers img p q (loadCell (-255)).widened elementConfig.active elementView
            (elementConfig.step ⟨[]⟩ 1 (loadCell (-255)).widened) := by
  have hd := Meaning.descriptor_smallConfig
  have hlabels : ((element (-255) 256).compile smallTarget).map (fun k =>
      (Asm.Program.flatten ⟨"", [k.code]⟩).filterMap Asm.Instr.label?) =
      .ok ["at", ".Lat.entry", ".Lat.then", ".Lat.else"] := by cbv
  have hlies : elementFrame.LiesIn (elementView.regs .fp).toInt 0 elementView.memory.size := by decide
  obtain ⟨k, img, hk, hallocation, hlayout, hload⟩ :=
    IR.Function.exists_load hlabels (by decide) (l := elementFrame) (by cbv)
  obtain ⟨hbranch, haccess⟩ := Emission.constants_stand hd hk mem_cons_self hload
    (show elementBlock (-255) 256 ∈ (element (-255) 256).blocks from mem_cons_self)
  rw [hallocation, hlayout] at hbranch haccess
  obtain ⟨⟨p, hp⟩, hbranch⟩ := hbranch 256 .w8 1 2 rfl
  obtain ⟨c, s, q, w, hstep, hchosen, -, hid, -, hgoes, hat, -⟩ :=
    hbranch p elementView elementConfig hp (by decide) hlies rfl (bears_element _ _) ⟨[]⟩ 1
  obtain ⟨⟨p', hp'⟩, haccess⟩ := haccess 1 (loadCell (-255)) (cell (-255) .w8) (-255) .w8 rfl rfl rfl
  obtain ⟨offset, code, addr, hoffset, -, -, heffective, hnarrow, hwide, -, hanswers, -⟩ :=
    haccess p' elementView elementConfig hp' (by decide) hlies supplies_element
  cases hoffset
  rw [show s.id = 1 from hid] at hat
  exact ⟨hd, mem_cons_self, hlies, k, img, hk, hload, ⟨p, c, q, w, hp, hstep, hchosen, hgoes, hat⟩, p', _, addr, hp',
    heffective, hnarrow, hwide, hanswers ⟨[]⟩ 1⟩

/-- Verified functions with constants that are not of their width, for which the machine takes the other branch or loads
    another element. -/
theorem constants_ne_eval :
    ((element 1 256).verify = .ok () ∧
      (IR.Module.eval { functions := [element 1 256] } { maxSteps := 9 } ⟨4096, ∅⟩ "at" []).result.toOption = some 2 ∧
      callCompiled {} { functions := [element 1 256] } ⟨4096, ∅⟩ "at" [] = some 7) ∧
    (element (-255) 1).verify = .ok () ∧
      (IR.Module.eval { functions := [element (-255) 1] } { maxSteps := 9 } ⟨4096, ∅⟩ "at" []).result.toOption = some 7 ∧
      callCompiled {} { functions := [element (-255) 1] } ⟨4096, ∅⟩ "at" [] = some 0 := by
  decide +kernel

end Constants

end RegisterCompiler
