import RegisterCompiler.Proofs.Operands

/-!
# Instructions compute what they should

The code of an instruction with a result fetches its operands, computes, and leaves the result in the home of its
variable; nothing else changes but scratch registers. `Emission.Computes` says so for a result or a failure, and there
is one law for each kind of instruction, beside that of the interpreter. A store has no result, but writes.
-/

namespace RegisterCompiler

open IR (EvalCause MemRef Operand Var)
open Machine (Cause View)
open Machine.View (Changes IsSparing)
open Success

/-! ## Steps of the interpreter -/

namespace IR

theorem readValue_eq {w : Width} (hw : w.isValid) (m : Memory) (address : Int64) :
    readValue m w address = ((m.locate address w.bytes w.size).mapError EvalCause.ofAccess).map (m.value w) := by
  have hmin : min w.size 8 = w.size := Nat.min_eq_left (Width.size_of_isValid hw).2.2
  unfold readValue
  rw [hmin]
  cases m.locate address w.bytes w.size <;> rfl

theorem writeValue_eq {w : Width} (hw : w.isValid) (m : Memory) (address x : Int64) :
    writeValue m w address x = ((m.locate address w.bytes w.size).mapError EvalCause.ofAccess).map fun a =>
      m.store a x.toUInt64 w.size := by
  have hsize : ¬8 < w.size := Nat.not_lt.2 (Width.size_of_isValid hw).2.2
  unfold writeValue
  cases m.locate address w.bytes w.size with
  | error c => rfl
  | ok a => exact if_neg hsize

/-- An instruction that computes from its operands alone. -/
def Instr.IsScalar : Instr → Prop
  | .binop .. | .cmp .. => True
  | .cast op _ _ => op ∈ CastOp.all
  | _ => False

namespace Config

variable {c : Config} {m : Module} {maxDepth : Int} {d : Var} {x y : Option Operand} {o : Operand} {ref : Option MemRef}
  {a b address : Int64}

theorem step_binop {op : BinOp} (hx : c.active.value x = .ok a) (hy : c.active.value y = .ok b) :
    c.step m maxDepth (.binop op d x y) =
      ((op.eval d.width a b).mapError EvalCause.scalar).map fun z => .next (c.assign d z) := by
  simp only [step, hx, hy, bind, Except.bind]
  cases op.eval d.width a b <;> rfl

theorem step_cmp {cond : Cond} (hx : c.active.value (some o) = .ok a) (hy : c.active.value y = .ok b) :
    c.step m maxDepth (.cmp cond d (some o) y) = .ok (.next (c.assign d (if cond.eval o.width a b then 1 else 0))) := by
  simp only [step, hx, hy, bind, Except.bind, Activation.widthOf]
  rfl

theorem step_cast {op : CastOp} (hx : c.active.value (some o) = .ok a) :
    c.step m maxDepth (.cast op d (some o)) = .ok (.next (c.assign d (op.eval o.width d.width a))) := by
  simp only [step, hx, bind, Except.bind, Activation.widthOf]
  rfl

theorem step_load (hd : d.width.isValid) (href : c.active.address ref = .ok address) :
    c.step m maxDepth (.load d ref) =
      (((c.memory.locate address d.width.bytes d.width.size).map (c.memory.value d.width)).mapError
        EvalCause.ofAccess).map fun z => .next (c.assign d z) := by
  simp only [step, href, bind, Except.bind, readValue_eq hd]
  cases c.memory.locate address d.width.bytes d.width.size <;> rfl

theorem step_store (ho : o.width.isValid) (hx : c.active.value (some o) = .ok a) (href : c.active.address ref = .ok address) :
    c.step m maxDepth (.store (some o) ref) =
      ((c.memory.locate address o.width.bytes o.width.size).mapError EvalCause.ofAccess).map fun n =>
        .next { c with memory := c.memory.store n a.toUInt64 o.width.size } := by
  simp only [step, hx, href, bind, Except.bind, Activation.widthOf, writeValue_eq ho]
  cases c.memory.locate address o.width.bytes o.width.size <;> rfl

theorem step_slotAddr {ref : SlotRef} (href : c.active.slotAddress ref = .ok address) :
    c.step m maxDepth (.slotAddr d ref) = .ok (.next (c.assign d address)) := by
  simp only [step, href, bind, Except.bind]
  rfl

end Config

end IR

/-! ## Results in registers -/

namespace Machine.View

/-- Code that leaves a result in a register, or stops where it begins for want of one. -/
def Leaves (v : View) (code : List Asm.Instr) (r : Reg) : Except Cause Int64 → Prop
  | .ok x => v.run code = .ok (v.set r x)
  | .error c => v.Stops code c v

theorem leaves_singleton {v : View} {i : Asm.Instr} {r : Reg} {result : Except Cause Int64}
    (h : v.exec i = result.map (v.set r)) (hi : IsSparing i) : v.Leaves [i] r result := by
  cases result with
  | ok x => exact (run_singleton v i).trans h
  | error c => exact stops_singleton h hi

end Machine.View

namespace Emission

/-- Code that leaves a result in the home of a variable, or stops with the cause for which there is none. -/
def Computes (e : Emission) (base : Int) (d : Var) (p : Place) (v : View) (code : List Asm.Instr) :
    Except Cause Int64 → Prop
  | .ok x => ∃ w, v.run code = .ok w ∧ w.held base d.width p = x ∧
      Changes (fun r => r ∈ e.target.scratch ∨ p = .reg r) (p.Covers base d.width) v w
  | .error c => ∃ w, v.Stops code c w ∧ Changes (· ∈ e.target.scratch) (fun _ => False) v w

variable {e : Emission} {base : Int} {size n : Nat} {u v w : View} {x y : Operand} {a b address : Int64} {d : Var}
  {p : Place} {code last : List Asm.Instr} {r : Reg} {result : Except Cause Int64} {site : BlockSite} {em : Emitted}
  {ref : MemRef}

theorem Computes.prepend (h : e.Computes base d p v last result) (hrun : u.run code = .ok v)
    (hc : Changes (· ∈ e.target.scratch) (fun _ => False) u v) : e.Computes base d p u (code ++ last) result := by
  cases result with
  | error c =>
    obtain ⟨w, hstops, hchanges⟩ := h
    exact ⟨w, hstops.prepend hrun, hc.trans hchanges⟩
  | ok x =>
    obtain ⟨w, hw, hheld, hchanges⟩ := h
    refine ⟨w, ?_, hheld, (hc.mono (fun _ => .inl) fun _ => False.elim).trans hchanges⟩
    rw [View.run_append, hrun]
    exact hw

namespace Homed

theorem computes_produce (h : e.Homed base size) (hv : v.Stands base size) (hd : d ∈ e.function.vars)
    (hp : e.home d = .ok p) {make : Reg → List Asm.Instr} (hcode : e.produce d make = .ok code)
    (hmake : ∀ r, r.num < 16 → v.Leaves (make r) r result) (hresult : ∀ x, result = .ok x → d.width.IsCanonical x) :
    e.Computes base d p v code result := by
  obtain ⟨r, last, rfl, hgeneral, hr, hlast⟩ := h.produce_cases hd hp hcode
  have hleaves := hmake r hgeneral
  cases result with
  | error c => exact ⟨v, hleaves.append last, .refl v⟩
  | ok x =>
    have hset := View.changes_set (fun _ => False) v r x
    obtain ⟨w, hw, hheld, hchanges⟩ := hlast (v.set r x) (hv.of_changes hset (Reg.ne_fp hgeneral).symm)
      (by rw [View.regs_set_self]; exact hresult x rfl)
    refine ⟨w, ?_, hheld.trans (View.regs_set_self v r x), ?_⟩
    · rw [View.run_append, hleaves]
      exact hw
    · refine (hset.mono ?_ fun _ => False.elim).trans (hchanges.mono (fun _ => False.elim) fun _ ha => ha)
      rintro q rfl
      exact hr

section

variable (h : e.Homed base size) (hv : v.Stands base size) (hx : e.Reads base v x a) (hy : e.Reads base v y b)
  (hd : d ∈ e.function.vars) (hp : e.home d = .ok p)
include h hv hx hy hd hp

theorem computes_binary {ofReg : Reg → Reg → Reg → Asm.Instr} {ofImm : Reg → Reg → Int64 → Asm.Instr}
    (hcode : e.binary d x y ofReg ofImm = .ok code) (op : Int64 → Int64 → Except Cause Int64)
    (hop : ∀ c, op a (y.width.canonical c) = op a c) (hresult : ∀ z, op a b = .ok z → d.width.IsCanonical z)
    (hreg : ∀ (v : View) r s t, r.num < 16 → s.num < 16 → t.num < 16 →
      v.exec (ofReg r s t) = (op (v.regs s) (v.regs t)).map (v.set r) ∧ IsSparing (ofReg r s t))
    (himm : ∀ (v : View) r s c, r.num < 16 → s.num < 16 →
      v.exec (ofImm r s c) = (op (v.regs s) c).map (v.set r) ∧ IsSparing (ofImm r s c)) :
    e.Computes base d p v code (op a b) := by
  obtain ⟨s, hs, hcode⟩ := bind_eq_ok.1 hcode
  obtain ⟨v₁, hrun₁, hs₁, hsgeneral, hsfree, hle, hchanges₁⟩ := h.run_fetch hv hx hs
  have hscratch₁ := Scratch.changes hchanges₁
  have hv₁ := hv.of_changes hscratch₁ h.fp_not_scratch
  cases y with
  | imm c wd =>
    obtain ⟨last, hlast, hcode⟩ := bind_eq_ok.1 hcode
    cases hcode
    obtain ⟨-, rfl⟩ := hy
    refine Computes.prepend (h.computes_produce hv₁ hd hp hlast (fun r hr => ?_) hresult) hrun₁ hscratch₁
    rw [show op a (wd.canonical c) = op a c from hop c, ← hs₁]
    exact View.leaves_singleton (himm v₁ r s.reg c hr hsgeneral).1 (himm v₁ r s.reg c hr hsgeneral).2
  | var u =>
    obtain ⟨t, ht, hcode⟩ := bind_eq_ok.1 hcode
    obtain ⟨last, hlast, hcode⟩ := bind_eq_ok.1 hcode
    cases hcode
    obtain ⟨v₂, hrun₂, ht₂, htgeneral, -, -, hchanges₂⟩ := h.run_fetch hv₁ (hy.of_scratch h.toPlaced hscratch₁) ht
    have hscratch₂ := Scratch.changes hchanges₂
    have hv₂ := hv₁.of_changes hscratch₂ h.fp_not_scratch
    -- The first operand is not overwritten by the second, which takes other scratch registers.
    have hs₂ : v₂.regs s.reg = a := by
      rw [hchanges₂.regs, hs₁]
      intro htaken
      rcases hsfree with hfree | htaken'
      · exact hfree htaken.mem
      · exact h.scratch_ne htaken' htaken
    refine Computes.prepend (h.computes_produce hv₂ hd hp hlast (fun r hr => ?_) hresult) ?_
      (hscratch₁.trans hscratch₂)
    · rw [← hs₂, ← ht₂]
      exact View.leaves_singleton (hreg v₂ r s.reg t.reg hr hsgeneral htgeneral).1
        (hreg v₂ r s.reg t.reg hr hsgeneral htgeneral).2
    · rw [View.run_append, hrun₁]
      exact hrun₂

theorem computes_binop {op : BinOp} (hwidth : y.width = d.width)
    (hcode : e.instr site n (.binop op d (some x) (some y)) = .ok em) :
    e.Computes base d p v em.code ((op.eval d.width a b).mapError .scalar) := by
  obtain ⟨-, -, hcode⟩ := bind_eq_ok.1 hcode
  obtain ⟨code, hbinary, ⟨⟩⟩ := bind_eq_ok.1
    (show (do pure ⟨← e.binary d x y (.alu op d.width) (.aluImm op d.width), []⟩ : Except EmitError Emitted) = .ok em
      from hcode)
  refine h.computes_binary hv hx hy hd hp hbinary (fun a b => (op.eval d.width a b).mapError Cause.scalar)
    (fun c => by rw [hwidth, BinOp.eval_canonical_right])
    (fun z hz => BinOp.eval_isCanonical (mapError_eq_ok.1 hz)) (fun v r s t hr hs ht => ⟨?_, trivial⟩)
    fun v r s c hr hs => ⟨?_, Reg.ne_sp hr⟩
  · simp only [View.exec, View.get_general hs, View.get_general ht, bind, Except.bind]
    cases op.eval d.width (v.regs s) (v.regs t) with
    | error s => rfl
    | ok z => exact View.put_general hr z
  · simp only [View.exec, View.get_general hs, bind, Except.bind]
    cases op.eval d.width (v.regs s) c with
    | error s => rfl
    | ok z =>
      simp only [Except.mapError, View.put_general hr, if_neg (Reg.ne_sp hr)]
      rfl

theorem computes_cmp {cond : Cond} (hwidth : y.width = x.width)
    (hcode : e.instr site n (.cmp cond d (some x) (some y)) = .ok em) :
    e.Computes base d p v em.code (.ok (if cond.eval x.width a b then 1 else 0)) := by
  obtain ⟨-, -, hcode⟩ := bind_eq_ok.1
    (show (do e.require site.block (.cmp cond d (some x) (some y)) x.width .cmp
              pure ⟨← e.binary d x y (.cmp cond x.width) (.cmpImm cond x.width), []⟩ : Except EmitError Emitted) = .ok em
      from hcode)
  obtain ⟨code, hbinary, ⟨⟩⟩ := bind_eq_ok.1 hcode
  refine h.computes_binary hv hx hy hd hp hbinary (fun a b => .ok (if cond.eval x.width a b then 1 else 0))
    (fun c => by rw [hwidth, Cond.eval_canonical_right]) ?_ (fun v r s t hr hs ht => ⟨?_, trivial⟩)
    fun v r s c hr hs => ⟨?_, trivial⟩
  · rintro z ⟨⟩
    exact isCanonical_ite_one_zero (h.width hd) _
  · simp only [View.exec, View.get_general hs, View.get_general ht, bind, Except.bind]
    exact View.put_general hr _
  · simp only [View.exec, View.get_general hs, bind, Except.bind]
    exact View.put_general hr _

end

section

variable (h : e.Homed base size) (hv : v.Stands base size)
include h hv

theorem computes_cast (hx : e.Reads base v x a) (hd : d ∈ e.function.vars) (hp : e.home d = .ok p) {op : CastOp}
    (hop : op ∈ CastOp.all) (hwidths : if op = .trunc then d.width.bits < x.width.bits else x.width.bits < d.width.bits)
    (hcode : e.instr site n (.cast op d (some x)) = .ok em) :
    e.Computes base d p v em.code (.ok (op.eval x.width d.width a)) := by
  obtain ⟨-, -, hcode⟩ := bind_eq_ok.1
    (show (do e.require site.block (.cast op d (some x)) d.width .move
              let s ← e.fetch 0 x
              pure ⟨s.code ++ (← e.produce d fun r => castCode op x.width d.width r s.reg), []⟩ :
              Except EmitError Emitted) = .ok em from hcode)
  obtain ⟨y, hy, hcode⟩ := bind_eq_ok.1 hcode
  obtain ⟨last, hlast, ⟨⟩⟩ := bind_eq_ok.1 hcode
  obtain ⟨v₁, hrun₁, hy₁, hgeneral, -, -, hchanges⟩ := h.run_fetch hv hx hy
  have hscratch := Scratch.changes hchanges
  have hv₁ := hv.of_changes hscratch h.fp_not_scratch
  have hsource := (hx.canonical h.toPlaced).1
  have hdest := h.width hd
  refine Computes.prepend (h.computes_produce hv₁ hd hp hlast (fun r hr => ?_) ?_) hrun₁ hscratch
  · change v₁.run _ = _
    simp only [CastOp.all, List.mem_cons, List.not_mem_nil, or_false] at hop
    rcases hop with rfl | rfl | rfl
    on_goal 1 => rw [CastOp.eval_sext hsource hdest hwidths]
    on_goal 2 => rw [CastOp.eval_zext hsource hdest hwidths]
    all_goals
      rw [castCode, View.run_singleton]
      simp only [View.exec, View.get_general hgeneral, bind, Except.bind, hy₁]
      exact View.put_general hr _
  · rintro z ⟨⟩
    exact CastOp.eval_isCanonical a

/-- A scalar instruction has the result of the interpreter, if its operands have their values. -/
theorem exists_computes {c : IR.Config} {block : IR.Block} {i : IR.Instr} (hi : i.IsScalar) (hdest : i.dest? = some d)
    (hd : d ∈ e.function.vars) (hp : e.home d = .ok p)
    (hreads : ∀ x ∈ i.uses, ∃ y z, x = some y ∧ c.active.value x = .ok z ∧ e.Reads base v y z)
    (hfits : e.function.Fits block i) (hcode : e.instr site n i = .ok em) (m : IR.Module) (maxDepth : Int) :
    ∃ result : Except ScalarError Int64, (∀ z, result = .ok z → d.width.IsCanonical z) ∧
      c.step m maxDepth i = ((result.mapError EvalCause.scalar).map fun z => .next (c.assign d z)) ∧
      e.Computes base d p v em.code (result.mapError .scalar) := by
  cases i with
  | binop op dest x y =>
    cases hdest
    obtain ⟨x, a, rfl, hxv, hx⟩ := hreads x List.mem_cons_self
    obtain ⟨y, b, rfl, hyv, hy⟩ := hreads y (List.mem_cons_of_mem _ List.mem_cons_self)
    exact ⟨_, fun z => BinOp.eval_isCanonical, IR.Config.step_binop hxv hyv,
      h.computes_binop hv hx hy hd hp (Option.some.inj hfits.2) hcode⟩
  | cmp cond dest x y =>
    cases hdest
    obtain ⟨x, a, rfl, hxv, hx⟩ := hreads x List.mem_cons_self
    obtain ⟨y, b, rfl, hyv, hy⟩ := hreads y (List.mem_cons_of_mem _ List.mem_cons_self)
    refine ⟨.ok _, ?_, IR.Config.step_cmp hxv hyv, h.computes_cmp hv hx hy hd hp (Option.some.inj hfits.1).symm hcode⟩
    rintro z ⟨⟩
    exact isCanonical_ite_one_zero (h.width hd) _
  | cast op dest x =>
    cases hdest
    obtain ⟨x, a, rfl, hxv, hx⟩ := hreads x List.mem_cons_self
    obtain ⟨_, ⟨⟩, hwidths⟩ := hfits
    refine ⟨.ok _, ?_, IR.Config.step_cast hxv, h.computes_cast hv hx hd hp hi hwidths hcode⟩
    rintro z ⟨⟩
    exact CastOp.eval_isCanonical a
  | _ => cases hi

/-! ## Accesses -/

theorem computes_load (href : e.Addresses base v ref address) (hd : d ∈ e.function.vars) (hp : e.home d = .ok p)
    (hcode : e.instr site n (.load d (some ref)) = .ok em) :
    e.Computes base d p v em.code (v.read d.width address) := by
  obtain ⟨-, -, hcode⟩ := bind_eq_ok.1 hcode
  obtain ⟨y, hy, hcode⟩ := bind_eq_ok.1
    (show (do let a ← e.address 0 ref
              pure ⟨a.code ++ (← e.produce d fun r => [.load d.width r a.addr]), []⟩ : Except EmitError Emitted) = .ok em
      from hcode)
  obtain ⟨last, hlast, ⟨⟩⟩ := bind_eq_ok.1 hcode
  obtain ⟨v₁, hrun₁, heffective, -, hchanges⟩ := h.run_address hv href hy
  have hscratch := Scratch.changes hchanges
  have hv₁ := hv.of_changes hscratch h.fp_not_scratch
  refine Computes.prepend (h.computes_produce hv₁ hd hp hlast (fun r hr => ?_) fun z hz => ?_) hrun₁ hscratch
  · refine View.leaves_singleton ?_ trivial
    simp only [View.exec, heffective, bind, Except.bind, hscratch.read_eq (h.width hd)]
    cases v.read d.width address with
    | error c => rfl
    | ok z => exact View.put_general hr z
  · rw [View.read_eq (h.width hd)] at hz
    cases hlocate : v.memory.locate address d.width.bytes d.width.size with
    | error c =>
      rw [hlocate] at hz
      cases hz
    | ok k =>
      rw [hlocate] at hz
      cases hz
      exact Memory.value_isCanonical _ _ _

theorem computes_slotAddr {ref : IR.SlotRef} (href : e.Addresses base v (.slot ref) address) (hd : d ∈ e.function.vars)
    (hp : e.home d = .ok p) (hwidth : d.width = .w64) (hcode : e.instr site n (.slotAddr d ref) = .ok em) :
    e.Computes base d p v em.code (.ok address) := by
  obtain ⟨code, hslotAddr, ⟨⟩⟩ := bind_eq_ok.1 hcode
  obtain ⟨offset, z, hoffset, hindex, haddress⟩ := href
  obtain ⟨slot, index, scale, off⟩ := ref
  have hslot : e.slotOffset slot = .ok offset := by simp [slotOffset, hoffset]
  obtain ⟨offset', hslot', hslotAddr⟩ := bind_eq_ok.1 hslotAddr
  cases hslot.symm.trans hslot'
  have hcanonical : ∀ z, Except.ok (ε := Cause) address = .ok z → d.width.IsCanonical z := fun z _ => by
    rw [hwidth]
    exact Width.canonical_w64 z
  have hlea : ∀ (v : View) (r : Reg) (c : Int64), r.num < 16 →
      v.exec (.lea r { base := .fp, offset := c }) = .ok (v.set r (v.regs .fp + c)) :=
    fun v r c hr => View.put_general hr _
  dsimp only at *
  rcases index with _ | (i | ⟨c, wd⟩)
  · refine h.computes_produce hv hd hp hslotAddr (fun r hr => ?_) hcanonical
    refine (View.run_singleton v _).trans ((hlea v r _ hr).trans ?_)
    exact congrArg (fun x => Except.ok (v.set r x)) (by grind)
  · obtain ⟨y, hy, hrest⟩ := bind_eq_ok.1 hslotAddr
    obtain ⟨last, hlast, ⟨⟩⟩ := bind_eq_ok.1 hrest
    obtain ⟨v₁, hrun₁, hz, hgeneral, -, -, hchanges⟩ := h.run_fetch hv (hindex _ rfl).1 hy
    have hscratch := Scratch.changes hchanges
    have hfp := hscratch.regs _ h.fp_not_scratch
    refine Computes.prepend (h.computes_produce (hv.of_changes hscratch h.fp_not_scratch) hd hp hlast (fun r hr => ?_)
      hcanonical) hrun₁ hscratch
    refine (View.run_singleton v₁ _).trans ((View.exec_lea_index hr hgeneral v₁ _ _).trans ?_)
    rw [hz, hfp]
    exact congrArg (fun x => Except.ok (v₁.set r x)) (by grind)
  · obtain ⟨⟨-, rfl⟩, hregular⟩ := hindex _ rfl
    have hc : wd.canonical c = c := hregular
    refine h.computes_produce hv hd hp hslotAddr (fun r hr => ?_) hcanonical
    refine (View.run_singleton v _).trans ((hlea v r _ hr).trans ?_)
    exact congrArg (fun x => Except.ok (v.set r x)) (by grind)

end

variable (h : e.Homed base size) (hv : v.Stands base size) (hx : e.Reads base v x b)
  (href : e.Addresses base v ref address)
include h hv hx href

theorem run_store_operands (hcode : e.instr site n (.store (some x) (some ref)) = .ok em) :
    ∃ code r addr w, em.code = code ++ [.store x.width r addr] ∧ v.run code = .ok w ∧ r.num < 16 ∧ w.regs r = b ∧
      w.effective addr = .ok address ∧ Changes (· ∈ e.target.scratch) (fun _ => False) v w := by
  obtain ⟨-, -, hcode⟩ := bind_eq_ok.1
    (show (do e.require site.block (.store (some x) (some ref)) x.width .store
              let s ← e.fetch 0 x
              let a ← e.address s.used ref
              pure ⟨s.code ++ a.code ++ [.store x.width s.reg a.addr], []⟩ : Except EmitError Emitted) = .ok em
      from hcode)
  obtain ⟨s, hs, hcode⟩ := bind_eq_ok.1 hcode
  obtain ⟨y, hy, ⟨⟩⟩ := bind_eq_ok.1 hcode
  obtain ⟨v₁, hrun₁, hs₁, hgeneral, hsfree, -, hchanges₁⟩ := h.run_fetch hv hx hs
  have hscratch₁ := Scratch.changes hchanges₁
  have hv₁ := hv.of_changes hscratch₁ h.fp_not_scratch
  obtain ⟨v₂, hrun₂, heffective, -, hchanges₂⟩ := h.run_address hv₁ (href.of_scratch h.toPlaced hscratch₁) hy
  refine ⟨s.code ++ y.code, s.reg, y.addr, v₂, rfl, ?_, hgeneral, ?_, heffective,
    hscratch₁.trans (Scratch.changes hchanges₂)⟩
  · rw [View.run_append, hrun₁]
    exact hrun₂
  · rw [hchanges₂.regs, hs₁]
    intro htaken
    rcases hsfree with hfree | htaken'
    · exact hfree htaken.mem
    · exact h.scratch_ne htaken' htaken

theorem run_store {k : Nat} (hlocate : v.memory.locate address x.width.bytes x.width.size = .ok k)
    (hcode : e.instr site n (.store (some x) (some ref)) = .ok em) :
    ∃ w, v.run em.code = .ok w ∧ (∀ m, w.memory.get m = (v.memory.store k b.toUInt64 x.width.size).get m) ∧
      Changes (· ∈ e.target.scratch) (fun m => k ≤ m ∧ m < k + x.width.size) v w := by
  obtain ⟨code, r, addr, w, hem, hrun, hr, hb, heffective, hc⟩ := h.run_store_operands hv hx href hcode
  have hget := Memory.get_store_congr (hc.bytes · id) k x.width.size b.toUInt64
  refine ⟨{ w with memory := w.memory.store k b.toUInt64 x.width.size }, ?_, hget, hc.regs, fun m hm => ?_, ?_⟩
  · rw [hem, View.run_append, hrun]
    simp only [bind, Except.bind, View.run_singleton, View.exec, heffective,
      View.get_general hr, hb]
    rw [View.write_eq (hx.canonical h.toPlaced).1, Memory.locate_congr hc.size, hlocate]
    rfl
  · exact (hget m).trans (Memory.get_store_of_outside _ (by omega) _)
  · exact (Memory.size_store _ _ _ _).trans hc.size

theorem stops_store {c : AccessError} (hlocate : v.memory.locate address x.width.bytes x.width.size = .error c)
    (hcode : e.instr site n (.store (some x) (some ref)) = .ok em) :
    ∃ w, v.Stops em.code (.ofAccess c) w ∧ Changes (· ∈ e.target.scratch) (fun _ => False) v w := by
  obtain ⟨code, r, addr, w, hem, hrun, hr, hb, heffective, hc⟩ := h.run_store_operands hv hx href hcode
  have hstop : w.exec (.store x.width r addr) = .error (.ofAccess c) := by
    simp only [View.exec, heffective, bind, Except.bind, View.get_general hr]
    rw [View.write_eq (hx.canonical h.toPlaced).1, Memory.locate_congr hc.size, hlocate]
    rfl
  exact ⟨w, hem ▸ (View.stops_singleton hstop trivial).prepend hrun, hc⟩

end Homed

theorem toInt_element (hv : v.Stands base size) {offset first element : Int64} (hfirst : 0 ≤ first.toInt)
    (helement : first.toInt ≤ element.toInt) (hlow : 0 ≤ base + offset.toInt)
    (hhigh : base + offset.toInt + (element.toInt - first.toInt) ≤ size) :
    (v.regs .fp + offset + (element - first)).toInt = base + offset.toInt + (element.toInt - first.toInt) := by
  have := hv.bound
  have := element.toInt_lt
  have hdiff : (element - first).toInt = element.toInt - first.toInt := by
    rw [toInt_sub_of_bounds] <;> omega
  have hcell : (v.regs .fp + offset).toInt = base + offset.toInt := by
    rw [toInt_add_of_bounds] <;> rw [hv.fp] <;> omega
  rw [toInt_add_of_bounds] <;> rw [hcell, hdiff] <;> omega

end Emission

end RegisterCompiler
