import RegisterCompiler.Machine.Run
import RegisterCompiler.Proofs.Memory

/-!
# Straight code

Code without jumps works on the registers and the memory alone. `View` is a state of the machine reduced to these,
and `View.run` executes code on it; that the machine does the same is shown part by part along the definition of an
instruction (`View.Gives`, `View.Does`).
-/

namespace RegisterCompiler.Machine

open Asm (Addr Instr)

/-- The registers and the memory. -/
structure View where
  regs : Reg → Int64
  memory : Memory

/-- The registers and the memory of a state. A register that does not exist reads as zero. -/
def State.view (s : State) : View := ⟨fun r => s.regs[r.num.toNat]?.getD 0, s.memory⟩

namespace View

variable {x : Exec Unit} {s : State} {g : View → Except Cause View}

def set (v : View) (r : Reg) (x : Int64) : View := { v with regs := fun q => if q = r then x else v.regs q }

@[simp]
theorem regs_set_self (v : View) (r : Reg) (x : Int64) : (v.set r x).regs r = x := if_pos rfl

@[simp]
theorem regs_set_of_ne (v : View) {q r : Reg} (x : Int64) (h : q ≠ r) : (v.set r x).regs q = v.regs q := if_neg h

@[simp]
theorem memory_set (v : View) (r : Reg) (x : Int64) : (v.set r x).memory = v.memory := rfl

/-! ## Instructions -/

def get (v : View) (r : Reg) : Except Cause Int64 :=
  if r.num.toNat < Reg.count then .ok (v.regs r) else .error .crash

def put (v : View) (r : Reg) (x : Int64) : Except Cause View :=
  if r.num.toNat < Reg.count then .ok (v.set r x) else .error .crash

def read (v : View) (w : Width) (address : Int64) : Except Cause Int64 :=
  ({ memory := v.memory } : State).read w address

def write (v : View) (w : Width) (address x : Int64) : Except Cause View := do
  let s ← ({ memory := v.memory } : State).write w address x
  pure { v with memory := s.memory }

def push (v : View) (x : Int64) : Except Cause View :=
  let sp := v.regs .sp - 8
  if sp < 0 then .error .stackOverflow
  else do
    let v ← v.write .w64 sp x
    pure (v.set .sp sp)

/-- The address that a memory operand stands for. -/
def effective (v : View) (a : Addr) : Except Cause Int64 := do
  let base ← v.get a.base
  match a.index with
  | none => pure (base + a.offset)
  | some i => pure (base + a.offset + (← v.get i.reg) * i.scale)

def checkStack (v : View) : Except Cause View :=
  if v.regs .sp < 0 then .error .stackOverflow else .ok v

/-- Executes an instruction that does not jump; others have no meaning here. -/
def exec (v : View) : Instr → Except Cause View
  | .mov w d s => do v.put d (w.canonical (← v.get s))
  | .movImm w d x => v.put d (w.canonical x)
  | .sext w d s => do v.put d (w.canonical (← v.get s))
  | .zext w d s => do v.put d (w.low (← v.get s)).toInt64
  | .alu op w d x y => do v.put d (← (op.eval w (← v.get x) (← v.get y)).mapError .scalar)
  | .aluImm op w d x y => do
    let v ← v.put d (← (op.eval w (← v.get x) y).mapError .scalar)
    if d = .sp then v.checkStack else pure v
  | .cmp c w d x y => do v.put d (Exec.truth (c.eval w (← v.get x) (← v.get y)))
  | .cmpImm c w d x y => do v.put d (Exec.truth (c.eval w (← v.get x) y))
  | .load w d a => do v.put d (← v.read w (← v.effective a))
  | .store w r a => do v.write w (← v.effective a) (← v.get r)
  | .lea d a => do v.put d (← v.effective a)
  | .push r => do v.push (← v.get r)
  | .pop d => do
    let x ← v.read .w64 (v.regs .sp)
    (v.set .sp (v.regs .sp + 8)).put d x
  | .label _ | .comment _ => .ok v
  | _ => .error .crash

def run (v : View) : List Instr → Except Cause View
  | [] => .ok v
  | i :: rest => do (← v.exec i).run rest

theorem run_append (v : View) (code rest : List Instr) : v.run (code ++ rest) = (do (← v.run code).run rest) := by
  induction code generalizing v with
  | nil => rfl
  | cons i code ih =>
    simp only [List.cons_append, run]
    cases v.exec i with
    | error c => rfl
    | ok v => exact ih v

@[simp]
theorem run_singleton (v : View) (i : Instr) : v.run [i] = v.exec i := by
  simp only [run]
  cases v.exec i <;> rfl

/-! ## What the machine does -/

section

variable {α β : Type}

/-- A part of an instruction that computes a value from the registers and the memory. -/
def Gives (x : Exec α) (g : View → Except Cause α) : Prop := ∀ s : State, x.run s = (g s.view, s)

/-- A part of an instruction that changes the registers and the memory only. -/
def Does (x : Exec Unit) (g : View → Except Cause View) : Prop :=
  ∀ s : State, match g s.view with
    | .ok v => ∃ t, x.run s = (.ok (), t) ∧ t.view = v ∧ t.pc = s.pc ∧ t.halted = s.halted
    | .error c => ∃ t, x.run s = (.error c, t)

theorem run_bind (x : Exec α) (k : α → Exec β) (s : State) :
    (x >>= k).run s = match x.run s with
      | (.ok a, t) => (k a).run t
      | (.error c, t) => (.error c, t) := by
  change (match x.run s with | (r, t) => (ExceptT.bindCont k r).run t) = _
  rcases x.run s with ⟨_ | _, t⟩ <;> rfl

theorem run_get (s : State) : (MonadState.get : Exec State).run s = (.ok s, s) := rfl

theorem run_modify (g : State → State) (s : State) : (modify g : Exec Unit).run s = (.ok (), g s) := rfl

theorem run_pure (a : α) (s : State) : (pure a : Exec α).run s = (.ok a, s) := rfl

theorem run_throw (c : Cause) (s : State) : (throw c : Exec α).run s = (.error c, s) := rfl

/-- A part of an instruction that leaves the state as it is if it fails. -/
def Spares (x : Exec Unit) (g : View → Except Cause View) : Prop :=
  ∀ (s : State) (c : Cause), g s.view = .error c → x.run s = (.error c, s)

theorem Gives.bind {x : Exec α} {g : View → Except Cause α} {k : α → Exec β} {h : α → View → Except Cause β}
    (hx : Gives x g) (hk : ∀ a, Gives (k a) (h a)) : Gives (x >>= k) fun v => g v >>= (h · v) := by
  intro s
  rw [run_bind, hx s]
  dsimp only
  cases g s.view with
  | error c => rfl
  | ok a => exact hk a s

theorem Gives.does {x : Exec α} {g : View → Except Cause α} {k : α → Exec Unit} {h : α → View → Except Cause View}
    (hx : Gives x g) (hk : ∀ a, Does (k a) (h a)) : Does (x >>= k) fun v => g v >>= (h · v) := by
  intro s
  rw [run_bind, hx s]
  dsimp only
  cases g s.view with
  | error c => exact ⟨s, rfl⟩
  | ok a => exact hk a s

theorem Gives.spares {x : Exec α} {g : View → Except Cause α} {k : α → Exec Unit} {h : α → View → Except Cause View}
    (hx : Gives x g) (hk : ∀ a, Spares (k a) (h a)) : Spares (x >>= k) fun v => g v >>= (h · v) := by
  intro s c hc
  rw [run_bind, hx s]
  dsimp only at hc ⊢
  cases hg : g s.view with
  | error c' =>
    rw [hg] at hc
    cases hc
    rfl
  | ok a =>
    rw [hg] at hc
    exact hk a s c hc

theorem gives_reg (r : Reg) : Gives (Exec.reg r) (·.get r) := by
  intro s
  unfold Exec.reg get State.view
  by_cases h : r.num.toNat < Reg.count
  · have hreg : s.regs[r.num.toNat]? = some s.regs[r.num.toNat] := Vector.getElem?_eq_getElem h
    simp only [run_bind, run_get, hreg, run_pure, if_pos h]
    rfl
  · have hreg : s.regs[r.num.toNat]? = none := Vector.getElem?_eq_none (Nat.le_of_not_lt h)
    simp only [run_bind, run_get, hreg, run_throw, if_neg h]

theorem gives_read (w : Width) (address : Int64) : Gives (Exec.read w address) (·.read w address) := by
  intro s
  change (Exec.read w address).run s = (s.read w address, s)
  unfold Exec.read
  cases hread : s.read w address <;> simp only [run_bind, run_get, hread, run_pure, run_throw]

theorem gives_compute (op : BinOp) (w : Width) (x y : Int64) :
    Gives (Exec.compute op w x y) fun _ => (op.eval w x y).mapError .scalar := by
  intro s
  unfold Exec.compute
  cases op.eval w x y <;> rfl

theorem gives_effective (a : Addr) : Gives (Exec.effective a) (·.effective a) := by
  refine (gives_reg a.base).bind fun base => ?_
  rcases a.index with _ | i
  · exact fun s => rfl
  · exact (gives_reg i.reg).bind fun x s => rfl

theorem does_setReg (r : Reg) (x : Int64) : Does (Exec.setReg r x) (·.put r x) := by
  intro s
  unfold Exec.setReg put
  dsimp only
  by_cases h : r.num.toNat < Reg.count
  · rw [if_pos h, dif_pos h]
    refine ⟨_, rfl, ?_, rfl, rfl⟩
    simp only [State.view, set, View.mk.injEq, and_true]
    funext q
    by_cases hq : q = r
    · subst hq
      simp [h]
    · have hne : q.num.toNat ≠ r.num.toNat := fun hnum =>
        hq (congrArg Reg.mk (UInt8.toNat_inj.1 hnum))
      simp [hq, hne.symm]
  · rw [if_neg h, dif_neg h]
    exact ⟨s, rfl⟩

theorem spares_setReg (r : Reg) (x : Int64) : Spares (Exec.setReg r x) (·.put r x) := by
  intro s c hc
  dsimp only at hc
  unfold put at hc
  unfold Exec.setReg
  by_cases h : r.num.toNat < Reg.count
  · rw [if_pos h] at hc
    cases hc
  · rw [if_neg h] at hc
    cases hc
    rw [dif_neg h, run_throw]

theorem spares_write (w : Width) (address x : Int64) : Spares (Exec.write w address x) (·.write w address x) := by
  intro s c hc
  have herror : ∀ c, s.write w address x = .error c → (Exec.write w address x).run s = (.error c, s) := fun c hc => by
    simp only [Exec.write, run_bind, run_get, hc, run_throw]
  unfold State.write at herror
  unfold write State.write at hc
  cases hlocate : s.memory.locate address w.bytes (touched w) with
  | error e =>
    simp only [State.view, hlocate, bind, Except.bind, Except.mapError] at herror hc
    cases hc
    exact herror _ rfl
  | ok a =>
    simp only [State.view, hlocate, bind, Except.bind, Except.mapError, pure, Except.pure] at hc
    cases hc

theorem does_write (w : Width) (address x : Int64) : Does (Exec.write w address x) (·.write w address x) := by
  intro s
  have hok : ∀ t, s.write w address x = .ok t → (Exec.write w address x).run s = (.ok (), t) := fun t ht => by
    simp only [Exec.write, run_bind, run_get, ht]
    rfl
  unfold State.write at hok
  dsimp only
  cases hwrite : s.view.write w address x with
  | error c => exact ⟨s, spares_write w address x s c hwrite⟩
  | ok v =>
    unfold write State.write at hwrite
    cases hlocate : s.memory.locate address w.bytes (touched w) with
    | error e =>
      simp only [State.view, hlocate, bind, Except.bind, Except.mapError] at hwrite
      cases hwrite
    | ok a =>
      simp only [State.view, hlocate, bind, Except.bind, Except.mapError, pure, Except.pure] at hok hwrite
      cases hwrite
      exact ⟨_, hok _ rfl, rfl, rfl, rfl⟩

theorem sp_eq (s : State) : s.sp = s.view.regs .sp := rfl

theorem view_setSp (s : State) (x : Int64) : (s.setSp x).view = s.view.set .sp x := by
  simp only [State.view, State.setSp, set, View.mk.injEq, and_true]
  funext q
  by_cases hq : q = .sp
  · simp [hq, Reg.sp]
  · have hne : q.num.toNat ≠ 17 := fun hnum => hq (congrArg Reg.mk (UInt8.toNat_inj.1 hnum))
    simp [hq, hne.symm]

theorem noteDepth_view (s : State) :
    s.noteDepth.view = s.view ∧ s.noteDepth.pc = s.pc ∧ s.noteDepth.halted = s.halted := by
  unfold State.noteDepth
  dsimp only
  split <;> exact ⟨rfl, rfl, rfl⟩

theorem run_ite {p : Prop} [Decidable p] (x y : Exec α) (s : State) :
    (if p then x else y).run s = if p then x.run s else y.run s := by
  split <;> rfl

theorem run_push (x : Int64) (s : State) :
    (Exec.push x).run s = if s.sp - 8 < 0 then (.error .stackOverflow, s)
      else match (Exec.write .w64 (s.sp - 8) x).run s with
        | (.ok _, t) => (.ok (), (t.setSp (s.sp - 8)).noteDepth)
        | (.error c, t) => (.error c, t) := by
  simp only [Exec.push, run_bind, run_get, run_ite, run_throw, run_modify]
  rcases (Exec.write .w64 (s.sp - 8) x).run s with ⟨_ | _, t⟩ <;> rfl

theorem run_pop (s : State) :
    Exec.pop.run s = match s.view.read .w64 s.sp with
      | .ok x => (.ok x, s.setSp (s.sp + 8))
      | .error c => (.error c, s) := by
  simp only [Exec.pop, run_bind, run_get, run_modify, run_pure, gives_read .w64 s.sp s]
  cases s.view.read .w64 s.sp <;> rfl

theorem run_checkStack (s : State) :
    Exec.checkStack.run s = if s.sp < 0 then (.error .stackOverflow, s) else (.ok (), s.noteDepth) := by
  simp only [Exec.checkStack, run_bind, run_get, run_ite, run_throw, run_modify]

theorem does_push (x : Int64) : Does (Exec.push x) (·.push x) := by
  intro s
  rw [run_push]
  unfold push
  dsimp only
  rw [← sp_eq]
  by_cases hneg : s.sp - 8 < 0
  · rw [if_pos hneg, if_pos hneg]
    exact ⟨s, rfl⟩
  · rw [if_neg hneg, if_neg hneg]
    have hwrite := does_write .w64 (s.sp - 8) x s
    dsimp only at hwrite
    cases hv : s.view.write .w64 (s.sp - 8) x with
    | error c =>
      rw [hv] at hwrite
      obtain ⟨t, ht⟩ := hwrite
      exact ⟨t, by rw [ht]⟩
    | ok v =>
      rw [hv] at hwrite
      obtain ⟨t, ht, rfl, hpc, hhalted⟩ := hwrite
      obtain ⟨hview, hpc', hhalted'⟩ := noteDepth_view (t.setSp (s.sp - 8))
      exact ⟨_, by rw [ht], hview.trans (view_setSp t _), hpc'.trans hpc, hhalted'.trans hhalted⟩

theorem does_pop (d : Reg) : Does (do Exec.setReg d (← Exec.pop)) fun v =>
    v.read .w64 (v.regs .sp) >>= (v.set .sp (v.regs .sp + 8)).put d := by
  intro s
  dsimp only
  rw [run_bind, run_pop, ← sp_eq]
  cases s.view.read .w64 s.sp with
  | error c => exact ⟨s, rfl⟩
  | ok x =>
    have hset := does_setReg d x (s.setSp (s.sp + 8))
    rw [view_setSp] at hset
    exact hset

theorem does_checkStack : Does Exec.checkStack checkStack := by
  intro s
  rw [run_checkStack]
  unfold checkStack
  rw [← sp_eq]
  by_cases hneg : s.sp < 0
  · rw [if_pos hneg, if_pos hneg]
    exact ⟨s, rfl⟩
  · rw [if_neg hneg, if_neg hneg]
    obtain ⟨hview, hpc, hhalted⟩ := noteDepth_view s
    exact ⟨s.noteDepth, rfl, hview, hpc, hhalted⟩

theorem Does.bind {x y : Exec Unit} {g h : View → Except Cause View} (hx : Does x g) (hy : Does y h) :
    Does (x >>= fun _ => y) fun v => g v >>= h := by
  intro s
  rw [run_bind]
  dsimp only
  have hs := hx s
  cases hv : g s.view with
  | error c =>
    rw [hv] at hs
    obtain ⟨t, ht⟩ := hs
    exact ⟨t, by rw [ht]⟩
  | ok v =>
    rw [hv] at hs
    obtain ⟨t, ht, rfl, hpc, hhalted⟩ := hs
    rw [ht, ← hpc, ← hhalted]
    exact hy t

theorem Does.of_ok (h : Does x g) {v : View} (hv : g s.view = .ok v) :
    ∃ t, x.run s = (.ok (), t) ∧ t.view = v ∧ t.pc = s.pc ∧ t.halted = s.halted := by
  have := h s
  rwa [hv] at this

theorem Does.of_error (h : Does x g) {c : Cause} (hc : g s.view = .error c) : ∃ t, x.run s = (.error c, t) := by
  have := h s
  rwa [hc] at this

theorem Does.of_run (h : Does x g) {s t : State} (hrun : x.run s = (.ok (), t)) :
    g s.view = .ok t.view ∧ t.pc = s.pc ∧ t.halted = s.halted := by
  cases hv : g s.view with
  | error c =>
    obtain ⟨t', ht'⟩ := h.of_error hv
    cases ht'.symm.trans hrun
  | ok v =>
    obtain ⟨t', ht', rfl, hend⟩ := h.of_ok hv
    cases ht'.symm.trans hrun
    exact ⟨rfl, hend⟩

/-- An instruction after which the machine may go on elsewhere than behind it. -/
def Diverts : Instr → Prop
  | .jump _ | .jumpZero _ _ | .jumpNonzero _ _ | .call _ | .ret | .halt => True
  | _ => False

theorem does_exec (img : Image) {i : Instr} (hi : ¬Diverts i) : Does (Exec.instr img i) (·.exec i) := by
  cases i with
  | movImm w d x => exact does_setReg d _
  | mov _ d s | sext _ d s | zext _ d s => exact (gives_reg s).does fun x => does_setReg d _
  | alu op w d x y =>
    exact (gives_reg x).does fun x => (gives_reg y).does fun y => (gives_compute op w x y).does fun r => does_setReg d r
  | aluImm op w d x y =>
    refine (gives_reg x).does fun x => (gives_compute op w x y).does fun r => (does_setReg d r).bind ?_
    by_cases hd : d = .sp
    · simp only [if_pos hd]
      exact does_checkStack
    · simp only [if_neg hd]
      exact fun s => ⟨s, rfl, rfl, rfl, rfl⟩
  | cmp c w d x y => exact (gives_reg x).does fun x => (gives_reg y).does fun y => does_setReg d _
  | cmpImm c w d x y => exact (gives_reg x).does fun x => does_setReg d _
  | load w d a => exact (gives_effective a).does fun address => (gives_read w address).does fun x => does_setReg d x
  | store w r a => exact (gives_effective a).does fun address => (gives_reg r).does fun x => does_write w address x
  | lea d a => exact (gives_effective a).does fun address => does_setReg d address
  | push r => exact (gives_reg r).does fun x => does_push x
  | pop d => exact does_pop d
  | label | comment => exact fun s => ⟨s, rfl, rfl, rfl, rfl⟩
  | jump | jumpZero | jumpNonzero | call | ret | halt => exact absurd trivial hi

theorem exec_does (img : Image) (i : Instr) : Does (Exec.instr img i) (·.exec i) ∨ ∀ v : View, v.exec i = .error .crash := by
  by_cases hi : Diverts i
  · refine .inr fun v => ?_
    cases i with
    | jump | jumpZero | jumpNonzero | call | ret | halt => rfl
    | _ => exact absurd hi id
  · exact .inl (does_exec img hi)

/-- An instruction that leaves the state as it is when it fails: it makes one change, as the last thing that it does. -/
def IsSparing : Instr → Prop
  | .aluImm _ _ d _ _ => d ≠ .sp
  | .mov .. | .movImm .. | .sext .. | .zext .. | .alu .. | .cmp .. | .cmpImm .. | .load .. | .store .. | .lea .. => True
  | _ => False

theorem exec_spares (img : Image) {i : Instr} (hi : IsSparing i) : Spares (Exec.instr img i) (·.exec i) := by
  cases i with
  | movImm w d x => exact spares_setReg d _
  | mov _ d s | sext _ d s | zext _ d s => exact (gives_reg s).spares fun x => spares_setReg d _
  | alu op w d x y =>
    exact (gives_reg x).spares fun x => (gives_reg y).spares fun y =>
      (gives_compute op w x y).spares fun r => spares_setReg d r
  | aluImm op w d x y =>
    refine (gives_reg x).spares fun x => (gives_compute op w x y).spares fun r => ?_
    simp only [if_neg (show d ≠ .sp from hi)]
    intro s c hc
    rw [run_bind]
    dsimp only at hc
    cases hput : s.view.put d r with
    | error c' =>
      rw [hput] at hc
      cases hc
      rw [spares_setReg d r s c hput]
    | ok v =>
      rw [hput] at hc
      cases hc
  | cmp c w d x y => exact (gives_reg x).spares fun x => (gives_reg y).spares fun y => spares_setReg d _
  | cmpImm c w d x y => exact (gives_reg x).spares fun x => spares_setReg d _
  | load w d a =>
    exact (gives_effective a).spares fun address => (gives_read w address).spares fun x => spares_setReg d x
  | store w r a =>
    exact (gives_effective a).spares fun address => (gives_reg r).spares fun x => spares_write w address x
  | lea d a => exact (gives_effective a).spares fun address => spares_setReg d address
  | push | pop | label | comment | jump | jumpZero | jumpNonzero | call | ret | halt => exact absurd hi id

end

/-! ## Where code stops -/

/-- Code gets to an instruction that fails, with a view that the instruction leaves as it is. -/
def Stops (v : View) (code : List Instr) (c : Cause) (w : View) : Prop :=
  ∃ before i after, code = before ++ i :: after ∧ v.run before = .ok w ∧ w.exec i = .error c ∧ IsSparing i

variable {u v w : View} {code rest : List Instr} {c : Cause} {i : Instr}

theorem stops_singleton (h : v.exec i = .error c) (hi : IsSparing i) : v.Stops [i] c v := ⟨[], i, [], rfl, rfl, h, hi⟩

theorem Stops.append (h : v.Stops code c w) (rest : List Instr) : v.Stops (code ++ rest) c w := by
  obtain ⟨before, i, after, rfl, hrun, hexec, hi⟩ := h
  exact ⟨before, i, after ++ rest, by simp, hrun, hexec, hi⟩

theorem Stops.prepend (h : v.Stops rest c w) (hrun : u.run code = .ok v) : u.Stops (code ++ rest) c w := by
  obtain ⟨before, i, after, rfl, hrun', hexec, hi⟩ := h
  refine ⟨code ++ before, i, after, by simp, ?_, hexec, hi⟩
  rw [run_append, hrun]
  exact hrun'

theorem Stops.run_eq (h : v.Stops code c w) : v.run code = .error c := by
  obtain ⟨before, i, after, rfl, hrun, hexec, -⟩ := h
  rw [run_append, hrun]
  simp only [run, bind, Except.bind, hexec]

end View

end RegisterCompiler.Machine
