import RegisterCompiler.Proofs.Course

/-!
# The clock of the machine

The machine takes the items of its listing one by one: it executes the one that is due as long as it has not halted and
steps are left, where only labels and comments are free. `Image.Executes` is a run told in this way, with the items that
it takes and without a bound on their number, and `Image.Turns` is the beginning of one.
-/

namespace RegisterCompiler.Machine

open Asm (Addr Instr Label)

/-! ## Instructions do not see the clock -/

/-- A part of an instruction that leaves the clock as it is, and does not fail for want of steps. -/
def Timeless {α : Type} (x : Exec α) : Prop := ∀ s : State, (x.run s).2.steps = s.steps ∧ (x.run s).1 ≠ .error .stepLimit

section

variable {α β : Type}

theorem Timeless.bind {x : Exec α} {k : α → Exec β} (hx : Timeless x) (hk : ∀ a, Timeless (k a)) : Timeless (x >>= k) := by
  intro s
  rw [View.run_bind]
  obtain ⟨hsteps, hcause⟩ := hx s
  rcases hrun : x.run s with ⟨c | a, t⟩
  · rw [hrun] at hsteps hcause
    exact ⟨hsteps, fun h => hcause (congrArg Except.error (Except.error.inj h))⟩
  · rw [hrun] at hsteps
    exact ⟨(hk a t).1.trans hsteps, (hk a t).2⟩

theorem ok_ne_error (a : α) (c : Cause) : Except.ok a ≠ .error c := by
  intro h
  cases h

theorem timeless_pure (a : α) : Timeless (pure a : Exec α) := fun _ => ⟨rfl, ok_ne_error a _⟩

theorem timeless_throw {c : Cause} (hc : c ≠ .stepLimit) : Timeless (throw c : Exec α) :=
  fun _ => ⟨rfl, fun h => hc (Except.error.inj h)⟩

theorem timeless_get : Timeless (MonadState.get : Exec State) := fun s => ⟨rfl, ok_ne_error s _⟩

theorem timeless_modify {g : State → State} (hg : ∀ s, (g s).steps = s.steps) : Timeless (modify g : Exec Unit) :=
  fun s => ⟨hg s, ok_ne_error () _⟩

theorem timeless_ite {p : Prop} [Decidable p] {x y : Exec α} (hx : Timeless x) (hy : Timeless y) :
    Timeless (if p then x else y) := by
  split
  · exact hx
  · exact hy

end

theorem timeless_reg (r : Reg) : Timeless (Exec.reg r) := by
  refine timeless_get.bind fun s => ?_
  cases s.regs[r.num.toNat]? with
  | some v => exact timeless_pure v
  | none => exact timeless_throw Cause.noConfusion

theorem timeless_setReg (r : Reg) (v : Int64) : Timeless (Exec.setReg r v) := by
  unfold Exec.setReg
  split
  · exact timeless_modify fun _ => rfl
  · exact timeless_throw Cause.noConfusion

theorem ofAccess_ne_stepLimit (e : AccessError) : Cause.ofAccess e ≠ .stepLimit := by
  cases e <;> exact Cause.noConfusion

theorem timeless_read (w : Width) (address : Int64) : Timeless (Exec.read w address) := by
  intro s
  rw [View.gives_read w address s]
  refine ⟨rfl, ?_⟩
  change s.read w address ≠ _
  unfold State.read
  cases s.memory.locate address w.bytes (touched w) with
  | error e => exact fun h => ofAccess_ne_stepLimit e (Except.error.inj h)
  | ok a => exact ok_ne_error _ _

theorem timeless_write (w : Width) (address v : Int64) : Timeless (Exec.write w address v) := by
  intro s
  simp only [Exec.write, State.write, View.run_bind, View.run_get]
  cases s.memory.locate address w.bytes (touched w) with
  | error e => exact ⟨rfl, fun h => ofAccess_ne_stepLimit e (Except.error.inj h)⟩
  | ok a => exact ⟨rfl, ok_ne_error () _⟩

theorem steps_noteDepth (s : State) : s.noteDepth.steps = s.steps := by
  unfold State.noteDepth
  dsimp only
  split <;> rfl

theorem timeless_push (v : Int64) : Timeless (Exec.push v) := by
  refine timeless_get.bind fun s => ?_
  refine timeless_ite ((timeless_throw Cause.noConfusion).bind fun _ => ?_) ?_
  all_goals exact (timeless_write _ _ _).bind fun _ => timeless_modify fun t => steps_noteDepth _

theorem timeless_pop : Timeless Exec.pop :=
  timeless_get.bind fun _ => (timeless_read _ _).bind fun v => (timeless_modify fun _ => rfl).bind fun _ => timeless_pure v

theorem timeless_effective (a : Addr) : Timeless (Exec.effective a) := by
  refine (timeless_reg a.base).bind fun base => ?_
  cases a.index with
  | none => exact timeless_pure _
  | some i => exact (timeless_reg i.reg).bind fun x => timeless_pure _

theorem timeless_jump (img : Image) (l : Label) : Timeless (Exec.jump img l) := by
  unfold Exec.jump
  cases img.labels.lookup l with
  | some n => exact timeless_modify fun _ => rfl
  | none => exact timeless_throw Cause.noConfusion

theorem timeless_compute (op : BinOp) (w : Width) (x y : Int64) : Timeless (Exec.compute op w x y) := by
  unfold Exec.compute
  cases op.eval w x y with
  | ok v => exact timeless_pure v
  | error e => exact timeless_throw Cause.noConfusion

theorem timeless_checkStack : Timeless Exec.checkStack := by
  refine timeless_get.bind fun s => ?_
  refine timeless_ite ((timeless_throw Cause.noConfusion).bind fun _ => ?_) ?_
  all_goals exact timeless_modify steps_noteDepth

theorem timeless_instr (img : Image) (i : Instr) : Timeless (Exec.instr img i) := by
  cases i with
  | movImm w d x => exact timeless_setReg d _
  | mov _ d s | sext _ d s | zext _ d s => exact (timeless_reg s).bind fun x => timeless_setReg d _
  | alu op w d x y =>
    exact (timeless_reg x).bind fun x => (timeless_reg y).bind fun y =>
      (timeless_compute op w x y).bind fun r => timeless_setReg d r
  | aluImm op w d x y =>
    exact (timeless_reg x).bind fun x => (timeless_compute op w x y).bind fun r => (timeless_setReg d r).bind fun _ =>
      timeless_ite timeless_checkStack (timeless_pure ())
  | cmp c w d x y => exact (timeless_reg x).bind fun x => (timeless_reg y).bind fun y => timeless_setReg d _
  | cmpImm c w d x y => exact (timeless_reg x).bind fun x => timeless_setReg d _
  | load w d a =>
    exact (timeless_effective a).bind fun address => (timeless_read w address).bind fun x => timeless_setReg d x
  | store w r a =>
    exact (timeless_effective a).bind fun address => (timeless_reg r).bind fun x => timeless_write w address x
  | lea d a => exact (timeless_effective a).bind fun address => timeless_setReg d address
  | push r => exact (timeless_reg r).bind fun x => timeless_push x
  | pop d => exact timeless_pop.bind fun x => timeless_setReg d x
  | jump l => exact timeless_jump img l
  | jumpZero r l | jumpNonzero r l =>
    exact (timeless_reg r).bind fun x => timeless_ite (timeless_jump img l) (timeless_pure ())
  | call l => exact timeless_get.bind fun s => (timeless_push _).bind fun _ => timeless_jump img l
  | ret =>
    refine timeless_pop.bind fun address => timeless_modify fun s => ?_
    split <;> rfl
  | halt => exact timeless_modify fun _ => rfl
  | label | comment => exact timeless_pure ()

theorem timeless_forM {α : Type} (l : List α) {f : α → Exec Unit} (hf : ∀ a, Timeless (f a)) : Timeless (l.forM f) := by
  induction l with
  | nil => exact timeless_pure ()
  | cons a l ih => exact (hf a).bind fun _ => ih

theorem timeless_passArgs (d : Descriptor) (args : List Int64) : Timeless (Image.passArgs d args) := by
  refine (timeless_forM _ timeless_push).bind fun _ => (timeless_forM _ ?_).bind fun _ => timeless_push _
  rintro ⟨v, r⟩
  exact timeless_setReg r v

theorem steps_step (img : Image) (i : Instr) (s : State) :
    (step img i s).2.steps = s.steps + [i].countP (!·.isSilent) := by
  rw [step, (timeless_instr img i _).1]
  by_cases h : i.isSilent <;> simp [h]

theorem step_ne_stepLimit (img : Image) (i : Instr) (s : State) : (step img i s).1 ≠ .error .stepLimit :=
  (timeless_instr img i _).2

namespace Image

/-! ## Runs item by item -/

/-- The machine takes some items: it has not halted, an item is due, and there are steps left. -/
inductive Turns (img : Image) (limit : Nat) : State → List Instr → State → Prop where
  | refl (s : State) : img.Turns limit s [] s
  | step {s t u : State} {i : Instr} {items : List Instr} (running : s.halted = false) (due : img.instr? s.pc = some i)
      (left : s.steps < limit) (done : step img i { s with pc := s.pc + 1 } = (.ok (), t))
      (rest : img.Turns limit t items u) : img.Turns limit s (i :: items) u

/-- A run with the items that it takes, from a state to its end: the machine halts, gets to where there is no code, has
    no steps left when an item is due, or fails at an item. -/
inductive Executes (img : Image) (limit : Nat) : State → List Instr → Except Fault Unit × State → Prop where
  | halted {s : State} (halted : s.halted = true) : img.Executes limit s [] (.ok (), s)
  | noCode {s : State} (running : s.halted = false) (outside : img.instr? s.pc = none) :
      img.Executes limit s [] (.error (.at s.pc none .noCode), s)
  | stepLimit {s : State} {i : Instr} (running : s.halted = false) (due : img.instr? s.pc = some i)
      (used : limit ≤ s.steps) : img.Executes limit s [] (.error (.at s.pc (some i) .stepLimit), s)
  | failure {s t : State} {i : Instr} {c : Cause} (running : s.halted = false) (due : img.instr? s.pc = some i)
      (left : s.steps < limit) (failed : step img i { s with pc := s.pc + 1 } = (.error c, t)) :
      img.Executes limit s [i] (.error (.at s.pc (some i) c), t)
  | step {s t : State} {i : Instr} {items : List Instr} {r : Except Fault Unit × State} (running : s.halted = false)
      (due : img.instr? s.pc = some i) (left : s.steps < limit)
      (done : step img i { s with pc := s.pc + 1 } = (.ok (), t)) (rest : img.Executes limit t items r) :
      img.Executes limit s (i :: items) r

variable {img : Image} {limit n : Nat} {s t : State} {i : Instr} {items : List Instr} {r : Except Fault Unit × State}

theorem Executes.unique (h : img.Executes limit s items r) {items' : List Instr} {r' : Except Fault Unit × State}
    (h' : img.Executes limit s items' r') : items' = items ∧ r' = r := by
  -- Whether the machine has halted, what is due and the steps that are left exclude all constructors but one.
  induction h generalizing items' with
  | halted halted =>
    cases h' with
    | halted => exact ⟨rfl, rfl⟩
    | _ => simp_all
  | noCode running outside =>
    cases h' with
    | noCode => exact ⟨rfl, rfl⟩
    | _ => simp_all
  | stepLimit running due used =>
    cases h' with
    | stepLimit running' due' =>
      obtain rfl := Option.some.inj (due.symm.trans due')
      exact ⟨rfl, rfl⟩
    | failure _ _ left | step _ _ left => omega
    | _ => simp_all
  | failure running due left failed =>
    cases h' with
    | failure running' due' left' failed' =>
      obtain rfl := Option.some.inj (due.symm.trans due')
      obtain ⟨hc, rfl⟩ := Prod.mk.inj (failed.symm.trans failed')
      obtain rfl := Except.error.inj hc
      exact ⟨rfl, rfl⟩
    | stepLimit _ _ used => omega
    | _ => simp_all
  | step running due left done rest ih =>
    cases h' with
    | step running' due' left' done' rest' =>
      obtain rfl := Option.some.inj (due.symm.trans due')
      obtain ⟨-, rfl⟩ := Prod.mk.inj (done.symm.trans done')
      obtain ⟨rfl, rfl⟩ := ih rest'
      exact ⟨rfl, rfl⟩
    | stepLimit _ _ used => omega
    | _ => simp_all

/-- The clock counts the items that are not free. -/
theorem Executes.steps_eq (h : img.Executes limit s items r) : r.2.steps = s.steps + items.countP (!·.isSilent) := by
  induction h with
  | halted | noCode | stepLimit => rfl
  | @failure s t i c running due left failed =>
    have hone := steps_step img i { s with pc := s.pc + 1 }
    rwa [failed] at hone
  | @step s t i items r running due left done rest ih =>
    have hone := steps_step img i { s with pc := s.pc + 1 }
    rw [done] at hone
    rw [ih, ← List.singleton_append, List.countP_append, hone, Nat.add_assoc]

theorem steps_step_le (img : Image) (hleft : s.steps < limit) (i : Instr) :
    (step img i { s with pc := s.pc + 1 }).2.steps ≤ limit := by
  have hone : [i].countP (!·.isSilent) ≤ 1 := List.countP_le_length
  rw [steps_step]
  exact Nat.le_trans (Nat.add_le_add_left hone _) hleft

theorem Executes.steps_le (h : img.Executes limit s items r) (hs : s.steps ≤ limit) : r.2.steps ≤ limit := by
  induction h with
  | halted | noCode | stepLimit => exact hs
  | @failure s t i c running due left failed =>
    have hle := steps_step_le img left i
    rwa [failed] at hle
  | @step s t i items r running due left done rest ih =>
    have hle := steps_step_le img left i
    rw [done] at hle
    exact ih hle

/-- Where an item is due and no steps are left, the run ends. -/
theorem Turns.executes {u : State} (h : img.Turns limit s items u) (hrunning : u.halted = false)
    (hdue : img.instr? u.pc = some i) (hused : limit ≤ u.steps) :
    img.Executes limit s items (.error (.at u.pc (some i) .stepLimit), u) := by
  induction h with
  | refl => exact .stepLimit hrunning hdue hused
  | step running due left done _ ih => exact .step running due left done (ih hrunning hdue hused)

/-- A run ends for want of steps if and only if it gets to where an item is due and there are none left. -/
theorem Executes.stepLimit_iff (h : img.Executes limit s items r) :
    ShortOfSteps r ↔
      ∃ u i, img.Turns limit s items u ∧ u.halted = false ∧ img.instr? u.pc = some i ∧ limit ≤ u.steps := by
  constructor
  · induction h with
    | halted =>
      rintro ⟨f, hf, -⟩
      cases hf
    | noCode =>
      rintro ⟨f, hf, hcause⟩
      cases hf
      cases hcause
    | stepLimit running due used => exact fun _ => ⟨_, _, .refl _, running, due, used⟩
    | @failure s t i c running due left failed =>
      rintro ⟨f, hf, hcause⟩
      cases hf
      have hne := step_ne_stepLimit img i { s with pc := s.pc + 1 }
      rw [failed] at hne
      exact absurd (congrArg Except.error hcause) hne
    | step running due left done rest ih =>
      intro hshort
      obtain ⟨u, j, hturns, hend⟩ := ih hshort
      exact ⟨u, j, .step running due left done hturns, hend⟩
  · rintro ⟨u, j, hturns, hrunning, hdue, hused⟩
    obtain ⟨-, rfl⟩ := h.unique (hturns.executes hrunning hdue hused)
    exact ⟨_, rfl, rfl⟩

/-! ## The loop is such a run -/

theorem step_of_silent (hi : i.isSilent) (s : State) : step img i s = (.ok (), s) := by
  cases i with
  | label | comment => rfl
  | _ => cases hi

theorem passSilent_of_none (h : img.instr? s.pc = none) : img.passSilent s = s := by
  unfold passSilent
  unfold instr? at h
  by_cases hpc : s.pc < 0
  · exact if_pos hpc
  · rw [if_neg hpc] at h ⊢
    have hskip : img.skip (img.code.size - s.pc.toNat) s.pc.toNat = s.pc.toNat := by
      rw [Nat.sub_eq_zero_of_le (Array.getElem?_eq_none_iff.1 h), skip]
    rw [hskip, Int.toNat_of_nonneg (by omega)]

/-- What the loop comes to is the end of a run: the steps that are left bound the counted items, and between two of them
    the index grows. -/
theorem executes_loop (img : Image) (hrunning : s.halted = false) (hn : s.steps + n = limit) :
    ∃ items, img.Executes limit s items (img.loop n s) := by
  -- The outer induction is on the steps that are left, the inner one on the rest of the listing.
  induction n generalizing s with
  | zero =>
    cases hdue : img.instr? s.pc with
    | none =>
      rw [loop, hdue]
      exact ⟨[], .noCode hrunning hdue⟩
    | some i =>
      rw [loop, hdue]
      exact ⟨[], .stepLimit hrunning hdue (by omega)⟩
  | succ n ih =>
    induction hk : img.code.size - s.pc.toNat using Nat.strong_induction_on generalizing s with
    | _ k ihk =>
      cases hdue : img.instr? s.pc with
      | none =>
        rw [loop, passSilent_of_none hdue]
        simp only [hdue]
        exact ⟨[], .noCode hrunning hdue⟩
      | some i =>
        by_cases hi : i.isSilent
        · obtain ⟨hpc, hlt, -⟩ := bounds_of_instr? hdue
          rw [loop_of_silent hdue hi]
          obtain ⟨items, hrest⟩ := ihk (img.code.size - (s.pc + 1).toNat) (by omega) hrunning hn
            (s := { s with pc := s.pc + 1 }) rfl
          exact ⟨i :: items, .step hrunning hdue (by omega) (step_of_silent hi _) hrest⟩
        rw [loop_of_loud hdue (Bool.eq_false_iff.2 hi)]
        have hsteps := steps_step img i { s with pc := s.pc + 1 }
        rw [List.countP_singleton, if_pos (by simpa using hi)] at hsteps
        rcases hstep : step img i { s with pc := s.pc + 1 } with ⟨c | _, t⟩
        · exact ⟨[i], .failure hrunning hdue (by omega) hstep⟩
        · rw [hstep] at hsteps
          dsimp only at hsteps ⊢
          by_cases hhalted : t.halted
          · rw [if_pos hhalted]
            exact ⟨[i], .step hrunning hdue (by omega) hstep (.halted hhalted)⟩
          · rw [if_neg hhalted]
            obtain ⟨items, hrest⟩ := ih (Bool.eq_false_iff.2 hhalted) (by omega)
            exact ⟨i :: items, .step hrunning hdue (by omega) hstep hrest⟩

/-! ## Programs and functions -/

/-- What a run has to do with its beginning: if it does not fail before the first item, it takes finitely many items and
    ends as they say, with the value of a register. The clock then shows how many of them are not free, and a want of
    steps is told exactly if an item is due when none are left. -/
def Clocked (img : Image) (limit : Nat) (reg : Reg) (r : Except Fault Int64 × State) : Except Cause Unit × State → Prop
  | (.error c, s) => c ≠ .stepLimit ∧ s.steps = 0 ∧ r = (.error (.early c), s)
  | (.ok (), s) => ∃ items out, img.Executes limit s items out ∧
      (∀ items' out', img.Executes limit s items' out' → items' = items ∧ out' = out) ∧ r = resultIn reg out ∧
      r.2.steps = items.countP (!·.isSilent) ∧ r.2.steps ≤ limit ∧
      ((∃ f, r.1 = .error f ∧ f.cause = .stepLimit) ↔
        ∃ u i, img.Turns limit s items u ∧ u.halted = false ∧ img.instr? u.pc = some i ∧ limit ≤ u.steps)

theorem resultIn_eq (reg : Reg) (out : Except Fault Unit × State) : (resultIn reg out).2 = out.2 ∧
    ((∃ f, (resultIn reg out).1 = .error f ∧ f.cause = .stepLimit) ↔ ShortOfSteps out) := by
  rcases out with ⟨f | _, s⟩
  · exact ⟨rfl, by simp [resultIn, ShortOfSteps]⟩
  · have hreg : (Exec.reg reg).run s = (s.view.get reg, s) := View.gives_reg reg s
    have hne := (timeless_reg reg s).2
    cases hget : s.view.get reg with
    | ok v =>
      rw [hget] at hreg
      simp [resultIn, hreg, ShortOfSteps]
    | error c =>
      rw [hreg, hget] at hne
      rw [hget] at hreg
      have hc : c ≠ .stepLimit := fun hc => hne (congrArg Except.error hc)
      simp [resultIn, hreg, ShortOfSteps, Fault.cause, hc]

theorem clocked_loop (limit : Nat) (reg : Reg) (hrunning : s.halted = false) (hsteps : s.steps = 0) :
    img.Clocked limit reg (resultIn reg (img.loop limit s)) (.ok (), s) := by
  obtain ⟨items, hrun⟩ := executes_loop img hrunning (show s.steps + limit = limit by omega)
  refine ⟨items, _, hrun, fun items' out' h' => hrun.unique h', rfl, ?_, ?_, ?_⟩
  · rw [(resultIn_eq reg _).1, hrun.steps_eq, hsteps, Nat.zero_add]
  · rw [(resultIn_eq reg _).1]
    exact hrun.steps_le (by omega)
  · rw [(resultIn_eq reg _).2]
    exact hrun.stepLimit_iff

theorem clocked_runFrom (maxSteps : Nat) (reg : Reg) (l : Label) (hrunning : s.halted = false) (hsteps : s.steps = 0) :
    img.Clocked (budget maxSteps) reg (resultIn reg (img.runFrom maxSteps l s)) ((Exec.jump img l).run s) := by
  unfold runFrom Exec.jump
  cases img.labels.lookup l with
  | none => exact ⟨Cause.noConfusion, hsteps, rfl⟩
  | some p => exact clocked_loop (s := { s with pc := p }) _ reg hrunning hsteps

theorem exists_does_forM {α : Type} {f : α → Exec Unit} (hf : ∀ a, ∃ g, View.Does (f a) g) (l : List α) :
    ∃ g, View.Does (l.forM f) g := by
  induction l with
  | nil => exact ⟨.ok, fun s => ⟨s, rfl, rfl, rfl, rfl⟩⟩
  | cons a l ih =>
    obtain ⟨g, hg⟩ := hf a
    obtain ⟨h, hh⟩ := ih
    exact ⟨_, hg.bind hh⟩

theorem halted_passArgs {d : Descriptor} {args : List Int64} (h : (passArgs d args).run s = (.ok (), t)) :
    t.halted = s.halted := by
  have hdoes : ∃ g, View.Does (passArgs d args) g := by
    obtain ⟨g, hg⟩ := exists_does_forM (fun x => ⟨_, View.does_push x⟩) (args.drop d.args.length).reverse
    obtain ⟨g', hg'⟩ := exists_does_forM (fun a : Int64 × Reg => ⟨_, View.does_setReg a.2 a.1⟩) (args.zip d.args)
    exact ⟨_, hg.bind (hg'.bind (View.does_push finalReturn))⟩
  obtain ⟨g, hg⟩ := hdoes
  exact (hg.of_run h).2.2

/-- Every program that is started and every function that is called under a limit comes to an end, with an exact
    clock; a limit of zero stands for the usual one. -/
theorem runs_clocked (img : Image) (maxSteps : Nat) (l : Label) (d : Descriptor) (args : List Int64) (s : State) :
    img.Clocked (if maxSteps = 0 then defaultMaxSteps else maxSteps) ⟨0⟩ (img.start maxSteps l s)
        ((Exec.jump img l).run s.reset) ∧
      img.Clocked (if maxSteps = 0 then defaultMaxSteps else maxSteps) d.result (img.call maxSteps d l args s)
        ((do passArgs d args; Exec.jump img l).run s.reset) := by
  have hbudget : budget maxSteps = if maxSteps = 0 then defaultMaxSteps else maxSteps := by
    unfold budget
    by_cases h : maxSteps = 0 <;> simp [h]
  rw [← hbudget]
  refine ⟨clocked_runFrom maxSteps ⟨0⟩ l rfl rfl, ?_⟩
  rw [View.run_bind]
  unfold call
  have htimeless := timeless_passArgs d args s.reset
  rcases hpass : (passArgs d args).run s.reset with ⟨c | _, t⟩
  · rw [hpass] at htimeless
    exact ⟨fun hc => htimeless.2 (congrArg Except.error hc), htimeless.1, rfl⟩
  · rw [hpass] at htimeless
    exact clocked_runFrom maxSteps d.result l (halted_passArgs hpass) htimeless.1

end Image

end RegisterCompiler.Machine
