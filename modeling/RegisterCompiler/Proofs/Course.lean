import RegisterCompiler.Proofs.Success
import RegisterCompiler.Proofs.View

/-!
# The course of the machine

Where the machine gets to from an index of the code, with what in its registers and its memory, and with what
failure it may end on the way. The clock and the record of the deepest stack play no part in it.
-/

namespace RegisterCompiler.Machine

open List
open Asm (Instr Label)

namespace Image

/-- The machine passes a label or a comment, or executes an instruction, and goes on. -/
inductive Advances (img : Image) : State → State → Prop where
  | pass {s : State} {i : Instr} (instr : img.instr? s.pc = some i) (silent : i.isSilent) :
      img.Advances s { s with pc := s.pc + 1 }
  | step {s t : State} {i : Instr} (instr : img.instr? s.pc = some i) (loud : i.isSilent = false)
      (done : step img i { s with pc := s.pc + 1 } = (.ok (), t)) (running : t.halted = false) : img.Advances s t

variable {img : Image} {s t : State} {i : Instr} {x : Reg}

section

variable (h : img.instr? s.pc = some i)
include h

theorem bounds_of_instr? : 0 ≤ s.pc ∧ s.pc.toNat < img.code.size ∧ img.code[s.pc.toNat]? = some i := by
  unfold instr? at h
  split at h
  · cases h
  · exact ⟨by omega, (Array.getElem?_eq_some_iff.1 h).1, h⟩

theorem passSilent_of_silent (hi : i.isSilent) : img.passSilent s = img.passSilent { s with pc := s.pc + 1 } := by
  obtain ⟨hpc, hlt, hcode⟩ := bounds_of_instr? h
  have hnext : (s.pc + 1).toNat = s.pc.toNat + 1 := by omega
  unfold passSilent
  rw [if_neg (by omega), if_neg (by dsimp only; omega)]
  dsimp only
  rw [hnext, show img.code.size - s.pc.toNat = img.code.size - (s.pc.toNat + 1) + 1 by omega, skip, hcode]
  simp only [hi, if_true]

theorem passSilent_of_loud (hi : i.isSilent = false) : img.passSilent s = s := by
  obtain ⟨hpc, hlt, hcode⟩ := bounds_of_instr? h
  have hskip : img.skip (img.code.size - s.pc.toNat) s.pc.toNat = s.pc.toNat := by
    rw [show img.code.size - s.pc.toNat = img.code.size - (s.pc.toNat + 1) + 1 by omega, skip, hcode]
    simp [hi]
  unfold passSilent
  rw [if_neg (by omega), hskip, Int.toNat_of_nonneg hpc]

theorem loop_zero : img.loop 0 s = (.error (.at s.pc (some i) .stepLimit), s) := by
  rw [loop, h]

theorem loop_of_silent (hi : i.isSilent) (n : Nat) :
    img.loop (n + 1) s = img.loop (n + 1) { s with pc := s.pc + 1 } := by
  rw [loop, loop, passSilent_of_silent h hi]

theorem loop_of_loud (hi : i.isSilent = false) (n : Nat) :
    img.loop (n + 1) s = match step img i { s with pc := s.pc + 1 } with
      | (.error c, t) => (.error (.at s.pc (some i) c), t)
      | (.ok (), t) => if t.halted then (.ok (), t) else img.loop n t := by
  rcases hstep : step img i { s with pc := s.pc + 1 } with ⟨_ | _, t⟩
  all_goals simp only [loop, passSilent_of_loud h hi, h, hstep]

end

/-- The run of a machine ends for want of steps. -/
def ShortOfSteps (r : Except Fault Unit × State) : Prop := ∃ f, r.1 = .error f ∧ f.cause = .stepLimit

/-- A run that is short of steps stops on its way; any other goes on from where the machine gets to. -/
theorem loop_of_advances (h : Relation.ReflTransGen img.Advances s t) (n : Nat) :
    ShortOfSteps (img.loop n s) ∨ ∃ m, img.loop n s = img.loop m t := by
  induction h using Relation.ReflTransGen.head_induction_on generalizing n with
  | refl => exact .inr ⟨n, rfl⟩
  | head hstep _ ih =>
    cases hstep with
    | pass hinstr hsilent =>
      cases n with
      | zero => exact .inl ⟨_, congrArg Prod.fst (loop_zero hinstr), rfl⟩
      | succ n =>
        rw [loop_of_silent hinstr hsilent]
        exact ih (n + 1)
    | step hinstr hloud hdone hrunning =>
      cases n with
      | zero => exact .inl ⟨_, congrArg Prod.fst (loop_zero hinstr), rfl⟩
      | succ n =>
        rw [loop_of_loud hinstr hloud, hdone]
        dsimp only
        rw [if_neg (by simp [hrunning])]
        exact ih n

/-! ## Code in its place -/

/-- The code stands in the machine from the index `p` on. -/
def CodeAt (img : Image) (p : Nat) (code : List Instr) : Prop :=
  ∀ (k : Nat) (i : Instr), code[k]? = some i → img.code[p + k]? = some i

variable {p q r n : Nat} {code rest : List Instr} {u v w : View} {c : Cause} {l : Label}

theorem codeAt_append : img.CodeAt p (code ++ rest) ↔ img.CodeAt p code ∧ img.CodeAt (p + code.length) rest := by
  constructor
  · intro h
    refine ⟨fun k i hk => h k i ?_, fun k i hk => ?_⟩
    · rw [getElem?_append_left (List.getElem?_eq_some_iff.1 hk).1, hk]
    · rw [Nat.add_assoc]
      exact h _ i (by rw [getElem?_append_right (Nat.le_add_right _ _), Nat.add_sub_cancel_left, hk])
  · rintro ⟨hcode, hrest⟩ k i hk
    by_cases hlt : k < code.length
    · rw [getElem?_append_left hlt] at hk
      exact hcode k i hk
    · rw [getElem?_append_right (by omega)] at hk
      have := hrest _ i hk
      rwa [Nat.add_assoc, Nat.add_sub_cancel' (by omega)] at this

theorem codeAt_singleton : img.CodeAt p [i] ↔ img.code[p]? = some i := by
  constructor
  · exact fun h => h 0 i rfl
  · intro h k j hk
    cases k with
    | zero => rwa [← Option.some.inj hk]
    | succ k => cases hk

theorem codeAt_cons : img.CodeAt p (i :: code) ↔ img.code[p]? = some i ∧ img.CodeAt (p + 1) code := by
  rw [← singleton_append, codeAt_append, codeAt_singleton]
  rfl

theorem instr?_of_code (hpc : s.pc = p) (h : img.code[p]? = some i) : img.instr? s.pc = some i := by
  rw [hpc, instr?, if_neg (by omega), Int.toNat_natCast, h]

/-! ## Where the machine gets to -/

/-- From the index `p` with the view `v` the machine gets to the index `q` with the view `w`. -/
def Goes (img : Image) (p : Nat) (v : View) (q : Nat) (w : View) : Prop :=
  ∀ s : State, s.pc = p → s.view = v → s.halted = false →
    ∃ t, Relation.ReflTransGen img.Advances s t ∧ t.pc = q ∧ t.view = w ∧ t.halted = false

/-- From the index `p` with the view `v` the machine gets to an instruction that fails. -/
def Fails (img : Image) (p : Nat) (v : View) (c : Cause) : Prop :=
  ∀ s : State, s.pc = p → s.view = v → s.halted = false →
    ∃ t i t', Relation.ReflTransGen img.Advances s t ∧ img.instr? t.pc = some i ∧ i.isSilent = false ∧
      step img i { t with pc := t.pc + 1 } = (.error c, t')

/-- From the index `p` with the view `v` the machine gets to an instruction that fails, and is left with the view `w`. -/
def FailsWith (img : Image) (p : Nat) (v : View) (c : Cause) (w : View) : Prop :=
  ∀ s : State, s.pc = p → s.view = v → s.halted = false →
    ∃ t i t', Relation.ReflTransGen img.Advances s t ∧ img.instr? t.pc = some i ∧ i.isSilent = false ∧
      step img i { t with pc := t.pc + 1 } = (.error c, t') ∧ t'.view = w

theorem Goes.refl (p : Nat) (v : View) : img.Goes p v p v := fun s hpc hview hrun => ⟨s, .refl, hpc, hview, hrun⟩

theorem Goes.trans (h : img.Goes p u q v) (h' : img.Goes q v r w) : img.Goes p u r w := by
  intro s hpc hview hrun
  obtain ⟨t, hst, hpc, hview, hrun⟩ := h s hpc hview hrun
  obtain ⟨t', htt, hend⟩ := h' t hpc hview hrun
  exact ⟨t', hst.trans htt, hend⟩

theorem Goes.fails (h : img.Goes p u q v) (h' : img.Fails q v c) : img.Fails p u c := by
  intro s hpc hview hrun
  obtain ⟨t, hst, hpc, hview, hrun⟩ := h s hpc hview hrun
  obtain ⟨t', i, t'', htt, hend⟩ := h' t hpc hview hrun
  exact ⟨t', i, t'', hst.trans htt, hend⟩

theorem goes_of_step (hcode : img.code[p]? = some i) (hloud : i.isSilent = false)
    (h : ∀ s : State, s.pc = (p : Int) + 1 → s.view = v → s.halted = false →
      ∃ t, (Exec.instr img i).run s = (.ok (), t) ∧ t.pc = q ∧ t.view = w ∧ t.halted = false) :
    img.Goes p v q w := by
  intro s hpc hview hrun
  obtain ⟨t, hrun, hend⟩ := h { s with pc := s.pc + 1, steps := s.steps + 1 } (by simp [hpc]) hview hrun
  refine ⟨t, .single (.step (instr?_of_code hpc hcode) hloud ?_ hend.2.2), hend⟩
  simpa [step, hloud] using hrun

theorem fails_of_step (hcode : img.code[p]? = some i) (hloud : i.isSilent = false)
    (h : ∀ s : State, s.pc = (p : Int) + 1 → s.view = v → ∃ t, (Exec.instr img i).run s = (.error c, t)) :
    img.Fails p v c := by
  intro s hpc hview hrun
  obtain ⟨t, hfail⟩ := h { s with pc := s.pc + 1, steps := s.steps + 1 } (by simp [hpc]) hview
  refine ⟨s, i, t, .refl, instr?_of_code hpc hcode, hloud, ?_⟩
  simpa [step, hloud] using hfail

theorem step_of_exec (img : Image) (hloud : i.isSilent = false) (h : v.exec i = .ok w) (hpc : s.pc = p) (hview : s.view = v)
    (hrun : s.halted = false) :
    ∃ t, step img i { s with pc := s.pc + 1 } = (.ok (), t) ∧ t.pc = (p + 1 : Nat) ∧ t.view = w ∧ t.halted = false := by
  rcases View.exec_does img i with hdoes | hnone
  · obtain ⟨t, ht, htv, htpc, hth⟩ := hdoes.of_ok (s := { s with pc := s.pc + 1, steps := s.steps + 1 }) (hview ▸ h)
    refine ⟨t, ?_, ?_, htv, hth.trans hrun⟩
    · simpa [step, hloud] using ht
    · simp [htpc, hpc]
  · rw [hnone v] at h
    cases h

theorem goes_of_exec (hcode : img.code[p]? = some i) (h : v.exec i = .ok w) : img.Goes p v (p + 1) w := by
  by_cases hsilent : i.isSilent
  · have hview : v = w := by
      cases i <;> first | exact Except.ok.inj h | cases hsilent
    subst hview
    intro s hpc hview hrun
    exact ⟨_, .single (.pass (instr?_of_code hpc hcode) hsilent), by simp [hpc], hview, hrun⟩
  · have hloud : i.isSilent = false := by simpa using hsilent
    intro s hpc hview hrun
    obtain ⟨t, ht, hend⟩ := step_of_exec img hloud h hpc hview hrun
    exact ⟨t, .single (.step (instr?_of_code hpc hcode) hloud ht hend.2.2), hend⟩

theorem fails_of_exec (hcode : img.code[p]? = some i) (h : v.exec i = .error c) (hc : c ≠ .crash) :
    img.Fails p v c := by
  have hloud : i.isSilent = false := by
    cases i <;> first | rfl | cases h
  refine fails_of_step hcode hloud fun s _ hview => ?_
  rcases View.exec_does img i with hdoes | hnone
  · exact hdoes.of_error (hview ▸ h)
  · rw [hnone v] at h
    cases h
    exact absurd rfl hc

section

variable (hcode : img.CodeAt p code)
include hcode

theorem goes_of_run (h : v.run code = .ok w) : img.Goes p v (p + code.length) w := by
  induction code generalizing p v with
  | nil =>
    cases h
    exact .refl p _
  | cons i code ih =>
    obtain ⟨hi, hcode⟩ := codeAt_cons.1 hcode
    obtain ⟨u, hu, hrest⟩ := Success.bind_eq_ok.1 h
    have := (goes_of_exec hi hu).trans (ih hcode hrest)
    rwa [Nat.add_assoc, Nat.add_comm 1] at this

theorem loop_of_run (hloud : ∀ i ∈ code, i.isSilent = false) (h : v.run code = .ok w) (hpc : s.pc = p)
    (hview : s.view = v) (hrun : s.halted = false) :
    ∃ t : State, t.pc = (p + code.length : Nat) ∧ t.view = w ∧ t.halted = false ∧
      ∀ n, img.loop (code.length + n) s = img.loop n t := by
  induction code generalizing p s v with
  | nil =>
    cases h
    refine ⟨s, hpc, hview, hrun, fun n => ?_⟩
    rw [length_nil, Nat.zero_add]
  | cons i code ih =>
    obtain ⟨hi, hcode⟩ := codeAt_cons.1 hcode
    obtain ⟨hiloud, hloud⟩ := forall_mem_cons.1 hloud
    obtain ⟨u, hu, hrest⟩ := Success.bind_eq_ok.1 h
    obtain ⟨t, ht, htpc, htview, htrun⟩ := step_of_exec img hiloud hu hpc hview hrun
    obtain ⟨t', hpc', hview', hrun', hloop⟩ := ih hcode hloud hrest htpc htview htrun
    refine ⟨t', ?_, hview', hrun', fun n => ?_⟩
    · rw [hpc', length_cons, Nat.add_assoc, Nat.add_comm 1]
    · rw [length_cons, Nat.add_right_comm, loop_of_loud (instr?_of_code hpc hi) hiloud, ht]
      dsimp only
      rw [htrun, if_neg Bool.false_ne_true, hloop]

theorem fails_of_run (h : v.run code = .error c) (hc : c ≠ .crash) : img.Fails p v c := by
  induction code generalizing p v with
  | nil => cases h
  | cons i code ih =>
    obtain ⟨hi, hcode⟩ := codeAt_cons.1 hcode
    cases hu : v.exec i with
    | error c' =>
      have : c' = c := by simpa [View.run, hu, bind, Except.bind] using h
      exact fails_of_exec hi (this ▸ hu) hc
    | ok u =>
      refine (goes_of_exec hi hu).fails (ih hcode ?_)
      simpa [View.run, hu, bind, Except.bind] using h

/-- Straight code that stops for a failure does so in the machine, which is left with the view of that place. -/
theorem failsWith_of_stops (h : v.Stops code c w) : img.FailsWith p v c w := by
  obtain ⟨before, i, after, rfl, hrun, hexec, hi⟩ := h
  obtain ⟨hbefore, hafter⟩ := codeAt_append.1 hcode
  have hloud : i.isSilent = false := by
    cases i <;> first | rfl | exact absurd hi id
  intro s hpc hview hhalted
  obtain ⟨t, hst, htpc, htview, -⟩ := goes_of_run hbefore hrun s hpc hview hhalted
  refine ⟨t, i, { t with pc := t.pc + 1, steps := t.steps + 1 }, hst, instr?_of_code htpc (codeAt_cons.1 hafter).1, hloud,
    ?_, htview⟩
  have hspares := View.exec_spares img hi { t with pc := t.pc + 1, steps := t.steps + 1 } c (htview ▸ hexec)
  simpa [step, hloud] using hspares

end

/-! ## Jumps -/

theorem run_jump (hl : img.labels.lookup l = some n) (s : State) :
    (Exec.jump img l).run s = (.ok (), { s with pc := n }) := by
  unfold Exec.jump
  rw [hl]
  rfl

theorem goes_jump (hcode : img.code[p]? = some (.jump l)) (hl : img.labels.lookup l = some n) : img.Goes p v n v :=
  goes_of_step hcode rfl fun s _ hview hrun => ⟨_, run_jump hl s, rfl, hview, hrun⟩

theorem run_ite_jump (test : Int64 → Prop) [DecidablePred test] (hx : x.num.toNat < Reg.count) (s : State)
    (hl : test (s.view.regs x) → img.labels.lookup l = some n) :
    (do if test (← Exec.reg x) then Exec.jump img l : Exec Unit).run s =
      (.ok (), { s with pc := if test (s.view.regs x) then n else s.pc }) := by
  have hget : s.view.get x = .ok (s.view.regs x) := if_pos hx
  rw [View.run_bind, View.gives_reg x s]
  dsimp only
  rw [hget]
  dsimp only
  rw [View.run_ite]
  split
  · next htest => exact run_jump (hl htest) s
  · rfl

theorem goes_jumpZero (hx : x.num.toNat < Reg.count) (hcode : img.code[p]? = some (.jumpZero x l))
    (hl : v.regs x = 0 → img.labels.lookup l = some n) : img.Goes p v (if v.regs x = 0 then n else p + 1) v :=
  goes_of_step hcode rfl fun s hpc hview hrun => by
    refine ⟨_, run_ite_jump (· = 0) hx s (hview ▸ hl), ?_, hview, hrun⟩
    rw [hview]
    split <;> simp [hpc]

theorem goes_jumpNonzero (hx : x.num.toNat < Reg.count) (hcode : img.code[p]? = some (.jumpNonzero x l))
    (hl : v.regs x ≠ 0 → img.labels.lookup l = some n) : img.Goes p v (if v.regs x ≠ 0 then n else p + 1) v :=
  goes_of_step hcode rfl fun s hpc hview hrun => by
    refine ⟨_, run_ite_jump (· ≠ 0) hx s (hview ▸ hl), ?_, hview, hrun⟩
    rw [hview]
    split <;> simp [hpc]

theorem run_call (l : Label) {s : State} (hpc : s.pc = (p : Int) + 1) : (Exec.instr img (.call l)).run s =
    (do Exec.push (Int64.ofNat (p + 1)); Exec.jump img l : Exec Unit).run s := by
  have haddress : Int64.ofInt s.pc = Int64.ofNat (p + 1) := by rw [hpc]; rfl
  change (do Exec.push (Int64.ofInt (← get).pc); Exec.jump img l : Exec Unit).run s = _
  rw [View.run_bind, View.run_get]
  dsimp only
  rw [haddress]

theorem goes_call (hcode : img.code[p]? = some (.call l)) (hl : img.labels.lookup l = some n)
    (h : v.push (Int64.ofNat (p + 1)) = .ok w) : img.Goes p v n w :=
  goes_of_step hcode rfl fun s hpc hview hrun => by
    obtain ⟨t, ht, htv, -, hth⟩ := (View.does_push (Int64.ofNat (p + 1))).of_ok (s := s) (hview ▸ h)
    refine ⟨{ t with pc := n }, ?_, rfl, htv, hth.trans hrun⟩
    rw [run_call l hpc, View.run_bind, ht]
    exact run_jump hl t

theorem fails_call (hcode : img.code[p]? = some (.call l)) (h : v.push (Int64.ofNat (p + 1)) = .error c) :
    img.Fails p v c :=
  fails_of_step hcode rfl fun s hpc hview => by
    obtain ⟨t, ht⟩ := (View.does_push (Int64.ofNat (p + 1))).of_error (s := s) (hview ▸ h)
    exact ⟨t, by rw [run_call l hpc, View.run_bind, ht]⟩

/-- What a return does: it pops an address, at which the machine goes on unless the run ends there. -/
theorem run_ret {address : Int64} (hread : s.view.read .w64 (s.view.regs .sp) = .ok address) :
    (Exec.instr img .ret).run s = (.ok (), if address = finalReturn then { s.setSp (s.sp + 8) with halted := true }
      else { s.setSp (s.sp + 8) with pc := address.toInt }) := by
  unfold Exec.instr
  rw [View.run_bind, View.run_pop, View.sp_eq, hread]
  rfl

theorem goes_ret (hcode : img.code[p]? = some .ret) {q : Nat} (hq : q < 2 ^ 63)
    (hread : v.read .w64 (v.regs .sp) = .ok (Int64.ofNat q)) :
    img.Goes p v q (v.set .sp (v.regs .sp + 8)) :=
  goes_of_step hcode rfl fun s hpc hview hrun => by
    subst hview
    have haddress : (Int64.ofNat q).toInt = q := toInt_ofNat_of_bounds hq
    have hne : Int64.ofNat q ≠ finalReturn := by
      intro h
      rw [h] at haddress
      have : (finalReturn : Int64).toInt = -1 := by decide
      omega
    refine ⟨_, run_ret hread, ?_⟩
    rw [if_neg hne]
    exact ⟨haddress, View.view_setSp s _, hrun⟩

end Image

end RegisterCompiler.Machine
