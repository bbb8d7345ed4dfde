import RegisterCompiler.Proofs.Compilation

/-!
# Compilation at the same time

The functions of a module are compiled by tasks, a limited number of them at a time. A task looks first whether the
compilation is cancelled, and refuses to work if it is; otherwise it stores what comes of its function, the value and
the error one after the other, in the places that the tasks share. Between any two of these steps other tasks may
take any number of theirs, and the compilation may be cancelled.

What carries the proof is that a task leaves its places as its function has them, or reports that it has refused
(`Tasks.Agrees`). So what the tasks leave behind does not depend on their order.
-/

namespace RegisterCompiler.IR.Module

open List

namespace Tasks

/-- How far a task has come. -/
inductive Phase where
  | waiting
  | started
  /-- The task has found that the compilation is not cancelled. -/
  | compiling
  /-- Nothing is stored yet. -/
  | compiled (r : Except FunctionError Compiled)
  /-- The value is stored, but not the error. -/
  | halfStored (r : Except FunctionError Compiled)
  | stored
  /-- The task has found that the compilation is cancelled. -/
  | refused
  | ended

/-- Whether a task takes one of the limited places. -/
def Phase.isActive : Phase → Bool
  | waiting | ended => false
  | _ => true

/-- The tasks for `n` functions and what they share. -/
structure State (n : Nat) where
  phase : Fin n → Phase := fun _ => .waiting
  values : Fin n → Option Compiled := fun _ => none
  errors : Fin n → Option FunctionError := fun _ => none
  cancelled : Bool
  /-- Whether a task has reported that it refused to work. -/
  failed : Bool := false

variable {n : Nat} {p : Phase}

namespace State

def goTo (s : State n) (i : Fin n) (p : Phase) : State n := { s with phase := Function.update s.phase i p }

def active (s : State n) : Nat := (Finset.univ.filter fun i => (s.phase i).isActive).card

/-- All tasks have come to their end, which is what the compilation waits for. -/
def Final (s : State n) : Prop := ∀ i, s.phase i = .ended

/-- What the compilation of a module makes of what the tasks have left. A value that is missing where no error is would
    be a crash, which is no outcome. -/
def outcome (s : State n) (entry : String) : Option (Except ModuleError Output) :=
  let errors := (List.ofFn s.errors).filterMap id
  if s.failed then some (.error .cancelled)
  else if errors.isEmpty then ((List.ofFn s.values).mapM id).map (link entry)
  else some (.error (.functions errors))

end State

/-- The number of tasks that may be active, by the number of jobs that is asked for and the number of processors. -/
def limit (jobs : Int) (processors : Nat) : Nat := if jobs ≤ 0 then processors else jobs.toNat

theorem limit_pos (jobs : Int) {processors : Nat} (h : 0 < processors) : 0 < limit jobs processors := by
  unfold limit
  split <;> omega

variable (work : Fin n → Except FunctionError Compiled) (places : Nat)

/-- What can happen next. -/
inductive Step : State n → State n → Prop where
  | cancel {s : State n} (running : s.cancelled = false) : Step s { s with cancelled := true }
  /-- Tasks are started in the order of the functions, when there is a place. -/
  | start {s : State n} (i : Fin n) (waiting : s.phase i = .waiting) (next : ∀ j < i, s.phase j ≠ .waiting)
      (place : s.active < places) : Step s (s.goTo i .started)
  | refuse {s : State n} (i : Fin n) (started : s.phase i = .started) (cancelled : s.cancelled = true) :
      Step s (s.goTo i .refused)
  | begin {s : State n} (i : Fin n) (started : s.phase i = .started) (running : s.cancelled = false) :
      Step s (s.goTo i .compiling)
  | compile {s : State n} (i : Fin n) (compiling : s.phase i = .compiling) : Step s (s.goTo i (.compiled (work i)))
  | storeValue {s : State n} (i : Fin n) {r : Except FunctionError Compiled} (compiled : s.phase i = .compiled r) :
      Step s { s.goTo i (.halfStored r) with values := Function.update s.values i r.toOption }
  | storeError {s : State n} (i : Fin n) {r : Except FunctionError Compiled} (halfStored : s.phase i = .halfStored r) :
      Step s { s.goTo i .stored with errors := Function.update s.errors i (failure? r) }
  | leave {s : State n} (i : Fin n) (stored : s.phase i = .stored) : Step s (s.goTo i .ended)
  | report {s : State n} (i : Fin n) (refused : s.phase i = .refused) : Step s { s.goTo i .ended with failed := true }

variable {work places} {s t : State n} {i j : Fin n}

/-! ## What the tasks leave -/

/-- What a phase says about the places of a task whose function is compiled to `r`. -/
def Agrees (s : State n) (i : Fin n) (r : Except FunctionError Compiled) : Prop :=
  match s.phase i with
  | .waiting | .started | .compiling => True
  | .compiled r' => r' = r
  | .halfStored r' => r' = r ∧ s.values i = r.toOption
  | .stored => s.values i = r.toOption ∧ s.errors i = failure? r
  | .refused => s.cancelled = true
  | .ended => s.failed = true ∨ s.values i = r.toOption ∧ s.errors i = failure? r

/-- Other tasks do not touch the places of a task, and what is cancelled or has failed remains so. -/
theorem Agrees.of_eq {r : Except FunctionError Compiled} (h : Agrees s i r) (hphase : t.phase i = s.phase i)
    (hvalues : t.values i = s.values i) (herrors : t.errors i = s.errors i)
    (hcancelled : s.cancelled = true → t.cancelled = true) (hfailed : s.failed = true → t.failed = true) :
    Agrees t i r := by
  unfold Agrees at h ⊢
  rw [hphase, hvalues, herrors]
  cases hp : s.phase i <;> rw [hp] at h
  case refused => exact hcancelled h
  case ended => exact h.imp_left hfailed
  all_goals exact h

variable (work) in
/-- What holds of the tasks at any time. -/
structure Invariant (s : State n) : Prop where
  agrees : ∀ i, Agrees s i (work i)
  cancelled : s.failed = true → s.cancelled = true

theorem invariant_start (cancelled : Bool) : Invariant work { cancelled } :=
  ⟨fun _ => trivial, fun h => absurd h Bool.false_ne_true⟩

/-- A step of one task needs to be looked at for this task only. -/
theorem Invariant.of_task (h : Invariant work s) (i : Fin n) (hphase : ∀ j ≠ i, t.phase j = s.phase j)
    (hvalues : ∀ j ≠ i, t.values j = s.values j) (herrors : ∀ j ≠ i, t.errors j = s.errors j)
    (hcancelled : t.cancelled = s.cancelled) (hfailed : s.failed = true → t.failed = true)
    (hreason : t.failed = true → s.cancelled = true) (hi : Agrees t i (work i)) : Invariant work t := by
  refine ⟨fun j => ?_, fun hf => hcancelled.trans (hreason hf)⟩
  by_cases hji : j = i
  · exact hji ▸ hi
  · exact (h.agrees j).of_eq (hphase j hji) (hvalues j hji) (herrors j hji) hcancelled.trans hfailed

theorem Invariant.goTo (h : Invariant work s) (hi : Agrees (s.goTo i p) i (work i)) : Invariant work (s.goTo i p) :=
  h.of_task i (fun _ hj => Function.update_of_ne hj _ _) (fun _ _ => rfl) (fun _ _ => rfl) rfl id h.cancelled hi

theorem Invariant.step (h : Invariant work s) (hstep : Step work places s t) : Invariant work t := by
  cases hstep with
  | cancel =>
    exact ⟨fun i => (h.agrees i).of_eq rfl rfl rfl (fun _ => rfl) id, fun _ => rfl⟩
  | refuse i _ hcancelled => exact h.goTo (by simpa [Agrees, State.goTo] using hcancelled)
  | start | begin | compile => exact h.goTo (by simp [Agrees, State.goTo])
  | storeValue i hcompiled =>
    have hi := h.agrees i
    simp only [Agrees, hcompiled] at hi
    refine h.of_task i (fun _ hj => Function.update_of_ne hj _ _) (fun _ hj => Function.update_of_ne hj _ _)
      (fun _ _ => rfl) rfl id h.cancelled ?_
    simp [Agrees, State.goTo, hi]
  | storeError i hhalf =>
    have hi := h.agrees i
    simp only [Agrees, hhalf] at hi
    refine h.of_task i (fun _ hj => Function.update_of_ne hj _ _) (fun _ _ => rfl)
      (fun _ hj => Function.update_of_ne hj _ _) rfl id h.cancelled ?_
    simp [Agrees, State.goTo, hi]
  | leave i hstored =>
    have hi := h.agrees i
    simp only [Agrees, hstored] at hi
    exact h.goTo (by simp [Agrees, State.goTo, hi])
  | report i hrefused =>
    have hi := h.agrees i
    simp only [Agrees, hrefused] at hi
    refine h.of_task i (fun _ hj => Function.update_of_ne hj _ _) (fun _ _ => rfl) (fun _ _ => rfl) rfl (fun _ => rfl)
      (fun _ => hi) ?_
    simp [Agrees, State.goTo]

theorem invariant_of_reaches {cancelled : Bool} (h : Relation.ReflTransGen (Step work places) { cancelled } s) :
    Invariant work s := by
  induction h with
  | refl => exact invariant_start cancelled
  | tail _ hstep ih => exact ih.step hstep

/-! ## The end of the tasks -/

/-- A bound on the steps that a task has before it. -/
def Phase.rank : Phase → Nat
  | waiting => 6
  | started => 5
  | compiling => 4
  | compiled _ => 3
  | halfStored _ => 2
  | stored | refused => 1
  | ended => 0

/-- A bound on the steps that are left; the compilation can be cancelled once. -/
def State.rank (s : State n) : Nat := ∑ i, (s.phase i).rank + if s.cancelled then 0 else 1

theorem sum_rank_goTo_lt (h : p.rank < (s.phase i).rank) :
    ∑ j, ((s.goTo i p).phase j).rank < ∑ j, (s.phase j).rank := by
  refine Finset.sum_lt_sum (fun j _ => ?_) ⟨i, Finset.mem_univ i, ?_⟩
  · by_cases hji : j = i
    · subst hji
      simpa [State.goTo] using h.le
    · simp [State.goTo, Function.update_of_ne hji]
  · simpa [State.goTo] using h

theorem rank_lt_of_step (h : Step work places s t) : t.rank < s.rank := by
  -- All steps but the first kind leave the flag of the second summand alone.
  have htask : ∀ {i : Fin n} {p : Phase}, p.rank < (s.phase i).rank →
      ∑ j, ((s.goTo i p).phase j).rank + (if s.cancelled then 0 else 1) < s.rank := fun hlt =>
    Nat.add_lt_add_right (sum_rank_goTo_lt hlt) _
  cases h with
  | cancel hrunning => simp [State.rank, hrunning]
  | start _ hi | refuse _ hi | begin _ hi | compile _ hi | storeValue _ hi | storeError _ hi | leave _ hi | report _ hi =>
    exact htask (by simp [hi, Phase.rank])

/-- No order of the tasks goes on for ever. -/
theorem wellFounded_step : WellFounded fun t s => Step work places s t :=
  Subrelation.wf rank_lt_of_step (measure State.rank).wf

theorem exists_step_of_isActive (h : (s.phase i).isActive) : ∃ t, Step work places s t := by
  cases hi : s.phase i with
  | waiting =>
    rw [hi] at h
    exact absurd h Bool.false_ne_true
  | started =>
    cases hcancelled : s.cancelled with
    | false => exact ⟨_, .begin i hi hcancelled⟩
    | true => exact ⟨_, .refuse i hi hcancelled⟩
  | compiling => exact ⟨_, .compile i hi⟩
  | compiled r => exact ⟨_, .storeValue i hi⟩
  | halfStored r => exact ⟨_, .storeError i hi⟩
  | stored => exact ⟨_, .leave i hi⟩
  | refused => exact ⟨_, .report i hi⟩
  | ended =>
    rw [hi] at h
    exact absurd h Bool.false_ne_true

/-- The tasks never wait for each other in vain. -/
theorem final_or_step (hplaces : 0 < places) (s : State n) : s.Final ∨ ∃ t, Step work places s t := by
  by_cases hactive : ∃ i, (s.phase i).isActive
  · obtain ⟨i, hi⟩ := hactive
    exact .inr (exists_step_of_isActive hi)
  by_cases hwaiting : ∃ i, s.phase i = .waiting
  · -- All places are free, so the first of the waiting tasks can be started.
    obtain ⟨i, hi, hfirst⟩ := WellFounded.has_min wellFounded_lt {i | s.phase i = .waiting} hwaiting
    have hfree : s.active = 0 := by
      rw [State.active, Finset.card_eq_zero, Finset.filter_eq_empty_iff]
      exact fun j _ hj => hactive ⟨j, hj⟩
    exact .inr ⟨_, .start i hi (fun j hj hjw => hfirst j hjw hj) (hfree ▸ hplaces)⟩
  · refine .inl fun i => ?_
    cases hi : s.phase i with
    | waiting => exact absurd ⟨i, hi⟩ hwaiting
    | ended => rfl
    | _ => exact absurd ⟨i, by rw [hi]; rfl⟩ hactive

/-! ## What comes of the tasks -/

/-- Where no task has refused to work, every place is as its function has it. -/
theorem Invariant.outcome_eq (h : Invariant work s) (hfinal : s.Final) (hfailed : s.failed = false) (entry : String) :
    s.outcome entry = some (collect ((List.ofFn work).map some) >>= link entry) := by
  have hplaces : ∀ i, s.values i = (work i).toOption ∧ s.errors i = failure? (work i) := by
    intro i
    have hi := h.agrees i
    simp only [Agrees, hfinal i, hfailed] at hi
    exact hi.resolve_left Bool.false_ne_true
  have hvalues : List.ofFn s.values = (List.ofFn work).map Except.toOption := by
    rw [map_ofFn, funext fun i => (hplaces i).1]
    rfl
  have herrors : (List.ofFn s.errors).filterMap id = (List.ofFn work).filterMap failure? := by
    have hfailures : List.ofFn s.errors = (List.ofFn work).map failure? := by
      rw [map_ofFn, funext fun i => (hplaces i).2]
      rfl
    rw [hfailures, filterMap_map, Function.id_comp]
  rw [State.outcome, hfailed, if_neg Bool.false_ne_true, hvalues, herrors]
  rcases collect_map_some (List.ofFn work) with ⟨compiled, hok, hall⟩ | ⟨hne, herror⟩
  · have hnone : (compiled.map Except.ok).filterMap failure? = [] := by
      rw [filterMap_map]
      exact filterMap_eq_nil_iff.2 fun _ _ => rfl
    have hsome : ((compiled.map Except.ok).map (Except.toOption (ε := FunctionError))).mapM id = some compiled := by
      rw [map_map]
      exact mapM_id_map_some compiled
    rw [hok, hall, hnone, hsome]
    rfl
  · rw [herror, if_neg (mt List.isEmpty_iff.1 hne)]
    rfl

/-- Tasks that find the compilation cancelled from the beginning, and have done nothing but refuse to work. -/
structure Barred (s : State n) : Prop where
  cancelled : s.cancelled = true
  phase : ∀ i, s.phase i = .waiting ∨ s.phase i = .started ∨ s.phase i = .refused ∨
    s.phase i = .ended ∧ s.failed = true
  failed : s.failed = true → 0 < n

theorem Barred.goTo (h : Barred s) (hp : p = .started ∨ p = .refused) : Barred (s.goTo i p) := by
  refine ⟨h.cancelled, fun j => ?_, h.failed⟩
  by_cases hji : j = i
  · subst hji
    rcases hp with rfl | rfl <;> simp [State.goTo]
  · simpa [State.goTo, Function.update_of_ne hji] using h.phase j

theorem Barred.step (h : Barred s) (hstep : Step work places s t) : Barred t := by
  cases hstep with
  | start i => exact h.goTo (.inl rfl)
  | refuse i => exact h.goTo (.inr rfl)
  | cancel hrunning | begin _ _ hrunning => exact absurd (h.cancelled.symm.trans hrunning) Bool.noConfusion
  | report i =>
    refine ⟨h.cancelled, fun j => ?_, fun _ => i.pos⟩
    by_cases hji : j = i
    · subst hji
      simp [State.goTo]
    · have := h.phase j
      simp only [State.goTo, Function.update_of_ne hji]
      tauto
  | compile i hi | storeValue i hi | storeError i hi | leave i hi => simpa [hi] using h.phase i

theorem barred_of_reaches (h : Relation.ReflTransGen (Step work places) { cancelled := true } s) : Barred s := by
  induction h with
  | refl => exact ⟨rfl, fun _ => .inl rfl, fun h => absurd h Bool.false_ne_true⟩
  | tail _ hstep ih => exact ih.step hstep

/-- A compilation that is cancelled from the beginning fails, unless there is nothing to compile. -/
theorem Barred.failed_iff (h : Barred s) (hfinal : s.Final) : s.failed = true ↔ 0 < n := by
  refine ⟨h.failed, fun hn => ?_⟩
  have := h.phase ⟨0, hn⟩
  simpa [hfinal ⟨0, hn⟩] using this

end Tasks

variable (d : Descriptor) (m : Module) (entry : String)

/-- What comes of a function of a module. -/
def work (i : Fin m.functions.length) : Except FunctionError Compiled := (m.functions.get i).compile d

/-- What comes of a module if its functions are compiled one after the other. -/
inductive InSequence : Except ModuleError Output → Prop where
  /-- The errors of all functions that cannot be compiled, in the order of the module. -/
  | failed (some : (m.functions.map (Function.compile d)).filterMap failure? ≠ []) :
      InSequence (.error (.functions ((m.functions.map (Function.compile d)).filterMap failure?)))
  /-- The program of the compiled functions, in the order of the module. -/
  | linked {compiled : List Compiled} (all : List.Forall₂ (fun f k => f.compile d = .ok k) m.functions compiled)
      (valid : Asm.Program.validate ⟨entry, compiled.map Compiled.code⟩ = .ok ()) :
      InSequence (.ok ⟨⟨entry, compiled.map Compiled.code⟩, compiled⟩)
  | invalid {compiled : List Compiled} (all : List.Forall₂ (fun f k => f.compile d = .ok k) m.functions compiled)
      {e : Asm.ValidationError} (wrong : Asm.Program.validate ⟨entry, compiled.map Compiled.code⟩ = .error e) :
      InSequence (.error (.invalid e))

variable {d m entry}

theorem ofFn_work : List.ofFn (m.work d) = m.functions.map (Function.compile d) := by
  have : m.work d = Function.compile d ∘ m.functions.get := rfl
  rw [this, ← map_ofFn, ofFn_get]

theorem compile_eq_collect (hsymbols : m.symbolErrors entry = []) :
    m.compile d { entry } = collect ((m.functions.map (Function.compile d)).map some) >>= link entry := by
  rw [compile, compileFunctions_eq_collect hsymbols rfl]

theorem inSequence_compile (hsymbols : m.symbolErrors entry = []) : InSequence d m entry (m.compile d { entry }) := by
  rw [compile_eq_collect hsymbols]
  rcases collect_map_some (m.functions.map (Function.compile d)) with ⟨compiled, hok, hall⟩ | ⟨hne, herror⟩
  · have hall : List.Forall₂ (fun f k => f.compile d = .ok k) m.functions compiled := by
      rwa [← forall₂_eq_eq_eq, forall₂_map_left_iff, forall₂_map_right_iff] at hall
    rw [hok]
    change InSequence d m entry (link entry compiled)
    cases hvalid : Asm.Program.validate ⟨entry, compiled.map Compiled.code⟩ with
    | ok =>
      have hlink : link entry compiled = .ok ⟨⟨entry, compiled.map Compiled.code⟩, compiled⟩ := by simp [link, hvalid]
      exact hlink ▸ .linked hall hvalid
    | error e =>
      have hlink : link entry compiled = .error (.invalid e) := by simp [link, hvalid]
      exact hlink ▸ .invalid hall hvalid
  · rw [herror]
    exact .failed hne

theorem compile_cancelled (hsymbols : m.symbolErrors entry = []) (hm : 0 < m.functions.length) :
    m.compile d { entry, cancelled := true } = .error .cancelled := by
  obtain ⟨f, rest, hrest⟩ := exists_cons_of_length_pos hm
  have hnone : (m.functions.map fun _ => (none : Option (Except FunctionError Compiled))).mapM id = none := by
    rw [hrest, map_cons, mapM_cons]
    rfl
  have hcollect : m.compileFunctions d { entry, cancelled := true } = .error .cancelled := by
    rw [compileFunctions, hsymbols]
    change collect (m.functions.map fun _ => none) = _
    rw [collect, hnone]
  rw [compile, hcollect]
  rfl

open Tasks in
/-- The tasks for the functions of a module come to an end in every order, whenever the compilation is cancelled and
    however many of them are active at a time. Then the compilation has failed because it was cancelled, or it has come
    to what the compilation of one function after the other comes to. -/
theorem compile_of_tasks (hsymbols : m.symbolErrors entry = []) (jobs : Int) {processors : Nat}
    (hprocessors : 0 < processors) (cancelled : Bool) :
    InSequence d m entry (m.compile d { entry }) ∧
      WellFounded (fun t s => Step (m.work d) (limit jobs processors) s t) ∧
      ∀ s, Relation.ReflTransGen (Step (m.work d) (limit jobs processors)) { cancelled } s →
        (s.Final ∨ ∃ t, Step (m.work d) (limit jobs processors) s t) ∧
        (s.Final → s.cancelled = true ∧ s.outcome entry = some (.error .cancelled) ∨
          s.outcome entry = some (m.compile d { entry })) ∧
        (s.Final → cancelled = true → s.outcome entry = some (m.compile d { entry, cancelled })) := by
  refine ⟨inSequence_compile hsymbols, wellFounded_step, fun s hs => ?_⟩
  have hinvariant := invariant_of_reaches hs
  -- Where no task has refused to work, the outcome is the same for all orders.
  have hdone : s.Final → s.failed = false → s.outcome entry = some (m.compile d { entry }) := fun hfinal hfailed => by
    rw [hinvariant.outcome_eq hfinal hfailed, ofFn_work, compile_eq_collect hsymbols]
  have hcancelled : s.failed = true → s.outcome entry = some (.error .cancelled) := fun hfailed => if_pos hfailed
  refine ⟨final_or_step (limit_pos jobs hprocessors) s, fun hfinal => ?_, ?_⟩
  · cases hfailed : s.failed with
    | true => exact .inl ⟨hinvariant.cancelled hfailed, hcancelled hfailed⟩
    | false => exact .inr (hdone hfinal hfailed)
  · rintro hfinal rfl
    have hfailed := (barred_of_reaches hs).failed_iff hfinal
    rcases Nat.eq_zero_or_pos m.functions.length with hempty | hpos
    · rw [hdone hfinal (by simpa [hempty] using hfailed)]
      simp [compile, compileFunctions, eq_nil_of_length_eq_zero hempty]
    · rw [hcancelled (hfailed.2 hpos), compile_cancelled hsymbols hpos]

namespace Scheduling

def mixed : Module :=
  let whole : Function :=
    { name := "whole", params := [⟨0, .w64⟩], result := .w64, entry := 0, slots := []
      blocks := [⟨0, "entry", [.ret (some (.var ⟨0, .w64⟩))]⟩] }
  { functions := [{ whole with name := "empty", blocks := [] }, whole, { whole with name := "astray", entry := 7 }] }

/-- Two of the three tasks may be active at a time. Whichever fails first, the errors come in the order of the module. -/
theorem compile_of_tasks_mixed :
    mixed.symbolErrors "" = [] ∧ (0 : Nat) < 4 ∧ ∀ s, s.Final →
      Relation.ReflTransGen (Tasks.Step (mixed.work Allocation.smallTarget) (Tasks.limit 2 4)) { cancelled := false } s →
      s.cancelled = true ∧ s.outcome "" = some (.error .cancelled) ∨
        s.outcome "" = some (.error (.functions
          [.verify ⟨"empty", none, .noBlocks⟩, .verify ⟨"astray", none, .noEntry 7⟩])) := by
  have hsymbols : mixed.symbolErrors "" = [] := by cbv
  have hcompile : mixed.compile Allocation.smallTarget { entry := "" } =
      .error (.functions [.verify ⟨"empty", none, .noBlocks⟩, .verify ⟨"astray", none, .noEntry 7⟩]) := by cbv
  refine ⟨hsymbols, by decide, fun s hfinal hs => ?_⟩
  rw [← hcompile]
  exact ((compile_of_tasks hsymbols 2 (by decide) false).2.2 s hs).2.1 hfinal

end Scheduling

end RegisterCompiler.IR.Module
