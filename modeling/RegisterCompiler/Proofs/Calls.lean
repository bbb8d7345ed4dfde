import RegisterCompiler.Proofs.Arguments

/-!
# Calls

A caller pushes the last arguments, moves the others into their registers, and calls. When the callee returns, the
caller clears the stack and moves the result to its home.
-/

namespace RegisterCompiler

open List
open IR (Activation Operand Var)
open Machine (View)
open Machine.View (Changes cell)
open Success

namespace IR

def Activation.receive (a : Activation) : (dest : Option Var) → (result : Int64) → Activation
  | some d, x => a.assign d (d.width.canonical x)
  | none, _ => a

@[simp] theorem Activation.receive_block (a : Activation) (dest : Option Var) (x : Int64) :
    (a.receive dest x).block = a.block := by
  cases dest <;> rfl

@[simp] theorem Activation.receive_rest (a : Activation) (dest : Option Var) (x : Int64) :
    (a.receive dest x).rest = a.rest := by
  cases dest <;> rfl

theorem Config.leave_of_callers {c : Config} {a : Activation} {dest : Option Var} {callers : List Caller}
    (h : c.callers = ⟨a, dest⟩ :: callers) (x : Int64) :
    c.leave x = .next { c with active := a.receive dest x, callers } := by
  rw [leave, h]
  cases dest <;> rfl

end IR

namespace Emission

variable {e : Emission} {base top : Int} {size k : Nat} {start u v w : View} {y : Operand} {x : Int64} {code : List Asm.Instr}
  {os : List Operand} {xs : List Int64} {address : Int64} {ms : List Move} {n : Nat}

/-! ## Arguments on the stack -/

/-- The homes of variables lie at an address or above it. -/
def Above (e : Emission) (base top : Int) : Prop :=
  ∀ u ∈ e.function.vars, ∀ p, e.home u = .ok p → ∀ a : Nat, p.Covers base u.width a → top ≤ a

theorem Sound.above (h : e.Sound) (hroom : e.Room base size) : e.Above base (base - e.layout.size.toInt) :=
  fun _ hu _ hp _ ha => h.home_above hroom hu hp ha

/-- What pushing arguments changes: scratch registers, the stack pointer, and the stack below its top. -/
abbrev Pushing (e : Emission) (top : Int) (v w : View) : Prop :=
  Changes (fun r => r ∈ e.target.scratch ∨ r = .sp) (fun a : Nat => a < top) v w

theorem Placed.stands_of_pushing (h : e.Placed) (hv : v.Stands base size) (hc : e.Pushing top v w) : w.Stands base size :=
  hv.of_changes hc fun hfp => hfp.elim h.fp_not_scratch (by decide)

theorem Reads.of_pushing (hy : e.Reads base v y x) (h : e.Placed) (habove : e.Above base top) (hc : e.Pushing top v w) :
    e.Reads base w y x :=
  hy.of_changes h hc (fun _ hr => hr) fun u hu p hp a ha hlow => by
    have hlow : (a : Int) < top := hlow
    have := habove u hu p hp a ha
    omega

theorem Homed.run_pushArg (h : e.Homed base size) (hv : v.Stands base size) (hy : e.Reads base v y x)
    (hcode : e.pushArg y = .ok code) :
    ∃ w r, v.run code = w.exec (.push r) ∧ r.num < 16 ∧ w.regs r = x ∧
      Changes (· ∈ e.target.scratch) (fun _ => False) v w := by
  obtain ⟨s, hs, hrest⟩ := bind_eq_ok.1 hcode
  obtain ⟨hfits, hvalue, hplace⟩ := h.source_value hy hs
  by_cases hreg : ∃ q, s = .place (.reg q)
  · obtain ⟨q, rfl⟩ := hreg
    cases hrest
    obtain ⟨⟨u, rfl, hu⟩, hheld⟩ := hplace _ rfl
    exact ⟨v, q, View.run_singleton v _, h.target.allocatable_general q (h.home_not_scratch hy.1 hu).1, hheld,
      .refl v⟩
  · have hload : (do let r ← e.firstScratch; pure [s.load y.width r, .push r] : Except EmitError (List Asm.Instr)) =
        .ok code := by
      rcases s with (q | _) | _
      · exact absurd ⟨q, rfl⟩ hreg
      · exact hrest
      · exact hrest
    obtain ⟨r, hr, ⟨⟩⟩ := bind_eq_ok.1 hload
    have hmem : r ∈ e.target.scratch := by
      unfold firstScratch at hr
      split at hr
      · next hscratch =>
        cases hr
        rw [hscratch]
        exact mem_cons_self
      · cases hr
    have hgeneral := h.target.scratch_general r hmem
    refine ⟨v.set r x, r, ?_, hgeneral, View.regs_set_self v r x, ?_⟩
    · rw [View.run, hv.exec_load (Reg.lt_count hgeneral) hfits, hvalue]
      exact View.run_singleton _ _
    · exact (View.changes_set _ v r x).mono (fun q hq => hq ▸ hmem) fun _ ha => ha

/-- Arguments are pushed one after the other, the last one first, unless there is no room for them. -/
theorem Homed.run_pushes (h : e.Homed base size) (habove : e.Above base top) (hv : v.Stands base size)
    (hsp : (v.regs .sp).toInt = top) (hlow : 0 ≤ top) (hhigh : top ≤ size)
    (hreads : List.Forall₂ (e.Reads base v) os xs) {codes : List (List Asm.Instr)}
    (hcodes : List.Forall₂ (fun y code => e.pushArg y = .ok code) os codes) :
    v.run codes.reverse.flatten = .error .stackOverflow ∧ top < 8 * os.length ∨
      ∃ w, v.run codes.reverse.flatten = .ok w ∧ e.Pushing top v w ∧ w.Stacked xs ∧
        (w.regs .sp).toInt = top - 8 * os.length := by
  induction hreads generalizing codes with
  | nil =>
    cases hcodes
    refine .inr ⟨v, rfl, .refl v, ⟨nofun, by omega, ?_, hv.memory ▸ hv.bound⟩, by simpa using hsp⟩
    rw [hv.memory, length_nil]
    omega
  | @cons y x os xs hy _ ih =>
    obtain ⟨code, codes, hcode, hrest, rfl⟩ := forall₂_cons_left_iff.1 hcodes
    have hflatten : (code :: codes).reverse.flatten = codes.reverse.flatten ++ code := by simp
    rw [hflatten, length_cons]
    rcases ih hrest with ⟨hoverflow, hless⟩ | ⟨u, hrun, hc, hstacked, husp⟩
    · refine .inl ⟨?_, by omega⟩
      rw [View.run_append, hoverflow]
      rfl
    have hu := h.stands_of_pushing hv hc
    obtain ⟨w, r, hpush, hr, hwr, hwc⟩ := h.run_pushArg hu (hy.of_pushing h.toPlaced habove hc) hcode
    have hrun' : v.run (codes.reverse.flatten ++ code) = w.push x := by
      rw [View.run_append, hrun]
      refine hpush.trans ?_
      simp only [View.exec, View.get_general hr, bind, Except.bind, hwr]
    have hsp : Reg.sp ∉ e.target.scratch := fun hsp => Reg.ne_sp (h.target.scratch_general _ hsp) rfl
    have hwsp : w.regs .sp = u.regs .sp := hwc.regs _ hsp
    rcases (hstacked.of_changes hwc hsp).push x with ⟨hoverflow, hless⟩ | ⟨w', hok, hstacked', hsp', hc'⟩
    · refine .inl ⟨hrun'.trans hoverflow, ?_⟩
      rw [hwsp, husp] at hless
      omega
    refine .inr ⟨w', hrun'.trans hok, ?_, hstacked', ?_⟩
    · refine hc.trans ((hwc.mono (fun _ hr => .inl hr) fun _ => False.elim).trans (hc'.mono (fun _ hr => .inr hr) ?_))
      intro a ha
      rw [hwsp, husp] at ha
      omega
    · rw [hsp', hwsp, husp]
      omega

/-! ## Arguments in registers -/

/-- The move that brings an argument to its register. -/
def BringsArg (e : Emission) (x : Operand × Reg) (m : Move) : Prop :=
  m.dest = .reg x.2 ∧ e.source x.1 = .ok m.source ∧ m.width = x.1.width

theorem forall₂_argMoves (h : e.argMoves os = .ok ms) : List.Forall₂ e.BringsArg (os.zip e.target.args) ms := by
  refine (mapM_eq_ok.1 h).imp fun x m hm => ?_
  obtain ⟨s, hs, ⟨⟩⟩ := bind_eq_ok.1 hm
  exact ⟨rfl, hs, rfl⟩

theorem Homed.moving_args (h : e.Homed base size) (hreads : ∀ y ∈ os, ∃ x, e.Reads base v y x)
    (hms : e.argMoves os = .ok ms) (hscratch : ∀ m ∈ ms, 2 ≤ e.target.scratch.length ∨ m.isIdentity) :
    e.Moving base size ms := by
  have hmove : ∀ m ∈ ms, ∃ y ∈ os, ∃ r ∈ e.target.args, ∃ x, e.Reads base v y x ∧ e.BringsArg (y, r) m := by
    intro m hm
    obtain ⟨⟨y, r⟩, hmem, hbrings⟩ := exists_of_mem_right (forall₂_argMoves hms) hm
    obtain ⟨hy, hr⟩ := of_mem_zip hmem
    obtain ⟨x, hx⟩ := hreads y hy
    exact ⟨y, hy, r, hr, x, hx, hbrings⟩
  refine
    { dest := fun m hm => ?_, source := fun m hm => ?_, dest_free := fun m hm q hq => ?_,
      source_free := fun m hm r hr => ?_, dests := ?_, sources := fun m hm m' hm' p hp => ?_, scratch := hscratch }
  · obtain ⟨y, -, r, hr, x, -, hdest, -⟩ := hmove m hm
    rw [hdest]
    exact Reg.usable (h.target.args_general r hr)
  · obtain ⟨y, -, r, -, x, hx, -, hs, hwidth⟩ := hmove m hm
    rw [hwidth]
    exact (h.source_value hx hs).1
  · obtain ⟨y, -, r, hr, x, -, hdest, -⟩ := hmove m hm
    cases hdest.symm.trans hq
    exact h.target.args_not_scratch r hr
  · obtain ⟨y, -, q, -, x, hx, -, hs, -⟩ := hmove m hm
    obtain ⟨u, rfl, hu⟩ := exists_of_source_eq (hr ▸ hs)
    exact (h.home_not_scratch hx.1 hu).2
  · have hpairs : (os.zip e.target.args).Pairwise fun x y => x.2 ≠ y.2 := by
      refine pairwise_iff_getElem.2 fun i j hi hj hij => ?_
      rw [getElem_zip, getElem_zip]
      intro heq
      exact Nat.ne_of_lt hij ((h.target.args_nodup.getElem_inj_iff).1 heq)
    refine pairwise_of_forall₂ (forall₂_argMoves hms) hpairs ?_
    rintro x - y - m m' ⟨hdest, -⟩ ⟨hdest', -⟩ hne
    rw [hdest, hdest']
    exact hne
  · obtain ⟨y', -, r, -, x, -, hdest, -⟩ := hmove m' hm'
    rw [hdest]
    cases p with
    | reg q =>
      by_cases hqr : q = r
      · exact .inl (congrArg Place.reg hqr)
      · exact .inr hqr
    | frame offset => exact .inr trivial

theorem Homed.run_argMoves (h : e.Homed base size) (hv : v.Stands base size)
    (hreads : List.Forall₂ (e.Reads base v) os xs) (hms : e.argMoves os = .ok ms)
    (hscratch : ∀ m ∈ ms, 2 ≤ e.target.scratch.length ∨ m.isIdentity) :
    ∃ w, v.run (e.moves ms) = .ok w ∧
      (∀ (k : Nat) r x, e.target.args[k]? = some r → xs[k]? = some x → w.regs r = x) ∧
      Changes (fun r => r ∈ e.target.scratch ∨ r ∈ e.target.args) (fun _ => False) v w := by
  have hmoves := forall₂_argMoves hms
  have hreads' : ∀ y ∈ os, ∃ x, e.Reads base v y x := fun y hy => by
    obtain ⟨x, -, hx⟩ := exists_of_mem_left hreads hy
    exact ⟨x, hx⟩
  obtain ⟨w, hrun, hheld, hc⟩ := h.run_moves (h.moving_args hreads' hms hscratch) hv fun m hm p hp => by
    obtain ⟨⟨y, r⟩, hmem, -, hs, hwidth⟩ := exists_of_mem_right hmoves hm
    obtain ⟨x, hx⟩ := hreads' y (of_mem_zip hmem).1
    rw [hwidth, ((h.source_value hx hs).2.2 p hp).2]
    exact (hx.canonical h.toPlaced).2
  refine ⟨w, hrun, fun k r x hr hx => ?_, hc.mono ?_ ?_⟩
  · obtain ⟨hlt, rfl⟩ := List.getElem?_eq_some_iff.1 hx
    have hlt' : k < os.length := hreads.length_eq ▸ hlt
    have hread : e.Reads base v os[k] xs[k] := hreads.get hlt' hlt
    have hmem : (os[k], r) ∈ os.zip e.target.args :=
      mem_iff_getElem?.2 ⟨k, getElem?_zip_eq_some.2 ⟨getElem?_eq_getElem hlt', hr⟩⟩
    obtain ⟨m, hm, hdest, hs, hwidth⟩ := exists_of_mem_left hmoves hmem
    have hvalue := hheld m hm
    rw [hdest, hwidth] at hvalue
    exact hvalue.trans (h.source_value hread hs).2.1
  · rintro r (hr | ⟨m, hm, hmr⟩)
    · exact .inl hr
    · obtain ⟨⟨y, q⟩, hmem, hdest, -⟩ := exists_of_mem_right hmoves hm
      cases hdest.symm.trans hmr
      exact .inr (of_mem_zip hmem).2
  · rintro a ⟨m, hm, hcovers⟩
    obtain ⟨⟨y, q⟩, -, hdest, -⟩ := exists_of_mem_right hmoves hm
    rw [hdest] at hcovers
    exact hcovers

/-! ## Calling -/

/-- The machine at the beginning of a callee, which was called from `v` with the stack up to `top`, and returns to
    `address`. -/
structure Calls (e : Emission) (top : Int) (xs : List Int64) (address : Int64) (v w : View) : Prop where
  passed : Passed e.target xs address w
  sp : (w.regs .sp).toInt = top - 8 * (xs.length - e.target.args.length : Nat) - 8
  changes : Changes (fun r => r ∈ e.target.scratch ∨ r ∈ e.target.args ∨ r = .sp) (fun a : Nat => a < top) v w

/-- The callee finds its arguments, unless there is no room for them on the stack. -/
theorem Homed.run_args (h : e.Homed base size) (habove : e.Above base top) (hv : v.Stands base size)
    (hsp : (v.regs .sp).toInt = top) (hlow : 0 ≤ top) (hhigh : top ≤ size)
    (hreads : List.Forall₂ (e.Reads base v) os xs) {pushes : List (List Asm.Instr)}
    (hpushes : (os.drop e.target.args.length).reverse.mapM e.pushArg = .ok pushes) (hms : e.argMoves os = .ok ms)
    (hscratch : ∀ m ∈ ms, 2 ≤ e.target.scratch.length ∨ m.isIdentity) :
    v.run (pushes.flatten ++ e.moves ms) = .error .stackOverflow ∧ top < 8 * (xs.length - e.target.args.length : Nat) ∨
      ∃ w, v.run (pushes.flatten ++ e.moves ms) = .ok w ∧ ∀ address,
        w.push address = .error .stackOverflow ∧ top < 8 * (xs.length - e.target.args.length : Nat) + 8 ∨
          ∃ u, w.push address = .ok u ∧ e.Calls top xs address v u := by
  have hcodes : List.Forall₂ (fun y code => e.pushArg y = .ok code) (os.drop e.target.args.length) pushes.reverse := by
    rw [← forall₂_reverse_iff, reverse_reverse]
    exact mapM_eq_ok.1 hpushes
  have hpushed := h.run_pushes habove hv hsp hlow hhigh (forall₂_drop e.target.args.length hreads) hcodes
  rw [reverse_reverse, length_drop, hreads.length_eq] at hpushed
  rcases hpushed with ⟨hoverflow, hless⟩ | ⟨u, hrun, hc, hstacked, husp⟩
  · refine .inl ⟨?_, hless⟩
    rw [View.run_append, hoverflow]
    rfl
  obtain ⟨w, hrun', hargs, hc'⟩ := h.run_argMoves (h.stands_of_pushing hv hc)
    (hreads.imp fun y x hy => hy.of_pushing h.toPlaced habove hc) hms hscratch
  refine .inr ⟨w, ?_, fun address => ?_⟩
  · rw [View.run_append, hrun]
    exact hrun'
  have hsp : ¬(Reg.sp ∈ e.target.scratch ∨ Reg.sp ∈ e.target.args) := fun hsp => hsp.elim
    (fun hsp => Reg.ne_sp (h.target.scratch_general _ hsp) rfl) fun hsp => Reg.ne_sp (h.target.args_general _ hsp) rfl
  have hwsp : w.regs .sp = u.regs .sp := hc'.regs _ hsp
  rcases (hstacked.of_changes hc' hsp).push address with ⟨hoverflow, hless⟩ | ⟨w', hok, hstacked', hsp', hwc⟩
  · refine .inl ⟨hoverflow, ?_⟩
    rw [hwsp, husp] at hless
    omega
  refine .inr ⟨w', hok, ?_⟩
  exact
    { passed :=
        { regs := fun k r x hr hx => by
            rw [hwc.regs r (Reg.ne_sp (h.target.args_general r (mem_of_getElem? hr)))]
            exact hargs k r x hr hx
          stacked := hstacked' }
      sp := by rw [hsp', hwsp, husp]
      changes := by
        refine (hc.mono (fun r hr => hr.elim .inl (.inr ∘ .inr)) fun _ ha => ha).trans
          ((hc'.mono (fun r hr => hr.elim .inl (.inr ∘ .inl)) fun _ => False.elim).trans
            (hwc.mono (fun r hr => .inr (.inr hr)) fun a ha => ?_))
        rw [hwsp, husp] at ha
        omega }

theorem Calls.kept (h : e.Calls top xs address v w) (hplaced : e.Placed) {r : Reg} (hr : r ∈ e.target.calleeSaved) :
    w.regs r = v.regs r := by
  have hr := hplaced.target.saved_allocatable r hr
  refine h.changes.regs r ?_
  rintro (hscratch | harg | hsp)
  · exact hplaced.target.allocatable_not_scratch r hr hscratch
  · exact hplaced.target.saved_not_arg r ‹_› harg
  · exact Reg.ne_sp (hplaced.target.allocatable_general r hr) hsp

theorem Calls.fp (h : e.Calls top xs address v w) (hplaced : e.Placed) : w.regs .fp = v.regs .fp := by
  refine h.changes.regs _ ?_
  rintro (hscratch | harg | hsp)
  · exact hplaced.fp_not_scratch hscratch
  · exact Reg.ne_fp (hplaced.target.args_general _ harg) rfl
  · exact absurd hsp (by decide)

def clearCode (pushed : Int64) : List Asm.Instr := if 0 < pushed then [.aluImm .add .w64 .sp .sp pushed] else []

def resultCode (e : Emission) : Option Var → Except EmitError (List Asm.Instr)
  | none => pure []
  | some d => do pure (e.moves [⟨← e.home d, .place (.reg e.target.result), d.width⟩])

theorem callCode_eq_ok {dest : Option Var} {callee : String} (h : e.callCode dest callee os = .ok code) :
    ∃ pushes ms result, (os.drop e.target.args.length).reverse.mapM e.pushArg = .ok pushes ∧ e.argMoves os = .ok ms ∧
      e.resultCode dest = .ok result ∧
      code = pushes.flatten ++ e.moves ms ++ [.call callee] ++
        (clearCode (Int64.ofNat (os.length - e.target.args.length) * e.target.stackArgSize) ++ result) := by
  obtain ⟨pushes, hpushes, h⟩ := bind_eq_ok.1 h
  obtain ⟨ms, hms, h⟩ := bind_eq_ok.1 h
  rw [← length_drop]
  cases dest with
  | none =>
    cases h
    exact ⟨pushes, ms, [], hpushes, hms, rfl, by simp [clearCode]⟩
  | some d =>
    obtain ⟨p, hp, ⟨⟩⟩ := bind_eq_ok.1 h
    exact ⟨pushes, ms, _, hpushes, hms, bind_eq_ok.2 ⟨p, hp, rfl⟩, by simp [clearCode]⟩

/-! ## Returning -/

/-- What a call leaves to the caller of what it had. -/
abbrev Calling (e : Emission) (top : Int) (v w : View) : Prop :=
  Changes (fun r => r ∉ e.target.calleeSaved ∧ r ≠ .fp ∧ r ≠ .sp) (fun a : Nat => a < top) v w

theorem Restores.read_address {d : Descriptor} (h : e.Restores ((u.regs .sp).toInt - 8) u w)
    (hpassed : Passed d xs address u) : w.read .w64 (w.regs .sp) = .ok address := by
  have hlow := hpassed.low
  have hsp : w.regs .sp = u.regs .sp := Int64.toInt_inj.1 (by rw [h.sp]; omega)
  exact hpassed.read_address hsp h.size (Memory.value_congr fun j _ => h.above _ (by omega))

theorem run_clearCode {pushed : Int64} (hpushed : pushed.toInt = 8 * n) (hsp : (v.regs .sp).toInt = top - 8 * n)
    (hlow : 0 ≤ top) (hbound : top < 2 ^ 63) :
    ∃ w, v.run (clearCode pushed) = .ok w ∧ (w.regs .sp).toInt = top ∧ Changes (· = .sp) (fun _ => False) v w := by
  have hzero : (0 : Int64).toInt = 0 := rfl
  by_cases hpos : 0 < pushed
  · have hsum : (v.regs .sp + pushed).toInt = top := by
      have := (v.regs .sp).le_toInt
      rw [toInt_add_of_bounds] <;> rw [hsp, hpushed] <;> omega
    have hroom : ¬v.regs .sp + pushed < 0 := fun hneg => by
      have := Int64.lt_iff_toInt_lt.1 hneg
      omega
    refine ⟨v.set .sp (v.regs .sp + pushed), ?_, ?_, View.changes_set _ v .sp _⟩
    · rw [clearCode, if_pos hpos, View.run_singleton, View.exec_addSp, if_neg hroom]
    · rw [View.regs_set_self, hsum]
  · refine ⟨v, by rw [clearCode, if_neg hpos]; rfl, ?_, .refl v⟩
    have := mt Int64.lt_iff_toInt_lt.2 hpos
    omega

theorem Placed.toInt_pushed (h : e.Placed) (hn : 8 * n < 2 ^ 63) :
    (Int64.ofNat n * e.target.stackArgSize).toInt = 8 * n := by
  have hn : (Int64.ofNat n).toInt = n := toInt_ofNat_of_bounds (by omega)
  rw [h.target.stackArgSize, toInt_mul_of_bounds] <;> rw [hn, toInt_eight] <;> omega

theorem Calls.run_clear (h : e.Calls top xs address v u) (hplaced : e.Placed) (hhigh : top ≤ u.memory.size)
    (hw : w.regs .sp = u.regs .sp) :
    ∃ r, (w.set .sp (w.regs .sp + 8)).run
        (clearCode (Int64.ofNat (xs.length - e.target.args.length) * e.target.stackArgSize)) = .ok r ∧
      (r.regs .sp).toInt = top ∧ Changes (· = .sp) (fun _ => False) w r := by
  have hlow := h.passed.low
  have hbound := h.passed.bound
  have hsp := h.sp
  generalize xs.length - e.target.args.length = n at hsp
  have hset := View.changes_set (fun _ => False) w .sp (w.regs .sp + 8)
  have hreturn : ((w.set .sp (w.regs .sp + 8)).regs .sp).toInt = top - 8 * n := by
    rw [View.regs_set_self, hw, toInt_add_of_bounds] <;> rw [hsp, toInt_eight] <;> omega
  obtain ⟨r, hrun, hrsp, hc⟩ := run_clearCode (hplaced.toInt_pushed (by omega)) hreturn (by omega) (by omega)
  exact ⟨r, hrun, hrsp, hset.trans hc⟩

/-- After a call the stack is cleared, and the frame of the caller is as it was. -/
theorem Framed.run_clear {e' : Emission} (h : e.Framed base size start v) (hsound : e.Sound)
    (htarget : e'.target = e.target) (hcalls : e.Calls (base - e.layout.size.toInt) xs address v u)
    (hw : e'.Restores ((u.regs .sp).toInt - 8) u w) :
    ∃ r, (w.set .sp (w.regs .sp + 8)).run
        (clearCode (Int64.ofNat (xs.length - e.target.args.length) * e.target.stackArgSize)) = .ok r ∧
      e.Calling (base - e.layout.size.toInt) v r ∧ r.regs e.target.result = w.regs e.target.result := by
  have hsp : w.regs .sp = u.regs .sp := Int64.toInt_inj.1 (by rw [hw.sp]; omega)
  have hhigh : base - e.layout.size.toInt ≤ u.memory.size := by
    have := hsound.tidy.size
    have := h.room.high
    rw [hcalls.changes.size, h.stands.memory]
    omega
  obtain ⟨r, hrun, hrsp, hrc⟩ := hcalls.run_clear hsound.toPlaced hhigh hsp
  refine ⟨r, hrun, ⟨fun q hq => ?_, fun a ha => ?_, ?_⟩, hrc.regs _ (Reg.ne_sp hsound.target.result_general)⟩
  · rw [not_and_or, not_and_or, not_not, not_not, not_not] at hq
    rcases hq with hq | rfl | rfl
    · have hgeneral := hsound.target.allocatable_general q (hsound.target.saved_allocatable q hq)
      rw [hrc.regs q (Reg.ne_sp hgeneral), hw.kept q (htarget ▸ hq), hcalls.kept hsound.toPlaced hq]
    · rw [hrc.regs _ (by decide), hw.fp, hcalls.fp hsound.toPlaced]
    · exact Int64.toInt_inj.1 (hrsp.trans h.sp.symm)
  · have hge : ¬(a : Int) < base - e.layout.size.toInt := ha
    have := hcalls.sp
    rw [hrc.bytes a id, hw.above a (by omega), hcalls.changes.bytes a ha]
  · rw [hrc.size, hw.size, hcalls.changes.size]

theorem Homed.run_result (h : e.Homed base size) {p : Place} {d : Var} (hd : d ∈ e.function.vars) (hp : e.home d = .ok p)
    (hv : v.Stands base size) :
    ∃ w, v.run (e.moves [⟨p, .place (.reg e.target.result), d.width⟩]) = .ok w ∧
      w.held base d.width p = d.width.canonical (v.regs e.target.result) ∧
      Changes (fun r => r ∈ e.target.scratch ∨ p = .reg r) (p.Covers base d.width) v w := by
  have hne : p ≠ .reg e.target.result := by
    rintro rfl
    exact h.target.result_not_allocatable (h.home_not_scratch hd hp).1
  obtain ⟨w, hrun, hheld, hc⟩ := hv.run_code_reg (e.target.scratch.getD 1 ⟨0⟩) (Reg.usable h.target.result_general)
    (h.home_fits hd hp)
  refine ⟨w, ?_, hheld, hc.mono (fun _ => .inr) fun _ ha => ha⟩
  rw [moves, simultaneous_singleton, if_neg hne]
  rw [← hrun]
  cases p <;> rfl

variable {o : Origin} {a : Activation} {stored : List Nat} {memory memory' : Memory} {dest : Option Var} {callee : String}
  {args : List (Option Operand)} {rest : List IR.Instr}

namespace Tracks

theorem holds_of_calling (h : e.Tracks o a k stored memory v) (hsound : e.Sound)
    (hrest : a.rest = .call dest callee args :: rest) (hc : e.Calling (o.base - e.layout.size.toInt) v w) :
    e.Holds o.base a.env (fun u => e.function.LiveAt u a.block (k + 1) ∧ dest.map Var.id ≠ some u) w := by
  obtain ⟨hb, -⟩ := h.mem_blocks hsound
  have hi := (h.next hrest).1
  refine h.holds.of_changes hc (fun u _ hu => ?_) (fun u hu hul r hr hrs => ?_) fun u hu _ p hp x hx hlow => ?_
  · rw [Nat.max_eq_left (h.phis_le hsound hrest rfl)]
    exact .pass hi hu.2 hu.1
  · rcases hsound.home_cases hu hr with ⟨_, ⟨⟩, hloc, -⟩ | ⟨_, ⟨⟩, -⟩
    rcases hsound.allocation.call _ hb k dest callee args hi u.id hul.1 hul.2 with hspilled | ⟨q, hq, hloc'⟩
    · cases hloc.symm.trans hspilled
    · cases hloc.symm.trans hloc'
      exact hrs.1 hq
  · have := hsound.home_above h.framed.room hu hp hx
    have hlow : (x : Int) < o.base - e.layout.size.toInt := hlow
    omega

end Tracks

theorem Framed.of_calling (h : e.Framed base size start v) (hsound : e.Sound) (hc : e.Calling (base - e.layout.size.toInt) v w) :
    e.Framed base size start w := by
  have hroom := h.room.low
  have hframe := hsound.tidy.size
  refine h.of_changes hc (fun r hr => ⟨hr.2.1, hr.2.2, fun hsaved => absurd hsaved hr.1⟩) fun x hx => ?_
  have hx : (x : Int) < base - e.layout.size.toInt := hx
  refine ⟨by omega, fun r offset hat hcovers => ?_⟩
  have := (hsound.tidy.inside _ _ hat).1
  simp only [Place.Covers, cell] at hcovers
  omega

/-- The frame variables of a caller keep what is stored in them, since they lie above the stack of the callee. -/
theorem Mirrors.of_calling {slots : List Int64} {top : Int} {last : Int64} {stored : List Nat} {memory memory' : Memory}
    (h : e.Mirrors base slots stored memory v) (hsound : e.Sound) (hroom : e.Room base size) (hc : e.Calling (base - e.layout.size.toInt) v w)
    (hreserved : IR.Reserved e.function.slots top slots last)
    (hmemory : ∀ x : Nat, last.toInt - 8 ≤ x → memory'.get x = memory.get x) :
    e.Mirrors base slots stored memory' w := by
  have hkept : e.Mirrors base slots stored memory w := h.of_changes hsound hroom hc fun s offset hat x hlow _ hx => by
    have hx : (x : Int) < base - e.layout.size.toInt := hx
    have := (hsound.tidy.inside _ _ hat).1
    omega
  intro x hx
  obtain ⟨j, s, b, offset, hs, hb, hoffset, hlow, hhigh, hget⟩ := hkept x hx
  have := (hreserved.bounds j s b hs hb).2.1
  exact ⟨j, s, b, offset, hs, hb, hoffset, hlow, hhigh, hget.trans (hmemory x (by omega)).symm⟩

namespace Tracks

theorem returned (h : e.Tracks o a k stored memory v) (hsound : e.Sound)
    (hrest : a.rest = .call dest callee args :: rest) (hc : e.Calling (o.base - e.layout.size.toInt) v w)
    (hmemory : ∀ x : Nat, a.sp.toInt - 8 ≤ x → memory'.get x = memory.get x)
    (hresult : ∀ d, dest = some d → w.regs e.target.result = x)
    (hcode : e.resultCode dest = .ok code) :
    ∃ r, w.run code = .ok r ∧ e.Tracks o (({ a with rest } : Activation).receive dest x) (k + 1) stored memory' r := by
  obtain ⟨hb, -⟩ := h.mem_blocks hsound
  obtain ⟨hi, hrest'⟩ := h.next hrest
  have hroom := h.framed.room
  have hframed := h.framed.of_calling hsound hc
  have hmirrors := h.mirrors.of_calling hsound hroom hc h.reserved hmemory
  have hphis := h.phis_le hsound hrest rfl
  have hholds := h.holds_of_calling hsound hrest hc
  have huntouched : ∀ x : Nat, o.top ≤ x → memory'.get x = o.memory.get x := fun x hx => by
    have := h.reserved.last_le
    rw [hmemory x (by omega), h.untouched x hx]
  cases dest with
  | none =>
    cases hcode
    refine ⟨w, rfl, ?_⟩
    exact
      { framed := hframed
        function := h.function
        block := h.block
        inside := h.succ_lt hsound hrest rfl
        rest := hrest'
        typed := h.typed
        holds := fun u hu hul => hholds u hu ⟨by
          change e.function.LiveAt u.id a.block (max (k + 1) a.block.phis.length) at hul
          rwa [Nat.max_eq_left (by omega)] at hul, nofun⟩
        mirrors := hmirrors
        reserved := h.reserved
        depth := h.depth
        untouched := huntouched }
  | some d =>
    obtain ⟨p, hp, ⟨⟩⟩ := bind_eq_ok.1 hcode
    have hd : d ∈ e.function.vars := IR.Function.WellFormed.mem_vars_of_dest hb (mem_of_getElem? hi) rfl
    obtain ⟨r, hrun, hheld, hcr⟩ := (hsound.homed hroom).run_result hd hp hframed.stands
    rw [hresult d rfl] at hheld
    refine ⟨r, hrun, ?_⟩
    exact
      { framed := by
          refine hframed.of_changes hcr ?_ fun x hx => hsound.private_home hroom hd hp hx
          rintro q (hq | rfl)
          · exact hsound.free_scratch hq
          · exact hsound.free_home hd hp
        function := h.function
        block := h.block
        inside := h.succ_lt hsound hrest rfl
        rest := hrest'
        typed := h.typed.insert hd hsound.ready.wellFormed.nodup (Width.canonical_canonical _ x)
        holds := by
          refine hholds.assign hsound hroom hd hp hheld hcr fun u hu hne => ?_
          change e.function.LiveAt u a.block (max (k + 1) a.block.phis.length) at hu
          rw [Nat.max_eq_left (by omega)] at hu
          exact ⟨⟨hu, fun heq => hne (Option.some.inj heq).symm⟩, hsound.allocation.written _ hb k _ d hi rfl u hu hne⟩
        mirrors := hmirrors.of_changes hsound hroom hcr fun s offset hat x hlow hhigh =>
          hsound.not_covers_slot hroom hd hp hat hlow hhigh
        reserved := h.reserved
        depth := h.depth
        untouched := huntouched }

end Tracks

end Emission

end RegisterCompiler
