import RegisterCompiler.Proofs.Edges
import RegisterCompiler.Proofs.Linkage

/-!
# Arguments and parameters

A caller leaves the first arguments in registers and the others on the stack, where the callee finds them above its
frame. `Passed` is what the two agree on.
-/

namespace RegisterCompiler

open List
open IR (Activation Block BlockId Function Slot Var)
open Machine (View)
open Machine.View (Changes cell)
open Success

/-- Arguments are where a callee expects them: the first ones in registers, the others on the stack, below the return
    address. -/
structure Passed (d : Descriptor) (args : List Int64) (address : Int64) (v : View) : Prop where
  regs : ∀ (k : Nat) r x, d.args[k]? = some r → args[k]? = some x → v.regs r = x
  stacked : v.Stacked (address :: args.drop d.args.length)

namespace Passed

variable {d : Descriptor} {args : List Int64} {address : Int64} {v : View}

variable (h : Passed d args address v)
include h

theorem low : 0 ≤ (v.regs .sp).toInt := h.stacked.low

theorem bound : v.memory.size < 2 ^ 63 := h.stacked.bound

theorem high : (v.regs .sp).toInt + 8 + 8 * (args.length - d.args.length : Nat) ≤ v.memory.size := by
  have hhigh := h.stacked.high
  rw [length_cons, length_drop] at hhigh
  omega

theorem stack {k : Nat} {x : Int64} (hk : d.args.length ≤ k) (hx : args[k]? = some x) {wd : Width} (hwd : wd.isValid) :
    v.memory.value wd ((v.regs .sp).toInt + 8 + 8 * (k - d.args.length : Nat)).toNat = wd.canonical x := by
  have hdrop : (address :: args.drop d.args.length)[k - d.args.length + 1]? = some x := by
    rw [getElem?_cons_succ, getElem?_drop, Nat.add_sub_cancel' hk, hx]
  rw [← h.stacked.value _ x hdrop wd hwd]
  congr 2
  omega

theorem read_address {w : View} (hsp : w.regs .sp = v.regs .sp) (hsize : w.memory.size = v.memory.size)
    (hword : w.memory.value .w64 (v.regs .sp).toInt.toNat = v.memory.value .w64 (v.regs .sp).toInt.toNat) :
    w.read .w64 (w.regs .sp) = .ok address := by
  have hhigh := h.high
  have htop := h.stacked.value 0 address rfl .w64 Width.isValid_w64
  rw [Width.canonical_w64, Int.natCast_zero, Int.mul_zero, Int.add_zero] at htop
  rw [hsp, View.read_of_bounds Width.isValid_w64 (hsize ▸ h.bound) h.low
    (by rw [hsize, Width.size_w64]; omega), hword, htop]

end Passed

namespace Emission

variable {e : Emission} {k : Nat} {start v w : View} {args : List Int64} {wd : Width} {x address : Int64}

def argPlace (e : Emission) (k : Nat) : Place :=
  match e.target.args[k]? with
  | some r => .reg r
  | none => .frame (e.layout.argOffset (Int64.ofNat (k - e.target.args.length)))

theorem LaidOut.toInt_argOffset (h : e.LaidOut) (hk : 16 + 8 * k < 2 ^ 63) :
    (e.layout.argOffset (Int64.ofNat k)).toInt = 16 + 8 * k := by
  have hk63 : (Int64.ofNat k).toInt = k := toInt_ofNat_of_bounds (by omega)
  have hmul : (Int64.ofNat k * e.layout.argSize).toInt = k * 8 := by
    rw [toInt_mul_of_bounds] <;> rw [hk63, h.argSize, toInt_eight] <;> omega
  rw [Layout.argOffset, toInt_add_of_bounds] <;> rw [hmul, show (16 : Int64).toInt = 16 from rfl] <;> omega

section

variable (h : e.LaidOut) (hpassed : Passed e.target args address start)
include h hpassed

theorem LaidOut.argPlace_cases (hx : args[k]? = some x) :
    (∃ r, e.target.args[k]? = some r ∧ e.argPlace k = .reg r) ∨
      ∃ offset, e.target.args.length ≤ k ∧ e.argPlace k = .frame offset ∧
        offset.toInt = 16 + 8 * (k - e.target.args.length : Nat) := by
  cases hr : e.target.args[k]? with
  | some r => exact .inl ⟨r, rfl, by rw [argPlace, hr]⟩
  | none =>
    have hk : k < args.length := (List.getElem?_eq_some_iff.1 hx).1
    have := hpassed.low
    have := hpassed.high
    have := hpassed.bound
    exact .inr ⟨_, List.getElem?_eq_none_iff.1 hr, by rw [argPlace, hr], h.toInt_argOffset (by omega)⟩

theorem LaidOut.argPlace_fits (hx : args[k]? = some x) (hwd : wd.isValid) :
    (e.argPlace k).Fits ((start.regs .sp).toInt - 8) start.memory.size wd := by
  rcases h.argPlace_cases hpassed hx with ⟨r, hr, hplace⟩ | ⟨offset, hk, hplace, hoffset⟩
  · rw [hplace]
    exact Reg.usable (h.target.args_general r (mem_of_getElem? hr))
  · have hlt : k < args.length := (List.getElem?_eq_some_iff.1 hx).1
    have := hpassed.low
    have := hpassed.high
    have := Width.size_of_isValid hwd
    rw [hplace]
    exact ⟨hwd, by omega, by omega⟩

variable (hv : start.Entered v) (hx : args[k]? = some x) (hwd : wd.isValid)
include hv hx hwd

/-- An argument is found in its place: as it was given in a register, and cut to the width on the stack. -/
theorem LaidOut.held_argPlace :
    v.held ((start.regs .sp).toInt - 8) wd (e.argPlace k) = if (e.target.args[k]?).isSome then x else wd.canonical x := by
  rcases h.argPlace_cases hpassed hx with ⟨r, hr, hplace⟩ | ⟨offset, hk, hplace, hoffset⟩
  · rw [hplace, hr]
    exact (hv.regs r (h.target.args_general r (mem_of_getElem? hr))).trans (hpassed.regs k r x hr hx)
  · have := hpassed.low
    rw [hplace, getElem?_eq_none hk, Option.isSome_none, if_neg Bool.false_ne_true, ← hpassed.stack hk hx hwd]
    refine Memory.value_congr fun j _ => ?_
    rw [hv.above _ (by simp only [cell]; omega)]
    congr 1
    simp only [cell]
    omega

theorem LaidOut.value_argPlace : v.value ((start.regs .sp).toInt - 8) wd (.place (e.argPlace k)) = wd.canonical x := by
  rw [View.value, h.held_argPlace hpassed hv hx hwd]
  split
  · rfl
  · exact Width.canonical_canonical wd x

end

/-! ## Parameters -/

def BringsParam (e : Emission) (x : Var × Nat) (m : Move) : Prop :=
  e.home x.1 = .ok m.dest ∧ m.source = .place (e.argPlace x.2) ∧ m.width = x.1.width

theorem forall₂_paramMoves {ms : List Move} (h : e.paramMoves = .ok ms) :
    List.Forall₂ e.BringsParam e.function.params.zipIdx ms := by
  refine (mapM_eq_ok.1 h).imp fun x m hm => ?_
  obtain ⟨p, hp, ⟨⟩⟩ := bind_eq_ok.1 hm
  refine ⟨hp, ?_, rfl⟩
  unfold argPlace
  cases e.target.args[x.2]? <;> rfl

/-- The homes of variables in the frame lie below the frame pointer. -/
def Below (e : Emission) : Prop :=
  ∀ u ∈ e.function.vars, ∀ offset, e.home u = .ok (.frame offset) → offset.toInt + u.width.size ≤ 0

theorem Sound.below (h : e.Sound) : e.Below := by
  intro u hu offset hhome
  rcases h.home_cases hu hhome with ⟨_, ⟨⟩, -⟩ | ⟨_, ⟨⟩, hat⟩
  exact (h.tidy.inside _ _ hat).2

/-- The parameters are in their homes, each with its argument. -/
def Collects (e : Emission) (base : Int) (args : List Int64) (v : View) : Prop :=
  ∀ (k : Nat) p x, e.function.params[k]? = some p → args[k]? = some x → ∀ q, e.home p = .ok q → v.held base p.width q = x

section

variable (h : e.LaidOut) (hhomed : e.Homed ((start.regs .sp).toInt - 8) start.memory.size) (hbelow : e.Below)
  (hpassed : Passed e.target args address start) (hlength : e.function.params.length = args.length) {ms : List Move}
  (hms : e.paramMoves = .ok ms)
include h hhomed hbelow hpassed hlength hms

theorem LaidOut.moving_params : e.Moving ((start.regs .sp).toInt - 8) start.memory.size ms := by
  have hparams : ∀ p ∈ e.function.params, p ∈ e.function.vars := fun p hp => mem_append_left _ hp
  have hmove : ∀ m ∈ ms, ∃ p k x, p ∈ e.function.vars ∧ args[k]? = some x ∧ e.BringsParam (p, k) m := by
    intro m hm
    obtain ⟨⟨p, k⟩, hmem, hbrings⟩ := exists_of_mem_right (forall₂_paramMoves hms) hm
    have hget := mem_zipIdx_iff_getElem?.1 hmem
    have hlt : k < args.length := hlength ▸ (List.getElem?_eq_some_iff.1 hget).1
    exact ⟨p, k, args[k], hparams p (mem_of_getElem? hget), getElem?_eq_getElem hlt, hbrings⟩
  refine
    { dest := fun m hm => ?_, source := fun m hm => ?_, dest_free := fun m hm => ?_,
      source_free := fun m hm r hr => ?_, dests := ?_, sources := fun m hm m' hm' p hp => ?_, scratch := ?_ }
  · obtain ⟨p, k, x, hp, -, hhome, -, hwidth⟩ := hmove m hm
    exact hwidth ▸ hhomed.home_fits hp hhome
  · obtain ⟨p, k, x, hp, hx, -, hsource, hwidth⟩ := hmove m hm
    rw [hsource, hwidth]
    exact h.argPlace_fits hpassed hx (h.width hp)
  · obtain ⟨p, k, x, hp, -, hhome, -⟩ := hmove m hm
    exact h.home_ne_scratch hp hhome
  · obtain ⟨p, k, x, -, hx, -, hsource, -⟩ := hmove m hm
    rw [hsource] at hr
    rcases h.argPlace_cases hpassed hx with ⟨q, hq, hplace⟩ | ⟨_, -, hplace, -⟩
    · rw [hplace] at hr
      cases hr
      exact h.target.args_not_scratch r (mem_of_getElem? hq)
    · rw [hplace] at hr
      cases hr
  · have hne : e.function.params.Pairwise fun p q => p.id ≠ q.id := pairwise_map.1
      (h.ready.wellFormed.nodup.sublist ((sublist_append_left _ _).map Var.id))
    have hpairs : (e.function.params.zipIdx.map Prod.fst).Pairwise fun p q => p.id ≠ q.id ∧ e.allocation.Apart p.id q.id := by
      rw [zipIdx_map_fst]
      exact hne.and h.allocation.params
    refine pairwise_of_forall₂ (forall₂_paramMoves hms) (pairwise_map.1 hpairs) ?_
    rintro ⟨p, j⟩ hx ⟨q, k⟩ hy m m' ⟨hhome, -, hwidth⟩ ⟨hhome', -, hwidth'⟩ ⟨hne, hapart⟩
    have hp := hparams p (mem_of_getElem? (mem_zipIdx_iff_getElem?.1 hx))
    have hq := hparams q (mem_of_getElem? (mem_zipIdx_iff_getElem?.1 hy))
    rw [hwidth, hwidth']
    exact hhomed.home_disjoint hp hq hne hapart hhome hhome'
  · obtain ⟨q, k, x, -, hx, -, hsource, -⟩ := hmove m hm
    obtain ⟨q', _, _, hq', -, hhome, -, hwidth'⟩ := hmove m' hm'
    cases hsource.symm.trans hp
    -- An argument on the stack is above the frame pointer, and homes lie below it.
    rcases h.argPlace_cases hpassed hx with ⟨r, hr, hplace⟩ | ⟨offset, -, hplace, hoffset⟩
    · rw [hplace]
      cases hdest : m'.dest with
      | reg s =>
        by_cases hrs : r = s
        · exact .inl (congrArg Place.reg hrs)
        · exact .inr hrs
      | frame _ => exact .inr trivial
    · rw [hplace]
      cases hdest : m'.dest with
      | reg s => exact .inr trivial
      | frame offset' =>
        have := hbelow q' hq' offset' (hdest ▸ hhome)
        rw [hwidth']
        refine .inr (.inr ?_)
        dsimp only
        omega
  · exact (@Ready.paramMoves e [] True h.ready).of_eq hms

/-- After the moves of the parameters each is in its home, and nothing else has changed. A parameter has the value of its
    argument at its width. Only one whose home is where the argument is found has the argument as it was given. -/
theorem LaidOut.run_params_of_length (hv : start.Entered v) :
    ∃ w, v.run (e.moves ms) = .ok w ∧
      (∀ (k : Nat) p x, e.function.params[k]? = some p → args[k]? = some x → ∀ q, e.home p = .ok q →
        w.held ((start.regs .sp).toInt - 8) p.width q = if q = e.argPlace k then x else p.width.canonical x) ∧
      Changes (fun r => r ∈ e.target.scratch ∨ ∃ p ∈ e.function.params, e.home p = .ok (.reg r))
        (fun a => ∃ p ∈ e.function.params, ∃ q, e.home p = .ok q ∧ q.Covers ((start.regs .sp).toInt - 8) p.width a) v w := by
  have hmoves := forall₂_paramMoves hms
  obtain ⟨w, hrun, hheld, hc⟩ := h.run_outcomes (h.moving_params hhomed hbelow hpassed hlength hms) hv.stands
  refine ⟨w, hrun, fun k p x hp hx q hq => ?_, hc.mono ?_ ?_⟩
  · obtain ⟨m, hm, hhome, hsource, hwidth⟩ :=
      exists_of_mem_left hmoves (mem_zipIdx_iff_getElem?.2 hp : (p, k) ∈ e.function.params.zipIdx)
    cases hhome.symm.trans hq
    have hvar : p ∈ e.function.vars := mem_append_left _ (mem_of_getElem? hp)
    have hid : m.isIdentity = true ↔ m.dest = e.argPlace k := by
      rw [Move.isIdentity, decide_eq_true_eq, hsource, Source.place.injEq, eq_comm]
    have houtcome := hheld m hm
    rw [Move.outcome, hwidth, hsource] at houtcome
    rw [houtcome]
    by_cases hstays : m.dest = e.argPlace k
    · rw [if_pos (hid.2 hstays), if_pos hstays, hstays, h.held_argPlace hpassed hv hx (h.width hvar)]
      -- An argument on the stack is above the frame pointer, and homes lie below it.
      rcases h.argPlace_cases hpassed hx with ⟨r, hr, -⟩ | ⟨offset, -, hplace, hoffset⟩
      · rw [hr, Option.isSome_some, if_pos rfl]
      · have := hbelow p hvar offset (by rw [hhome, hstays, hplace])
        omega
    · rw [if_neg (mt hid.1 hstays), if_neg hstays, h.value_argPlace hpassed hv hx (h.width hvar)]
  · rintro r (hr | ⟨m, hm, hmr⟩)
    · exact .inl hr
    · obtain ⟨⟨q, k⟩, hmem, hhome, -⟩ := exists_of_mem_right hmoves hm
      exact .inr ⟨q, mem_of_getElem? (mem_zipIdx_iff_getElem?.1 hmem), hmr ▸ hhome⟩
  · rintro a ⟨m, hm, hcovers⟩
    obtain ⟨⟨q, k⟩, hmem, hhome, -, hwidth⟩ := exists_of_mem_right hmoves hm
    exact ⟨q, mem_of_getElem? (mem_zipIdx_iff_getElem?.1 hmem), _, hhome, hwidth ▸ hcovers⟩

end

/-- After the moves of the parameters each has its argument, if those are values of their widths, and the frame is as it
    was. -/
theorem Framed.run_params (h : e.Framed ((start.regs .sp).toInt - 8) start.memory.size start v) (hsound : e.Sound)
    (hv : start.Entered v) (hpassed : Passed e.target args address start)
    (hargs : List.Forall₂ (fun p x => p.width.IsCanonical x) e.function.params args) {ms : List Move}
    (hms : e.paramMoves = .ok ms) :
    ∃ w, v.run (e.moves ms) = .ok w ∧ e.Framed ((start.regs .sp).toInt - 8) start.memory.size start w ∧
      e.Collects ((start.regs .sp).toInt - 8) args w := by
  obtain ⟨w, hrun, hheld, hc⟩ :=
    hsound.run_params_of_length (hsound.homed h.room) hsound.below hpassed hargs.length_eq hms hv
  refine ⟨w, hrun, h.of_changes hc ?_ ?_, fun k p x hp hx q hq => ?_⟩
  · rintro r (hr | ⟨p, hp, hhome⟩)
    · exact hsound.free_scratch hr
    · exact hsound.free_home (mem_append_left _ hp) hhome
  · rintro a ⟨p, hp, q, hhome, hcovers⟩
    exact hsound.private_home h.room (mem_append_left _ hp) hhome hcovers
  · have hcanonical : p.width.IsCanonical x :=
      forall₂_zip hargs (mem_iff_getElem?.2 ⟨k, getElem?_zip_eq_some.2 ⟨hp, hx⟩⟩)
    rw [hheld k p x hp hx q hq, hcanonical, ite_self]

end Emission

/-! ## The beginning of an activation -/

namespace IR

variable {f : Function} {args : List Int64}

theorem getElem?_bindParams_of_getElem? (hf : f.WellFormed) (hlength : f.params.length = args.length) {k : Nat} {p : Var}
    {x : Int64} (hp : f.params[k]? = some p) (hx : args[k]? = some x) :
    (bindParams f.params args)[p.id]? = some (p.width.canonical x) := by
  have hkeys : (f.params.zip args).map (fun y => y.1.id) = f.params.map Var.id := by
    rw [← map_fst_zip (Nat.le_of_eq hlength), map_map]
    rw [map_fst_zip (Nat.le_of_eq hlength)]
    rfl
  have hnodup : (f.params.map Var.id).Nodup := hf.nodup.sublist ((sublist_append_left _ _).map Var.id)
  have hmem : (p, x) ∈ f.params.zip args := mem_iff_getElem?.2 ⟨k, getElem?_zip_eq_some.2 ⟨hp, hx⟩⟩
  exact getElem?_foldl_insert_of_mem (fun y : Var × Int64 => y.1.id) (fun y => y.1.width.canonical y.2)
    (hkeys ▸ hnodup) hmem ∅

theorem getElem?_bindParams (hf : f.WellFormed) (hargs : List.Forall₂ (fun p x => p.width.IsCanonical x) f.params args)
    {u : Var} (hu : u ∈ f.vars) {x : Int64} (hx : (bindParams f.params args)[u.id]? = some x) :
    ∃ k : Nat, f.params[k]? = some u ∧ args[k]? = some x := by
  by_cases hmem : u.id ∈ (f.params.zip args).map fun y => y.1.id
  · obtain ⟨⟨p, y⟩, hy, hid⟩ := mem_map.1 hmem
    have hp : p ∈ f.params := (of_mem_zip hy).1
    cases inj_on_of_nodup_map hf.nodup (mem_append_left _ hp) hu hid
    obtain ⟨k, hk⟩ := mem_iff_getElem?.1 hy
    obtain ⟨hkp, hky⟩ := getElem?_zip_eq_some.1 hk
    have hcanonical : u.width.IsCanonical y := forall₂_zip hargs hy
    rw [getElem?_bindParams_of_getElem? hf hargs.length_eq hkp hky, Option.some.injEq, hcanonical] at hx
    exact ⟨k, hkp, hx ▸ hky⟩
  · have hnone : (bindParams f.params args)[u.id]? = (∅ : Env)[u.id]? :=
      getElem?_foldl_insert_of_notMem (fun y : Var × Int64 => y.1.id) (fun y => y.1.width.canonical y.2) hmem ∅
    rw [hnone, Std.ExtTreeMap.getElem?_empty] at hx
    cases hx

theorem Function.WellFormed.phiMoves_start (hf : f.WellFormed) {b : Block} (hb : f.block? f.entry = some b) (pred : BlockId) :
    b.phiMoves pred = [] := by
  obtain ⟨hb, hid⟩ := hf.block?_eq_some_iff.1 hb
  refine eq_nil_iff_forall_not_mem.2 fun m hm => ?_
  obtain ⟨edges, hphi, hedge⟩ := Block.mem_phiMoves.1 hm
  have hfits : f.PhiFits b m.dest edges := hf.fits b hb _ (takeWhile_subset _ hphi)
  have hpred := (hfits.mem_iff pred).1 (mem_map.2 ⟨_, hedge, rfl⟩)
  rw [(hf.entered b hb).2 hid] at hpred
  cases hpred

theorem Module.enter_eq_ok {m : Module} {maxDepth : Int} {depth : Nat} {sp : Int64} {name : String} {a : Activation}
    (hfunction : m.function? name = some f) (hf : f.WellFormed) (h : m.enter maxDepth depth sp name args = .ok a) :
    ∃ b slots last, f.block? f.entry = some b ∧ reserve name (sp - 8) f.slots = .ok (slots, last) ∧
      a = ⟨f, bindParams f.params args, slots, last, f.entry, b, b.code⟩ := by
  unfold Module.enter at h
  rw [hfunction] at h
  dsimp only at h
  split at h
  · cases h
  split at h
  · cases h
  obtain ⟨⟨slots, last⟩, hreserve, hgo⟩ := bind_eq_ok.1 h
  obtain ⟨b, hb⟩ := Option.isSome_iff_exists.1 hf.entry
  refine ⟨b, slots, last, hb, hreserve, ?_⟩
  rw [Activation.goTo] at hgo
  dsimp only at hgo
  rw [hb] at hgo
  dsimp only at hgo
  rw [hf.phiMoves_start hb] at hgo
  exact (Except.ok.inj hgo).symm

end IR

namespace Emission

variable {e : Emission} {v : View} {args : List Int64}

theorem Sound.toInt_slot_size (h : e.Sound) {s : Slot} (hs : s ∈ e.function.slots) :
    s.size.toInt = s.extent ∧ (s.extent : Int) ≤ e.layout.size.toInt := by
  obtain ⟨k, hk⟩ := getElem?_of_mem hs
  have hlt : k < e.function.slots.length := (List.getElem?_eq_some_iff.1 hk).1
  obtain ⟨offset, hoffset⟩ := h.ready.slot k ⟨Int.natCast_nonneg k, by exact_mod_cast hlt⟩
  obtain ⟨s', hs', hat⟩ := h.slotAt k offset hoffset
  cases hk.symm.trans hs'
  have hinside := h.tidy.inside _ _ hat
  rw [show (AreaUse.slot s).extent = s.extent from rfl] at hinside
  obtain ⟨-, hcount, -⟩ := h.ready.wellFormed.slot k s hk
  have := e.layout.size.toInt_lt
  exact ⟨s.toInt_size hcount (by omega), by omega⟩

/-- A function that finds its arguments gets to its first block, unless there is no room for its frame. -/
theorem Sound.enter (h : e.Sound) {m : IR.Module} {maxDepth : Int} {depth : Nat} {sp : Int64} {name : String}
    {a : Activation} {address : Int64} (memory : Memory) (hfunction : m.function? name = some e.function)
    (henter : m.enter maxDepth depth sp name args = .ok a)
    (hargs : List.Forall₂ (fun p x => p.width.IsCanonical x) e.function.params args) (hpassed : Passed e.target args address v)
    (hdepth : 8 ≤ 2 * sp.toInt + (v.memory.size - (v.regs .sp).toInt)) {ms : List Move} (hms : e.paramMoves = .ok ms) :
    v.run (e.layout.prologue ++ e.moves ms) = .error .stackOverflow ∨
      ∃ w, v.run (e.layout.prologue ++ e.moves ms) = .ok w ∧ a.blockId = e.function.entry ∧
        e.Tracks ⟨(v.regs .sp).toInt - 8, v.memory.size, v, sp.toInt - 8, memory⟩ a 0 [] memory w := by
  have hwell := h.ready.wellFormed
  have hlow := hpassed.low
  have hhigh := hpassed.high
  have hbound := hpassed.bound
  rcases h.run_prologue hlow (by omega) hbound with hoverflow | ⟨u, hrun, hframed, hentered⟩
  · left
    rw [View.run_append, hoverflow]
    rfl
  obtain ⟨w, hmoves, hframed, hheld⟩ := hframed.run_params h hentered hpassed hargs hms
  obtain ⟨b, slots, last, hb, hreserve, rfl⟩ := IR.Module.enter_eq_ok hfunction hwell henter
  have hroom := hframed.room.low
  have hsp : (sp - 8).toInt = sp.toInt - 8 := by
    have := sp.toInt_lt
    rw [toInt_sub_of_bounds] <;> rw [toInt_eight] <;> omega
  have hreserved : IR.Reserved e.function.slots (sp.toInt - 8) slots last := by
    rw [← hsp]
    refine IR.reserve_eq_ok hreserve fun s hs => ?_
    have := h.toInt_slot_size hs
    exact ⟨this.1, by omega⟩
  refine .inr ⟨w, ?_, rfl, ?_⟩
  · rw [View.run_append, hrun]
    exact hmoves
  · exact
      { framed := hframed
        function := rfl
        block := hb
        inside := by
          obtain ⟨phis, body, last, hshape⟩ := hwell.shape b (hwell.block?_eq_some_iff.1 hb).1
          rw [hshape.length_code]
          omega
        rest := rfl
        typed := by
          intro u hu x hx
          obtain ⟨k, hk, hkx⟩ := IR.getElem?_bindParams hwell hargs hu hx
          exact forall₂_zip hargs (mem_iff_getElem?.2 ⟨k, getElem?_zip_eq_some.2 ⟨hk, hkx⟩⟩)
        holds := by
          intro u hu _ x hx p hp
          obtain ⟨k, hk, hkx⟩ := IR.getElem?_bindParams hwell hargs hu hx
          exact hheld k u x hk hkx p hp
        mirrors := nofun
        reserved := hreserved
        depth := by
          dsimp only
          rcases hreserved.low with hlast | hlast <;> omega
        untouched := fun _ _ => rfl }

end Emission

end RegisterCompiler
