import RegisterCompiler.Interpreter.Run
import RegisterCompiler.Proofs.Homes

/-!
# An activation in the machine

What the machine has of a function that is being executed. Its frame is built, and what it must give back to its caller
is where it was left (`Emission.Framed`); the variables that are still needed have their values in their homes
(`Emission.Holds`); and the bytes that it has stored in its frame variables are in the frame (`Emission.Mirrors`).

Code changes some registers and some bytes, and each of the three is kept by changes that stay away from what it talks
about. The laws here say so, and with what is assigned or stored.
-/

namespace RegisterCompiler

open IR (Slot Var VarId)
open Machine (View)
open Machine.View (Changes cell)

namespace Emission

/-- The frame of a function is built that was entered at `start`, and nothing is lost that its caller needs. -/
structure Framed (e : Emission) (base : Int) (size : Nat) (start v : View) : Prop where
  room : e.Room base size
  stands : v.Stands base size
  sp : (v.regs .sp).toInt = base - e.layout.size.toInt
  link : v.memory.value .w64 base.toNat = start.regs .fp
  above : ∀ a : Nat, base + 8 ≤ a → v.memory.get a = start.memory.get a
  saved : ∀ r ∈ e.layout.saved, ∀ offset, e.layout.saveOffset? r = some offset →
    v.memory.value .w64 (cell base offset) = start.regs r
  kept : ∀ r ∈ e.target.calleeSaved, r ∉ e.layout.saved → v.regs r = start.regs r

/-- The variables of `live` that have a value have it in their homes. -/
def Holds (e : Emission) (base : Int) (env : IR.Env) (live : VarId → Prop) (v : View) : Prop :=
  ∀ u ∈ e.function.vars, live u.id → ∀ x, env[u.id]? = some x → ∀ p, e.home u = .ok p → v.held base u.width p = x

/-- The values of variables have the form of their widths. -/
def Typed (e : Emission) (env : IR.Env) : Prop :=
  ∀ u ∈ e.function.vars, ∀ x, env[u.id]? = some x → u.width.IsCanonical x

/-- The bytes at the addresses `stored`, which lie in the frame variables at `slots`, are in the frame. -/
def Mirrors (e : Emission) (base : Int) (slots : List Int64) (stored : List Nat) (memory : Memory) (v : View) : Prop :=
  ∀ x ∈ stored, ∃ (k : Nat) (s : Slot) (b offset : Int64),
    e.function.slots[k]? = some s ∧ slots[k]? = some b ∧ e.layout.slotOffset? k = some offset ∧
      b.toInt ≤ x ∧ x < b.toInt + s.extent ∧
      v.memory.get (base + offset.toInt + (x - b.toInt)).toNat = memory.get x

/-- A register that a function may change. -/
def Free (e : Emission) (r : Reg) : Prop := r ≠ .fp ∧ r ≠ .sp ∧ (r ∈ e.target.calleeSaved → r ∈ e.layout.saved)

/-- A byte that a function may change: one below its frame pointer in which no register is saved. -/
def Private (e : Emission) (base : Int) (a : Nat) : Prop :=
  a < base ∧ ∀ r offset, e.layout.At (.save r) offset → ¬(Place.frame offset).Covers base .w64 a

variable {e : Emission} {base : Int} {size : Nat} {start v w : View} {rs : Reg → Prop} {bytes : Nat → Prop} {u d : Var}
  {p q : Place} {r : Reg} {env : IR.Env} {live live' : VarId → Prop} {x : Int64} {s : Slot}

theorem free_of_general (hr : r.num < 16) (hsaved : r ∈ e.target.calleeSaved → r ∈ e.layout.saved) : e.Free r :=
  ⟨Reg.ne_fp hr, Reg.ne_sp hr, hsaved⟩

namespace Sound

variable {a : Nat}

theorem free_home (h : e.Sound) (hu : u ∈ e.function.vars) (hp : e.home u = .ok (.reg r)) : e.Free r := by
  rcases h.home_cases hu hp with ⟨_, ⟨⟩, hloc, hr⟩ | ⟨_, ⟨⟩, -⟩
  exact free_of_general (h.target.allocatable_general r hr) (h.kept u hu r hloc)

theorem free_scratch (h : e.Sound) (hr : r ∈ e.target.scratch) : e.Free r :=
  free_of_general (h.target.scratch_general r hr) fun hs =>
    absurd hr (h.target.allocatable_not_scratch r (h.target.saved_allocatable r hs))

theorem free_result (h : e.Sound) : e.Free e.target.result :=
  free_of_general h.target.result_general fun hs =>
    absurd (h.target.saved_allocatable _ hs) h.target.result_not_allocatable

theorem private_of_at (h : e.Sound) (hroom : e.Room base size) {u : AreaUse} {offset : Int64}
    (hat : e.layout.At u offset) (hu : ∀ r, u ≠ .save r) (hlow : base + offset.toInt ≤ a)
    (hhigh : a < base + offset.toInt + u.extent) : e.Private base a := by
  have hinside := h.tidy.inside _ _ hat
  refine ⟨by omega, fun r offset' hat' hcovers => ?_⟩
  have hdisjoint := h.tidy.disjoint _ _ _ _ hat hat' (hu r)
  have hinside' := h.tidy.inside _ _ hat'
  have := hroom.low
  simp only [Place.Covers, cell, Width.size_w64] at hcovers
  rw [show (AreaUse.save r).extent = 8 from rfl] at hdisjoint hinside'
  omega

variable (h : e.Sound) (hroom : e.Room base size) (hu : u ∈ e.function.vars) (hp : e.home u = .ok p)
  (ha : p.Covers base u.width a)
include h hroom hu hp ha

theorem private_home : e.Private base a := by
  rcases h.home_cases hu hp with ⟨_, rfl, -⟩ | ⟨offset, rfl, hat⟩
  · exact absurd ha id
  · have := (h.tidy.inside _ _ hat).1
    have := hroom.low
    simp only [Place.Covers, cell] at ha
    refine h.private_of_at hroom hat (fun _ => AreaUse.noConfusion) ?_ ?_
    · omega
    · simp only [AreaUse.extent]
      omega

theorem home_above : base - e.layout.size.toInt ≤ a := by
  rcases h.home_cases hu hp with ⟨_, rfl, -⟩ | ⟨offset, rfl, hat⟩
  · exact absurd ha id
  · have := (h.tidy.inside _ _ hat).1
    have := hroom.low
    simp only [Place.Covers, cell] at ha
    omega

end Sound

/-! ## The frame -/

/-- A frame stays as it is when code changes what it may change. -/
theorem Framed.of_changes (h : e.Framed base size start v) (hc : Changes rs bytes v w) (hrs : ∀ r, rs r → e.Free r)
    (hbytes : ∀ a, bytes a → e.Private base a) : e.Framed base size start w where
  room := h.room
  stands := h.stands.of_changes hc fun hfp => (hrs _ hfp).1 rfl
  sp := by rw [hc.regs _ fun hsp => (hrs _ hsp).2.1 rfl, h.sp]
  link := by
    rw [← h.link]
    refine Memory.value_congr fun k _ => hc.bytes _ fun ha => ?_
    have := (hbytes _ ha).1
    omega
  above a ha := by
    rw [← h.above a ha]
    refine hc.bytes a fun hb => ?_
    have := (hbytes a hb).1
    omega
  saved r hr offset hoffset := by
    rw [← h.saved r hr offset hoffset]
    refine Memory.value_congr fun k hk => hc.bytes _ fun ha => ?_
    exact (hbytes _ ha).2 r offset (Layout.at_of_saveOffset? hoffset) ⟨Nat.le_add_right _ _, Nat.add_lt_add_left hk _⟩
  kept r hr hr' := by
    rw [← h.kept r hr hr']
    exact hc.regs r fun hrr => hr' ((hrs r hrr).2.2 hr)

/-! ## Variables -/

theorem Holds.of_changes (h : e.Holds base env live v) (hc : Changes rs bytes v w)
    (hlive : ∀ u ∈ e.function.vars, live' u.id → live u.id)
    (hrs : ∀ u ∈ e.function.vars, live' u.id → ∀ r, e.home u = .ok (.reg r) → ¬rs r)
    (hbytes : ∀ u ∈ e.function.vars, live' u.id → ∀ p, e.home u = .ok p → ∀ a, p.Covers base u.width a → ¬bytes a) :
    e.Holds base env live' w := by
  intro u hu hul x hx p hp
  rw [← h u hu (hlive u hu hul) x hx p hp]
  exact hc.held_eq (fun r hr => hrs u hu hul r (hr ▸ hp)) (hbytes u hu hul p hp)

theorem Typed.insert (h : e.Typed env) (hd : d ∈ e.function.vars) (hnodup : (e.function.vars.map Var.id).Nodup)
    (hx : d.width.IsCanonical x) : e.Typed (env.insert d.id x) := by
  intro u hu y hy
  rw [Std.ExtTreeMap.getElem?_insert] at hy
  split at hy
  · next hid =>
    have hid : d.id = u.id := by simpa using hid
    cases hy
    rwa [List.inj_on_of_nodup_map hnodup hu hd hid.symm]
  · exact h u hu y hy

/-- After an assignment the variable has its value, and those keep theirs that are apart from it. -/
theorem Holds.assign (hsound : e.Sound) (hroom : e.Room base size) (h : e.Holds base env live v)
    (hd : d ∈ e.function.vars) (hp : e.home d = .ok p) (hx : w.held base d.width p = x)
    (hc : Changes (fun r => r ∈ e.target.scratch ∨ p = .reg r) (p.Covers base d.width) v w)
    (hlive : ∀ u, live' u → u ≠ d.id → live u ∧ e.allocation.Apart u d.id) :
    e.Holds base (env.insert d.id x) live' w := by
  intro u hu hul y hy q hq
  rw [Std.ExtTreeMap.getElem?_insert] at hy
  by_cases hid : u.id = d.id
  · rw [if_pos (by simp [hid])] at hy
    cases hy
    cases List.inj_on_of_nodup_map hsound.ready.wellFormed.nodup hu hd hid
    cases hp.symm.trans hq
    exact hx
  · rw [if_neg (by simpa using Ne.symm hid)] at hy
    obtain ⟨hul, hapart⟩ := hlive u.id hul hid
    have hhomed := hsound.homed hroom
    have hdisj := hhomed.home_disjoint hu hd hid hapart hq hp
    rw [← h u hu hul y hy q hq]
    refine hc.held_eq ?_ fun a ha => hdisj.not_covers (hhomed.home_fits hu hq) (hhomed.home_fits hd hp) ha
    rintro r rfl (hr | hr)
    · exact hsound.home_ne_scratch hu hq r rfl hr
    · rw [hr] at hdisj
      exact hdisj rfl

/-! ## Frame variables -/

variable {slots : List Int64} {stored : List Nat} {memory : Memory}

theorem Mirrors.of_changes (h : e.Mirrors base slots stored memory v) (hsound : e.Sound) (hroom : e.Room base size)
    (hc : Changes rs bytes v w)
    (hbytes : ∀ (s : Slot) offset, e.layout.At (.slot s) offset →
      ∀ a : Nat, base + offset.toInt ≤ a → a < base + offset.toInt + s.extent → ¬bytes a) :
    e.Mirrors base slots stored memory w := by
  intro x hx
  obtain ⟨k, s, b, offset, hs, hb, hoffset, hlow, hhigh, hget⟩ := h x hx
  refine ⟨k, s, b, offset, hs, hb, hoffset, hlow, hhigh, ?_⟩
  rw [← hget]
  obtain ⟨s', hs', hat⟩ := hsound.slotAt k offset hoffset
  cases hs.symm.trans hs'
  have := (hsound.tidy.inside _ _ hat).1
  have := hroom.low
  exact hc.bytes _ (hbytes s offset hat _ (by omega) (by omega))

theorem Sound.not_covers_slot (h : e.Sound) (hroom : e.Room base size) (hu : u ∈ e.function.vars)
    (hp : e.home u = .ok p) {offset : Int64} (hat : e.layout.At (.slot s) offset) {a : Nat}
    (hlow : base + offset.toInt ≤ a) (hhigh : a < base + offset.toInt + s.extent) : ¬p.Covers base u.width a := by
  rcases h.home_cases hu hp with ⟨_, rfl, -⟩ | ⟨offset', rfl, hat'⟩
  · exact id
  · have hdisjoint := h.tidy.disjoint _ _ _ _ hat hat' nofun
    have := (h.tidy.inside _ _ hat').1
    have := hroom.low
    rw [show (AreaUse.slot s).extent = s.extent from rfl, show (AreaUse.spill u).extent = u.width.size from rfl]
      at hdisjoint
    simp only [Place.Covers, cell]
    omega

theorem Mirrors.store (h : e.Mirrors base slots stored memory v) (hsound : e.Sound) (hroom : e.Room base size)
    {k n : Nat} {b offset : Int64} {address : Nat} {x : UInt64} (hs : e.function.slots[k]? = some s)
    (hb : slots[k]? = some b) (hoffset : e.layout.slotOffset? k = some offset) (hlow : b.toInt ≤ address)
    (hhigh : (address : Int) + n ≤ b.toInt + s.extent)
    (hw : ∀ a, w.memory.get a = (v.memory.store (base + offset.toInt + (address - b.toInt)).toNat x n).get a) :
    e.Mirrors base slots ((List.range n).map (address + ·) ++ stored) (memory.store address x n) w := by
  obtain ⟨s', hs', hat⟩ := hsound.slotAt k offset hoffset
  cases hs.symm.trans hs'
  have hinside := (hsound.tidy.inside _ _ hat).1
  have hroomLow := hroom.low
  intro y hy
  by_cases hin : address ≤ y ∧ y < address + n
  · refine ⟨k, s, b, offset, hs, hb, hoffset, by omega, by omega, ?_⟩
    obtain ⟨j, hj, rfl⟩ : ∃ j, j < n ∧ y = address + j := ⟨y - address, by omega, by omega⟩
    have hplace : (base + offset.toInt + ((address + j : Nat) - b.toInt)).toNat =
        (base + offset.toInt + (address - b.toInt)).toNat + j := by omega
    rw [hw, hplace, ← UInt8.toNat_inj, Memory.toNat_get_store _ hj, Memory.toNat_get_store _ hj]
  · have hy : y ∈ stored := by
      rcases List.mem_append.1 hy with hy | hy
      · obtain ⟨j, hj, rfl⟩ := List.mem_map.1 hy
        have := List.mem_range.1 hj
        omega
      · exact hy
    obtain ⟨k', s', b', offset', hs', hb', hoffset', hlow', hhigh', hget⟩ := h y hy
    refine ⟨k', s', b', offset', hs', hb', hoffset', hlow', hhigh', ?_⟩
    obtain ⟨s'', hs'', hat'⟩ := hsound.slotAt k' offset' hoffset'
    cases hs'.symm.trans hs''
    have hinside' := (hsound.tidy.inside _ _ hat').1
    rw [Memory.get_store_of_outside _ (by omega), ← hget, hw, Memory.get_store_of_outside]
    -- Within one frame variable bytes are as far apart in the frame as they are in the memory of the interpreter.
    by_cases hk : k = k'
    · subst hk
      cases hb.symm.trans hb'
      cases hoffset.symm.trans hoffset'
      omega
    · have hne : AreaUse.slot s ≠ .slot s' := by
        intro heq
        have hid := (hsound.ready.wellFormed.slot k s hs).1
        have hid' := (hsound.ready.wellFormed.slot k' s' hs').1
        rw [AreaUse.slot.inj heq, hid'] at hid
        exact hk (by exact_mod_cast hid.symm)
      have hdisjoint := hsound.tidy.disjoint _ _ _ _ hat hat' hne
      rw [show (AreaUse.slot s).extent = s.extent from rfl, show (AreaUse.slot s').extent = s'.extent from rfl]
        at hdisjoint
      omega

end Emission

end RegisterCompiler
