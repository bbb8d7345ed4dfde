import RegisterCompiler.Proofs.Area
import RegisterCompiler.Proofs.Assignment

/-!
# Where variables live

A variable lives in its register or in its area of the frame. `Emission.Placed` says that the places of the variables of
a function lose no value, and `Emission.Homed` that those in the frame lie in the memory, apart from each other.
`Emission.LaidOut` says that each thing is found in the area of the frame that was made for it, and `Emission.Sound`
collects what is known about a function for which code is written: besides, its areas lie within the frame, apart from
each other.
-/

namespace RegisterCompiler

open List
open IR (Var)
open Machine (View)
open Machine.View (Changes)

namespace Emission

/-- The variables of a function have places that lose no value. -/
structure Placed (e : Emission) : Prop where
  ready : e.Ready
  target : e.target.WellFormed
  allocation : e.allocation.Sound e.target e.function

/-- What the frame of a function keeps is found in its area, and the registers that the function must give back are
    saved before they are used. -/
structure LaidOut (e : Emission) : Prop extends e.Placed where
  spillAt : ∀ v ∈ e.function.vars, ∀ offset, e.layout.spillOffset? v.id = some offset → e.layout.At (.spill v) offset
  slotAt : ∀ (k : Nat) (offset : Int64), e.layout.slotOffset? k = some offset →
    ∃ s, e.function.slots[k]? = some s ∧ e.layout.At (.slot s) offset
  argSize : e.layout.argSize = 8
  saved_nodup : e.layout.saved.Nodup
  /-- Only registers that must be given back are saved. -/
  saved : ∀ r ∈ e.layout.saved, r ∈ e.target.calleeSaved
  /-- A register that must be given back is saved if a variable lives in it. -/
  kept : ∀ v ∈ e.function.vars, ∀ r, e.allocation.loc? v.id = some (.reg r) → r ∈ e.target.calleeSaved → r ∈ e.layout.saved

/-- What is known about a function for which code is written. -/
structure Sound (e : Emission) : Prop extends e.LaidOut where
  tidy : e.layout.Tidy

/-- The frame of a function lies in the memory, with room for what the caller left above it. -/
structure Room (e : Emission) (base : Int) (size : Nat) : Prop where
  low : 0 ≤ base - e.layout.size.toInt
  high : base + 16 ≤ size
  bound : size < 2 ^ 63

/-- The homes of variables in the frame lie in the memory, and have no byte in common. -/
structure Homed (e : Emission) (base : Int) (size : Nat) : Prop extends e.Placed where
  fits : ∀ v ∈ e.function.vars, ∀ offset, e.home v = .ok (.frame offset) → (Place.frame offset).Fits base size v.width
  apart : ∀ u ∈ e.function.vars, ∀ v ∈ e.function.vars, u.id ≠ v.id → ∀ a b, e.home u = .ok (.frame a) →
    e.home v = .ok (.frame b) → (Place.frame a).Disjoint u.width v.width (.frame b)

variable {e : Emission} {base : Int} {size : Nat} {u v : Var} {p q : Place} {r : Reg} {ms : List Move}

namespace Placed

variable (h : e.Placed) (hv : v ∈ e.function.vars)
include h hv

theorem reg_or_frame (hp : e.home v = .ok p) :
    (∃ r, p = .reg r ∧ e.allocation.loc? v.id = some (.reg r) ∧ r ∈ e.target.allocatable) ∨
      ∃ offset, p = .frame offset ∧ e.layout.spillOffset? v.id = some offset := by
  obtain ⟨p', hp', hcases⟩ := h.ready.home hv
  cases hp'.symm.trans hp
  rcases hcases with ⟨r, hloc, rfl⟩ | ⟨-, offset, hoffset, rfl⟩
  · exact .inl ⟨r, rfl, hloc, h.allocation.allocatable v hv r hloc⟩
  · exact .inr ⟨offset, rfl, hoffset⟩

theorem exists_home : ∃ p, e.home v = .ok p := by
  obtain ⟨p, hp, -⟩ := h.ready.home hv
  exact ⟨p, hp⟩

theorem width : v.width.isValid := h.ready.wellFormed.width v hv

theorem home_not_scratch (hp : e.home v = .ok (.reg r)) : r ∈ e.target.allocatable ∧ r ∉ e.target.scratch := by
  rcases h.reg_or_frame hv hp with ⟨_, ⟨⟩, -, hr⟩ | ⟨_, ⟨⟩, -⟩
  exact ⟨hr, h.target.allocatable_not_scratch _ hr⟩

theorem home_ne_scratch (hp : e.home v = .ok p) : ∀ r, p = .reg r → r ∉ e.target.scratch := by
  rintro r rfl
  exact (h.home_not_scratch hv hp).2

theorem home_general (hp : e.home v = .ok (.reg r)) : r.num < 16 :=
  h.target.allocatable_general r (h.home_not_scratch hv hp).1

end Placed

namespace Homed

theorem home_fits (h : e.Homed base size) (hv : v ∈ e.function.vars) (hp : e.home v = .ok p) :
    p.Fits base size v.width := by
  cases p with
  | reg r => exact Reg.usable (h.home_general hv hp)
  | frame offset => exact h.fits v hv offset hp

variable (h : e.Homed base size) (hu : u ∈ e.function.vars) (hv : v ∈ e.function.vars)
include h hu hv

theorem home_disjoint (hne : u.id ≠ v.id) (hapart : e.allocation.Apart u.id v.id) (hp : e.home u = .ok p)
    (hq : e.home v = .ok q) : p.Disjoint u.width v.width q := by
  rcases h.reg_or_frame hu hp with ⟨r, rfl, hur, -⟩ | ⟨offset, rfl, -⟩
  · rcases h.reg_or_frame hv hq with ⟨s, rfl, hvs, -⟩ | ⟨offset, rfl, -⟩
    · exact fun hrs => hapart r hur (hrs ▸ hvs)
    · trivial
  · rcases h.reg_or_frame hv hq with ⟨s, rfl, -, -⟩ | ⟨offset', rfl, -⟩
    · trivial
    · exact h.apart u hu v hv hne _ _ hp hq

theorem eq_or_home_disjoint (hp : e.home u = .ok p) (hq : e.home v = .ok q) : p = q ∨ p.Disjoint u.width v.width q := by
  by_cases hpq : p = q
  · exact .inl hpq
  have hid : u.id ≠ v.id := fun hid => by
    cases inj_on_of_nodup_map h.ready.wellFormed.nodup hu hv hid
    exact hpq (Except.ok.inj (hp.symm.trans hq))
  rcases p with r | a
  · rcases q with s | b
    · exact .inr fun hrs => hpq (hrs ▸ rfl)
    · exact .inr trivial
  · rcases q with s | b
    · exact .inr trivial
    · exact .inr (h.apart u hu v hv hid a b hp hq)

end Homed

theorem LaidOut.home_cases (h : e.LaidOut) (hv : v ∈ e.function.vars) (hp : e.home v = .ok p) :
    (∃ r, p = .reg r ∧ e.allocation.loc? v.id = some (.reg r) ∧ r ∈ e.target.allocatable) ∨
      ∃ offset, p = .frame offset ∧ e.layout.At (.spill v) offset := by
  rcases h.reg_or_frame hv hp with hreg | ⟨offset, rfl, hoffset⟩
  · exact .inl hreg
  · exact .inr ⟨offset, rfl, h.spillAt v hv offset hoffset⟩

theorem Sound.homed (h : e.Sound) (hroom : e.Room base size) : e.Homed base size where
  toPlaced := h.toPlaced
  fits v hv offset hp := by
    have := hroom.low
    have := hroom.high
    rcases h.home_cases hv hp with ⟨_, ⟨⟩, -⟩ | ⟨_, ⟨⟩, hat⟩
    obtain ⟨hlow, hhigh⟩ := h.tidy.inside _ _ hat
    simp only [AreaUse.extent] at hhigh
    exact ⟨h.width hv, by omega, by omega⟩
  apart u hu v hv hne a b hp hq := by
    rcases h.home_cases hu hp with ⟨_, ⟨⟩, -⟩ | ⟨_, ⟨⟩, hat⟩
    rcases h.home_cases hv hq with ⟨_, ⟨⟩, -⟩ | ⟨_, ⟨⟩, hat'⟩
    refine h.tidy.disjoint _ _ _ _ hat hat' fun huv => hne ?_
    cases huv
    rfl

/-- Moves that can be made all at once, and do not involve scratch registers. -/
structure Moving (e : Emission) (base : Int) (size : Nat) (ms : List Move) : Prop where
  dest : ∀ m ∈ ms, m.dest.Fits base size m.width
  source : ∀ m ∈ ms, m.source.Fits base size m.width
  dest_free : ∀ m ∈ ms, ∀ r, m.dest = .reg r → r ∉ e.target.scratch
  source_free : ∀ m ∈ ms, ∀ r, m.source = .place (.reg r) → r ∉ e.target.scratch
  dests : ms.Pairwise fun m n => m.dest.Disjoint m.width n.width n.dest
  sources : ∀ m ∈ ms, ∀ n ∈ ms, ∀ p, m.source = .place p → p = n.dest ∨ p.Disjoint m.width n.width n.dest
  /-- There are scratch registers for the moves, unless there is nothing to move. -/
  scratch : ∀ m ∈ ms, 2 ≤ e.target.scratch.length ∨ m.isIdentity

theorem Placed.run_outcomes {v : View} (h : e.Placed) (hms : e.Moving base size ms) (hv : v.Stands base size) :
    ∃ w, v.run (e.moves ms) = .ok w ∧ (∀ m ∈ ms, w.held base m.width m.dest = m.outcome base v) ∧
      Changes (fun r => r ∈ e.target.scratch ∨ ∃ m ∈ ms, m.dest = .reg r)
        (fun a => ∃ m ∈ ms, m.dest.Covers base m.width a) v w := by
  by_cases hlen : 2 ≤ e.target.scratch.length
  · have hget : ∀ k < 2, ∃ r, e.target.scratch[k]? = some r ∧ e.target.scratch.getD k ⟨0⟩ = r ∧ r ∈ e.target.scratch := by
      intro k hk
      have hlt : k < e.target.scratch.length := by omega
      refine ⟨e.target.scratch[k], getElem?_eq_getElem hlt, ?_, getElem_mem hlt⟩
      rw [getD_eq_getElem?_getD, getElem?_eq_getElem hlt, Option.getD_some]
    obtain ⟨temp, htemp, htemp', htempMem⟩ := hget 0 (by omega)
    obtain ⟨carry, hcarry, hcarry', hcarryMem⟩ := hget 1 (by omega)
    have hne : temp ≠ carry := by
      rintro rfl
      have := (nodup_iff_getElem?_ne_getElem?.1 h.target.scratch_nodup) 0 1 (by omega) (by omega)
      exact this (htemp.trans hcarry.symm)
    have hmovable : Move.Movable base size temp carry ms :=
      { temp_usable := Reg.usable (h.target.scratch_general temp htempMem)
        carry_usable := Reg.usable (h.target.scratch_general carry hcarryMem)
        temp_ne_carry := hne
        dest := hms.dest
        source := hms.source
        dest_free := fun m hm => ⟨fun hd => hms.dest_free m hm _ hd htempMem, fun hd => hms.dest_free m hm _ hd hcarryMem⟩
        source_free := fun m hm =>
          ⟨fun hs => hms.source_free m hm _ hs htempMem, fun hs => hms.source_free m hm _ hs hcarryMem⟩
        dests := hms.dests
        sources := hms.sources }
    obtain ⟨w, hrun, hheld, hchanges⟩ := hmovable.run_outcomes hv
    refine ⟨w, ?_, hheld, hchanges.mono ?_ fun _ ha => ha⟩
    · rwa [moves, htemp', hcarry']
    · rintro r (rfl | rfl | hr)
      · exact .inl htempMem
      · exact .inl hcarryMem
      · exact .inr hr
  · -- Without scratch registers there is nothing to move.
    have hid : ∀ m ∈ ms, m.isIdentity := fun m hm => (hms.scratch m hm).resolve_left hlen
    refine ⟨v, ?_, fun m hm => (Move.outcome_of_isIdentity (hid m hm) base v).symm, .refl v⟩
    rw [moves, simultaneous_of_isIdentity hid]
    rfl

/-- Every destination gets what its source had before the code, if that is a value of its width. -/
theorem Placed.run_moves {v : View} (h : e.Placed) (hms : e.Moving base size ms) (hv : v.Stands base size)
    (hcanonical : ∀ m ∈ ms, ∀ p, m.source = .place p → m.width.IsCanonical (v.held base m.width p)) :
    ∃ w, v.run (e.moves ms) = .ok w ∧
      (∀ m ∈ ms, w.held base m.width m.dest = v.value base m.width m.source) ∧
      Changes (fun r => r ∈ e.target.scratch ∨ ∃ m ∈ ms, m.dest = .reg r)
        (fun a => ∃ m ∈ ms, m.dest.Covers base m.width a) v w := by
  obtain ⟨w, hrun, hheld, hc⟩ := h.run_outcomes hms hv
  exact ⟨w, hrun, fun m hm => (hheld m hm).trans (Move.outcome_eq_value (hcanonical m hm)), hc⟩

end Emission

end RegisterCompiler
