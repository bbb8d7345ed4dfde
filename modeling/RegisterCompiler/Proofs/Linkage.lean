import RegisterCompiler.Proofs.Correspondence

/-!
# Entering and leaving a function

The code at the beginning of a function builds its frame, and the code at its end gives back what the function took.
`Emission.Framed` is what the one establishes and the other relies on.
-/

namespace RegisterCompiler

open List
open Machine (View)
open Machine.View (Changes cell)

namespace Machine.View

variable {v : View} {xs : List Int64} {rs : Reg → Prop}

theorem push_cases (x : Int64) (hlow : 0 ≤ (v.regs .sp).toInt) (hhigh : (v.regs .sp).toInt ≤ v.memory.size)
    (hbound : v.memory.size < 2 ^ 63) :
    v.push x = .error .stackOverflow ∧ (v.regs .sp).toInt < 8 ∨
      8 ≤ (v.regs .sp).toInt ∧ (v.regs .sp - 8).toInt = (v.regs .sp).toInt - 8 ∧
        v.push x = .ok (View.set { v with memory := v.memory.store ((v.regs .sp).toInt - 8).toNat x.toUInt64 8 } .sp
          (v.regs .sp - 8)) := by
  have hsub : (v.regs .sp - 8).toInt = (v.regs .sp).toInt - 8 := by
    rw [toInt_sub_of_bounds] <;> rw [toInt_eight] <;> omega
  by_cases hneg : v.regs .sp - 8 < 0
  · have := Int64.lt_iff_toInt_lt.1 hneg
    rw [hsub, show (0 : Int64).toInt = 0 from rfl] at this
    exact .inl ⟨if_pos hneg, by omega⟩
  · have hlow : 8 ≤ (v.regs .sp).toInt := by
      have := mt Int64.lt_iff_toInt_lt.2 hneg
      rw [hsub, show (0 : Int64).toInt = 0 from rfl] at this
      omega
    refine .inr ⟨hlow, hsub, ?_⟩
    unfold push
    simp only [hneg, if_false]
    rw [write_of_bounds Width.isValid_w64 hbound (by omega) (by rw [hsub, Width.size_w64]; omega), hsub]
    rfl

/-- The words `xs` are on the stack, the first one on top. -/
structure Stacked (xs : List Int64) (v : View) : Prop where
  value : ∀ (k : Nat) x, xs[k]? = some x → ∀ wd : Width, wd.isValid →
    v.memory.value wd ((v.regs .sp).toInt + 8 * k).toNat = wd.canonical x
  low : 0 ≤ (v.regs .sp).toInt
  high : (v.regs .sp).toInt + 8 * xs.length ≤ v.memory.size
  bound : v.memory.size < 2 ^ 63

theorem Stacked.of_changes {w : View} (h : v.Stacked xs) (hc : Changes rs (fun _ => False) v w) (hsp : ¬rs .sp) :
    w.Stacked xs := by
  refine ⟨fun k x hx wd hwd => ?_, ?_, ?_, ?_⟩
  · rw [← h.value k x hx wd hwd, hc.regs _ hsp]
    exact Memory.value_congr fun j _ => hc.bytes _ id
  · rw [hc.regs _ hsp]
    exact h.low
  · rw [hc.regs _ hsp, hc.size]
    exact h.high
  · rw [hc.size]
    exact h.bound

theorem Stacked.push (h : v.Stacked xs) (x : Int64) :
    v.push x = .error .stackOverflow ∧ (v.regs .sp).toInt < 8 ∨ ∃ w, v.push x = .ok w ∧ w.Stacked (x :: xs) ∧
      (w.regs .sp).toInt = (v.regs .sp).toInt - 8 ∧ Changes (· = .sp) (fun a : Nat => a < (v.regs .sp).toInt) v w := by
  have hlow := h.low
  have hhigh := h.high
  rcases push_cases x hlow (by omega) h.bound with hoverflow | ⟨h8, hsub, hok⟩
  · exact .inl hoverflow
  refine .inr ⟨_, hok, ⟨fun k y hy wd hwd => ?_, ?_, ?_, ?_⟩, ?_, fun r hr => ?_, fun a ha => ?_, ?_⟩
  · rw [regs_set_self, hsub, memory_set]
    have hsize := Width.size_of_isValid hwd
    cases k with
    | zero =>
      cases hy
      rw [show (v.regs .sp).toInt - 8 + 8 * ((0 : Nat) : Int) = (v.regs .sp).toInt - 8 by omega]
      exact Memory.value_store_of_le _ hwd hsize.2.2 (Nat.le_refl 8) _ x
    | succ k =>
      rw [← h.value k y hy wd hwd, Memory.value_store_of_outside _ (by omega)]
      congr 1
      omega
  · rw [regs_set_self, hsub]
    omega
  · rw [regs_set_self, hsub, memory_set, Memory.size_store, length_cons]
    omega
  · rw [memory_set, Memory.size_store]
    exact h.bound
  · rw [regs_set_self, hsub]
  · exact regs_set_of_ne _ _ hr
  · have ha : ¬(a : Int) < (v.regs .sp).toInt := ha
    exact Memory.get_store_of_outside _ (by omega) _
  · exact Memory.size_store _ _ _ _

theorem get_sp (v : View) : v.get .sp = .ok (v.regs .sp) := rfl

theorem put_sp (v : View) (x : Int64) : v.put .sp x = .ok (v.set .sp x) := rfl

theorem checkStack_set (v : View) (x : Int64) :
    (v.set .sp x).checkStack = if x < 0 then .error .stackOverflow else .ok (v.set .sp x) := by
  unfold checkStack
  rw [regs_set_self]

theorem exec_addSp (v : View) (y : Int64) :
    v.exec (.aluImm .add .w64 .sp .sp y) =
      if v.regs .sp + y < 0 then .error .stackOverflow else .ok (v.set .sp (v.regs .sp + y)) := by
  have heval : BinOp.add.eval .w64 (v.regs .sp) y = .ok (v.regs .sp + y) := by
    simp only [BinOp.eval, Width.canonical_w64]
  have hexec : v.exec (.aluImm .add .w64 .sp .sp y) = (v.set .sp (v.regs .sp + y)).checkStack := by
    simp only [exec, get_sp, heval, put_sp, bind, Except.bind, Except.mapError, if_true]
  exact hexec.trans (checkStack_set v _)

theorem run_grow (size : Int64) {base : Int} (hsp : (v.regs .sp).toInt = base) (hbase : 0 ≤ base) :
    v.run (if 0 < size then [.aluImm .add .w64 .sp .sp (-size)] else []) = .error .stackOverflow ∧ base < size.toInt ∨
      ∃ w, v.run (if 0 < size then [.aluImm .add .w64 .sp .sp (-size)] else []) = .ok w ∧
        Changes (· = .sp) (fun _ => False) v w ∧
        (0 ≤ size.toInt → (w.regs .sp).toInt = base - size.toInt ∧ 0 ≤ base - size.toInt) := by
  have hzero : (0 : Int64).toInt = 0 := rfl
  by_cases hpos : 0 < size
  · have hsize := Int64.lt_iff_toInt_lt.1 hpos
    rw [hzero] at hsize
    have hneg : (-size).toInt = -size.toInt := toInt_neg_of_bounds (by omega)
    have hsum : (v.regs .sp + -size).toInt = base - size.toInt := by
      have := size.toInt_lt
      have := (v.regs .sp).toInt_lt
      rw [toInt_add_of_bounds] <;> rw [hsp, hneg] <;> omega
    rw [if_pos hpos, run_singleton, exec_addSp]
    by_cases hroom : v.regs .sp + -size < 0
    · have := Int64.lt_iff_toInt_lt.1 hroom
      exact .inl ⟨if_pos hroom, by omega⟩
    · rw [if_neg hroom]
      refine .inr ⟨_, rfl, changes_set _ v .sp _, fun _ => ⟨?_, ?_⟩⟩
      · rw [regs_set_self, hsum]
      · have := mt Int64.lt_iff_toInt_lt.2 hroom
        omega
  · rw [if_neg hpos]
    refine .inr ⟨v, rfl, .refl v, fun hsize => ?_⟩
    have := mt Int64.lt_iff_toInt_lt.2 hpos
    omega

/-- A function that was entered at `start` has set its frame pointer. -/
structure Entered (start v : View) : Prop where
  stands : v.Stands ((start.regs .sp).toInt - 8) start.memory.size
  regs : ∀ r : Reg, r.num < 16 → v.regs r = start.regs r
  link : v.memory.value .w64 ((start.regs .sp).toInt - 8).toNat = start.regs .fp
  above : ∀ a : Nat, (start.regs .sp).toInt ≤ a → v.memory.get a = start.memory.get a

theorem Entered.of_changes {start w : View} {bytes : Nat → Prop} (h : start.Entered v) (hc : Changes rs bytes v w)
    (hrs : ∀ r : Reg, rs r → r = .sp) (hbytes : ∀ a, bytes a → (a : Int) < (start.regs .sp).toInt - 8) :
    start.Entered w where
  stands := h.stands.of_changes hc fun hfp => absurd (hrs _ hfp) (by decide)
  regs r hr := (hc.regs r fun hrr => Reg.ne_sp hr (hrs r hrr)).trans (h.regs r hr)
  link := by
    rw [← h.link]
    refine Memory.value_congr fun k _ => hc.bytes _ fun ha => ?_
    have := hbytes _ ha
    omega
  above a ha := by
    rw [← h.above a ha]
    refine hc.bytes a fun hb => ?_
    have := hbytes a hb
    omega

theorem run_link (hlow : 0 ≤ (v.regs .sp).toInt) (hhigh : (v.regs .sp).toInt ≤ v.memory.size)
    (hbound : v.memory.size < 2 ^ 63) :
    v.run [.push .fp, .mov .w64 .fp .sp] = .error .stackOverflow ∧ (v.regs .sp).toInt < 8 ∨
      8 ≤ (v.regs .sp).toInt ∧ ∃ w, v.run [.push .fp, .mov .w64 .fp .sp] = .ok w ∧ v.Entered w ∧
        (w.regs .sp).toInt = (v.regs .sp).toInt - 8 := by
  rcases push_cases (v.regs .fp) hlow hhigh hbound with ⟨hpush, hless⟩ | ⟨hroom, hsp, hpush⟩
  · left
    have hexec : v.exec (.push .fp) = .error .stackOverflow := hpush
    exact ⟨by simp only [run, hexec, bind, Except.bind], hless⟩
  set v₁ := View.set { v with memory := v.memory.store ((v.regs .sp).toInt - 8).toNat (v.regs .fp).toUInt64 8 } .sp
    (v.regs .sp - 8) with hv₁
  refine .inr ⟨hroom, v₁.set .fp (v.regs .sp - 8), ?_, ⟨⟨hsp, Memory.size_store _ _ _ _, hbound⟩, ?_, ?_, ?_⟩, hsp⟩
  · have hexec : v.exec (.push .fp) = .ok v₁ := hpush
    have hmov : v₁.exec (.mov .w64 .fp .sp) = .ok (v₁.set .fp (Width.w64.canonical (v₁.regs .sp))) := rfl
    simp only [run, hexec, hmov, bind, Except.bind, Width.canonical_w64]
    rfl
  · intro r hr
    rw [regs_set_of_ne _ _ (Reg.ne_fp hr), hv₁, regs_set_of_ne _ _ (Reg.ne_sp hr)]
  · exact (Memory.value_store_of_le _ Width.isValid_w64 (Nat.le_refl 8) (Nat.le_refl 8) _ _).trans (Width.canonical_w64 _)
  · exact fun a ha => Memory.get_store_of_outside _ (by omega) _

end Machine.View

/-- The code that sets the frame pointer and makes room for the frame. -/
def Layout.opening (l : Layout) : List Asm.Instr :=
  [.push .fp, .mov .w64 .fp .sp] ++ if 0 < l.size then [.aluImm .add .w64 .sp .sp (-l.size)] else []

theorem Layout.prologue_eq (l : Layout) :
    l.prologue = l.opening ++ l.saves.map fun (r, address) => .store .w64 r address := rfl

theorem Machine.View.run_opening {v : View} (l : Layout) (hlow : 0 ≤ (v.regs .sp).toInt)
    (hhigh : (v.regs .sp).toInt ≤ v.memory.size) (hbound : v.memory.size < 2 ^ 63) :
    v.run l.opening = .error .stackOverflow ∧ ((v.regs .sp).toInt - 8 < 0 ∨ (v.regs .sp).toInt - 8 < l.size.toInt) ∨
      8 ≤ (v.regs .sp).toInt ∧ ∃ w, v.run l.opening = .ok w ∧ v.Entered w ∧
        (0 ≤ l.size.toInt → (w.regs .sp).toInt = (v.regs .sp).toInt - 8 - l.size.toInt ∧
          0 ≤ (v.regs .sp).toInt - 8 - l.size.toInt) := by
  unfold Layout.opening
  rcases run_link hlow hhigh hbound with ⟨hlink, hless⟩ | ⟨hroom, u, hlink, hentered, hsp⟩
  · refine .inl ⟨?_, .inl (by omega)⟩
    rw [run_append, hlink]
    rfl
  rcases run_grow l.size hsp (by omega) with ⟨hgrow, hless⟩ | ⟨w, hgrow, hc, hwsp⟩
  · refine .inl ⟨?_, .inr hless⟩
    rw [run_append, hlink]
    exact hgrow
  · refine .inr ⟨hroom, w, ?_, hentered.of_changes hc (fun _ => id) (fun _ => False.elim), hwsp⟩
    rw [run_append, hlink]
    exact hgrow

namespace Layout

variable {l : Layout} {base : Int} {size : Nat} {u v : View} {xs : List (Reg × Asm.Addr)}

/-- The areas in which registers are saved, each with its register. -/
def SaveList (l : Layout) (xs : List (Reg × Asm.Addr)) : Prop :=
  (xs.map Prod.fst).Nodup ∧ ∀ x ∈ xs, x.1.num < 16 ∧ x.2.base = .fp ∧ x.2.index = none ∧ l.At (.save x.1) x.2.offset

theorem saveList (hnodup : l.saved.Nodup) (hgeneral : ∀ r ∈ l.saved, r.num < 16) : l.SaveList l.saves := by
  refine ⟨?_, fun ⟨r, address⟩ hx => ?_⟩
  · have hsub : (l.saves.map Prod.fst).Sublist l.saved := by
      have hfst : l.saves.map Prod.fst = l.saved.filterMap fun r => (l.saveOffset? r).map fun _ => r := by
        rw [saves, map_filterMap]
        refine filterMap_congr fun r _ => ?_
        cases l.saveOffset? r <;> rfl
      rw [hfst]
      induction l.saved with
      | nil => exact .slnil
      | cons r rest ih =>
        cases hoffset : l.saveOffset? r with
        | none => simpa [hoffset] using ih.cons r
        | some offset => simpa [hoffset] using ih
    exact hnodup.sublist hsub
  · obtain ⟨hr, offset, hoffset, rfl⟩ := mem_saves_iff.1 hx
    exact ⟨hgeneral r hr, rfl, rfl, at_of_saveOffset? hoffset⟩

section

variable (hl : l.SaveList xs) (hfits : ∀ x ∈ xs, (Place.frame x.2.offset).Fits base size .w64) (hv : v.Stands base size)
include hl hfits hv

/-- Registers are saved one after the other. A register is found in its area if the others have areas apart from it. -/
theorem run_saves :
    ∃ w, v.run (xs.map fun (r, address) => .store .w64 r address) = .ok w ∧
      (∀ x ∈ xs, (∀ y ∈ xs, y.1 ≠ x.1 → (Place.frame y.2.offset).Disjoint .w64 .w64 (.frame x.2.offset)) →
        w.memory.value .w64 (cell base x.2.offset) = v.regs x.1) ∧
      Changes (fun _ => False) (fun a => ∃ x ∈ xs, (Place.frame x.2.offset).Covers base .w64 a) v w := by
  induction xs generalizing v with
  | nil => exact ⟨v, rfl, nofun, .refl v⟩
  | cons x xs ih =>
    obtain ⟨r, ⟨_, _, offset⟩⟩ := x
    obtain ⟨hnodup, hl⟩ := hl
    obtain ⟨⟨hr, rfl, rfl, -⟩, hrest⟩ := forall_mem_cons.1 hl
    obtain ⟨hfresh, hnodup⟩ := nodup_cons.1 hnodup
    obtain ⟨hfit, hfits⟩ := forall_mem_cons.1 hfits
    dsimp only at hr hfresh hfit
    have hstore : Changes (fun _ => False) ((Place.frame offset).Covers base .w64) v _ :=
      View.changes_store v (v.regs r).toUInt64 offset
    obtain ⟨w, hrun, hheld, hc⟩ := ih ⟨hnodup, hrest⟩ hfits (hv.of_changes hstore id)
    refine ⟨w, ?_, ?_, ?_⟩
    · rw [map_cons, View.run, hv.exec_store (Reg.lt_count hr) hfit]
      exact hrun
    · refine forall_mem_cons.2 ⟨fun hapart => ?_, fun x hx hapart => ?_⟩
      · -- The later areas belong to other registers.
        refine (Memory.value_congr fun k hk => hc.bytes _ ?_).trans
          ((View.held_store Width.isValid_w64 v (v.regs r) offset).trans (Width.canonical_w64 _))
        rintro ⟨y, hy, hcovers⟩
        have hne : y.1 ≠ r := fun hyr => hfresh (hyr ▸ mem_map_of_mem hy)
        exact (hapart y (mem_cons_of_mem _ hy) hne).not_covers (hfits y hy) hfit hcovers
          ⟨Nat.le_add_right _ _, Nat.add_lt_add_left hk _⟩
      · exact (hheld x hx fun y hy => hapart y (mem_cons_of_mem _ hy)).trans rfl
    · refine (hstore.mono (fun _ => id) fun a ha => ⟨_, mem_cons_self, ha⟩).trans (hc.mono (fun _ => id) ?_)
      rintro a ⟨x, hx, ha⟩
      exact ⟨x, mem_cons_of_mem _ hx, ha⟩

theorem run_restores :
    ∃ w, v.run (xs.map fun (r, address) => .load .w64 r address) = .ok w ∧
      (∀ x ∈ xs, w.regs x.1 = v.memory.value .w64 (cell base x.2.offset)) ∧
      (∀ r, r ∉ xs.map Prod.fst → w.regs r = v.regs r) ∧ w.memory = v.memory := by
  induction xs generalizing v with
  | nil => exact ⟨v, rfl, nofun, fun _ _ => rfl, rfl⟩
  | cons x xs ih =>
    obtain ⟨r, ⟨_, _, offset⟩⟩ := x
    obtain ⟨hnodup, hl⟩ := hl
    obtain ⟨⟨hr, rfl, rfl, -⟩, hrest⟩ := forall_mem_cons.1 hl
    obtain ⟨hfresh, hnodup⟩ := nodup_cons.1 hnodup
    obtain ⟨hfit, hfits⟩ := forall_mem_cons.1 hfits
    dsimp only at hr hfresh
    have hfit : (Source.place (.frame offset)).Fits base size .w64 := hfit
    have hset := View.changes_set (fun _ => False) v r (v.value base .w64 (.place (.frame offset)))
    obtain ⟨w, hrun, hheld, hkept, hmemory⟩ := ih ⟨hnodup, hrest⟩ hfits (hv.of_changes hset (Reg.ne_fp hr).symm)
    refine ⟨w, ?_, ?_, fun q hq => ?_, hmemory⟩
    · have hload : v.exec (.load .w64 r { base := .fp, offset }) = _ := hv.exec_load (Reg.lt_count hr) hfit
      rw [map_cons, View.run]
      dsimp only
      rw [hload]
      exact hrun
    · refine forall_mem_cons.2 ⟨?_, fun x hx => (hheld x hx).trans rfl⟩
      rw [hkept r hfresh, View.regs_set_self]
      exact Memory.value_isCanonical _ _ _
    · rw [map_cons, mem_cons, not_or] at hq
      rw [hkept q hq.2, View.regs_set_of_ne v _ hq.1]

end

/-- The frame is built if there is room for it. A register is found in its area if the others have areas apart from it. -/
theorem run_prologue (hl : l.SaveList l.saves) (hsize : l.size.toInt ≤ (u.regs .sp).toInt - 8)
    (hlies : ∀ x ∈ l.saves, 0 ≤ (u.regs .sp).toInt - 8 + x.2.offset.toInt ∧ x.2.offset.toInt + 8 ≤ 0)
    (hlow : 8 ≤ (u.regs .sp).toInt) (hhigh : (u.regs .sp).toInt ≤ u.memory.size) (hbound : u.memory.size < 2 ^ 63) :
    ∃ w, u.run l.prologue = .ok w ∧ u.Entered w ∧
      ∀ x ∈ l.saves, (∀ y ∈ l.saves, y.1 ≠ x.1 → (Place.frame y.2.offset).Disjoint .w64 .w64 (.frame x.2.offset)) →
        w.memory.value .w64 (cell ((u.regs .sp).toInt - 8) x.2.offset) = u.regs x.1 := by
  rcases View.run_opening l (by omega) hhigh hbound with ⟨-, hless⟩ | ⟨-, v, hopening, hentered, -⟩
  · omega
  have hfits : ∀ x ∈ l.saves, (Place.frame x.2.offset).Fits ((u.regs .sp).toInt - 8) u.memory.size .w64 := by
    intro x hx
    have := hlies x hx
    rw [Place.Fits, Width.size_w64]
    exact ⟨Width.isValid_w64, by omega, by omega⟩
  obtain ⟨w, hrun, hheld, hc⟩ := run_saves hl hfits hentered.stands
  refine ⟨w, ?_, hentered.of_changes hc (fun _ => False.elim) ?_, fun x hx hapart => ?_⟩
  · rw [prologue_eq, View.run_append, hopening]
    exact hrun
  · -- Areas lie below the frame pointer, where the caller's frame pointer is kept.
    rintro a ⟨x, hx, hcovers⟩
    have := hlies x hx
    simp only [Place.Covers, cell, Width.size_w64] at hcovers
    omega
  · exact (hheld x hx hapart).trans (hentered.regs x.1 (hl.2 x hx).1)

/-- What the end of a function takes back from its frame, which is left as it is. -/
structure TakesBack (l : Layout) (base : Int) (v w : View) : Prop where
  sp : (w.regs .sp).toInt = base + 8
  fp : w.regs .fp = v.memory.value .w64 base.toNat
  saved : ∀ x ∈ l.saves, w.regs x.1 = v.memory.value .w64 (cell base x.2.offset)
  others : ∀ r : Reg, r.num < 16 → r ∉ l.saved → w.regs r = v.regs r
  memory : w.memory = v.memory

/-- The end of a function takes back the saved registers and the frame pointer before it returns. -/
theorem run_epilogue (hl : l.SaveList l.saves) (hfits : ∀ x ∈ l.saves, (Place.frame x.2.offset).Fits base size .w64)
    (hv : v.Stands base size) (hlow : 0 ≤ base) (hhigh : base + 8 ≤ size) :
    ∃ w code, l.epilogue = code ++ [.ret] ∧ v.run code = .ok w ∧ l.TakesBack base v w := by
  obtain ⟨u, hrun, hloaded, hkept, hmemory⟩ := run_restores hl hfits hv
  have hfp : u.regs .fp = v.regs .fp := hkept _ fun hmem => by
    obtain ⟨x, hx, hfp⟩ := mem_map.1 hmem
    exact Reg.ne_fp (hl.2 x hx).1 hfp
  have hbase := hv.fp
  have hbound := hv.bound
  set u' := u.set .sp (v.regs .fp) with hu'
  have hread : u'.read .w64 (u'.regs .sp) = .ok (v.memory.value .w64 base.toNat) := by
    have hmem : u'.memory = v.memory := hmemory
    rw [hu', View.regs_set_self, View.read_of_bounds Width.isValid_w64 (by rw [hmem, hv.memory]; exact hbound)
      (by omega) (by rw [hmem, hv.memory, Width.size_w64]; omega), hmem, hbase]
  refine ⟨(u'.set .sp (v.regs .fp + 8)).set .fp (v.memory.value .w64 base.toNat),
    (l.saves.map fun (r, address) => .load .w64 r address) ++ [.mov .w64 .sp .fp, .pop .fp], ?_, ?_, ?_⟩
  · simp [epilogue]
  · have hmov : u.exec (.mov .w64 .sp .fp) = .ok u' := by
      have : u.exec (.mov .w64 .sp .fp) = .ok (u.set .sp (Width.w64.canonical (u.regs .fp))) := rfl
      rw [this, Width.canonical_w64, hfp]
    have hpop : u'.exec (.pop .fp) =
        .ok ((u'.set .sp (u'.regs .sp + 8)).set .fp (v.memory.value .w64 base.toNat)) := by
      simp only [View.exec, hread, bind, Except.bind]
      rfl
    simp only [View.run_append, hrun, bind, Except.bind, View.run, hmov, hpop]
    rw [hu', View.regs_set_self]
  · -- Neither pointer is a register that is saved.
    have hset : ∀ r : Reg, r.num < 16 →
        ((u'.set .sp (v.regs .fp + 8)).set .fp (v.memory.value .w64 base.toNat)).regs r = u.regs r := fun r hr => by
      rw [View.regs_set_of_ne _ _ (Reg.ne_fp hr), View.regs_set_of_ne _ _ (Reg.ne_sp hr), hu',
        View.regs_set_of_ne _ _ (Reg.ne_sp hr)]
    refine ⟨?_, View.regs_set_self _ _ _, fun x hx => ?_, fun r hr hmem => ?_, hmemory⟩
    · rw [View.regs_set_of_ne _ _ (by decide), View.regs_set_self, toInt_add_of_bounds] <;>
        rw [hbase, toInt_eight] <;> omega
    · rw [hset x.1 (hl.2 x hx).1, hloaded x hx]
    · rw [hset r hr, hkept r fun hfst => ?_]
      obtain ⟨⟨q, address⟩, hx, rfl⟩ := mem_map.1 hfst
      exact hmem (mem_saves_iff.1 hx).1

end Layout

namespace Emission

variable {e : Emission} {base : Int} {size : Nat} {start v w : View}

theorem LaidOut.saveList (h : e.LaidOut) : e.layout.SaveList e.layout.saves :=
  Layout.saveList h.saved_nodup fun r hr => h.target.allocatable_general r (h.target.saved_allocatable r (h.saved r hr))

namespace Sound

theorem save_fits (h : e.Sound) (hroom : e.Room base size) {r : Reg} {offset : Int64}
    (hat : e.layout.At (.save r) offset) : (Place.frame offset).Fits base size .w64 := by
  have hinside := h.tidy.inside _ _ hat
  have := hroom.low
  have := hroom.high
  rw [show (AreaUse.save r).extent = 8 from rfl] at hinside
  rw [Place.Fits, Width.size_w64]
  exact ⟨Width.isValid_w64, by omega, by omega⟩

theorem run_prologue (h : e.Sound) (hlow : 0 ≤ (v.regs .sp).toInt) (hhigh : (v.regs .sp).toInt + 8 ≤ v.memory.size)
    (hbound : v.memory.size < 2 ^ 63) :
    v.run e.layout.prologue = .error .stackOverflow ∨
      ∃ w, v.run e.layout.prologue = .ok w ∧ e.Framed ((v.regs .sp).toInt - 8) v.memory.size v w ∧ v.Entered w := by
  rcases View.run_opening e.layout hlow (by omega) hbound with ⟨hopening, -⟩ | ⟨-, u, hopening, hentered, hsp⟩
  · left
    rw [Layout.prologue_eq, View.run_append, hopening]
    rfl
  obtain ⟨hsp, hlow⟩ := hsp h.tidy.size
  have hroom : e.Room ((v.regs .sp).toInt - 8) v.memory.size := ⟨hlow, by omega, hbound⟩
  obtain ⟨w, hrun, hheld, hc⟩ := Layout.run_saves h.saveList (fun x hx => h.save_fits hroom (h.saveList.2 x hx).2.2.2)
    hentered.stands
  have hentered : v.Entered w := by
    -- Areas lie below the frame pointer, where the caller's frame pointer is kept.
    refine hentered.of_changes hc (fun _ => False.elim) ?_
    rintro a ⟨x, hx, hcovers⟩
    have hinside := h.tidy.inside _ _ (h.saveList.2 x hx).2.2.2
    rw [show (AreaUse.save x.1).extent = 8 from rfl] at hinside
    simp only [Place.Covers, cell, Width.size_w64] at hcovers
    omega
  refine .inr ⟨w, ?_, ?_, hentered⟩
  · rw [Layout.prologue_eq, View.run_append, hopening]
    exact hrun
  · exact
      { room := hroom
        stands := hentered.stands
        sp := by rw [hc.regs _ id, hsp]
        link := hentered.link
        above := fun a ha => hentered.above a (by omega)
        saved := by
          intro r hr offset hoffset
          have hmem : (r, { base := .fp, offset }) ∈ e.layout.saves := Layout.mem_saves_iff.2 ⟨hr, offset, hoffset, rfl⟩
          have hgeneral := (h.saveList.2 _ hmem).1
          refine (hheld _ hmem fun y hy hne => ?_).trans ((hc.regs r id).symm.trans (hentered.regs r hgeneral))
          refine h.tidy.disjoint _ _ _ _ (h.saveList.2 y hy).2.2.2 (h.saveList.2 _ hmem).2.2.2 fun huse => hne ?_
          exact AreaUse.save.inj huse
        kept := fun r hr _ =>
          hentered.regs r (h.target.allocatable_general r (h.target.saved_allocatable r hr)) }

end Sound

/-- What a caller finds when a function returns. -/
structure Restores (e : Emission) (base : Int) (start w : View) : Prop where
  sp : (w.regs .sp).toInt = base + 8
  fp : w.regs .fp = start.regs .fp
  kept : ∀ r ∈ e.target.calleeSaved, w.regs r = start.regs r
  above : ∀ a : Nat, base + 8 ≤ a → w.memory.get a = start.memory.get a
  size : w.memory.size = start.memory.size

theorem Framed.run_epilogue (hsound : e.Sound) (h : e.Framed base size start v) (hsize : start.memory.size = size) :
    ∃ w code, e.layout.epilogue = code ++ [.ret] ∧ v.run code = .ok w ∧ e.Restores base start w ∧
      w.regs e.target.result = v.regs e.target.result := by
  have hroom := h.room
  have hlow := hroom.low
  have hhigh := hroom.high
  have hframe := hsound.tidy.size
  obtain ⟨w, code, hcode, hrun, hback⟩ := Layout.run_epilogue hsound.saveList
    (fun x hx => hsound.save_fits hroom (hsound.saveList.2 x hx).2.2.2) h.stands (by omega) (by omega)
  refine ⟨w, code, hcode, hrun, ⟨hback.sp, hback.fp.trans h.link, fun r hr => ?_, fun a ha => ?_, ?_⟩, ?_⟩
  · by_cases hsaved : r ∈ e.layout.saved
    · obtain ⟨offset, hoffset⟩ := Layout.exists_saveOffset? hsaved
      exact (hback.saved (r, { base := .fp, offset }) (Layout.mem_saves_iff.2 ⟨hsaved, offset, hoffset, rfl⟩)).trans
        (h.saved r hsaved offset hoffset)
    · have hgeneral := hsound.target.allocatable_general r (hsound.target.saved_allocatable r hr)
      rw [hback.others r hgeneral hsaved, h.kept r hr hsaved]
  · rw [hback.memory, h.above a ha]
  · rw [hback.memory, h.stands.memory, hsize]
  · refine hback.others _ hsound.target.result_general fun hmem => ?_
    exact hsound.target.result_not_allocatable (hsound.target.saved_allocatable _ (hsound.saved _ hmem))

end Emission

end RegisterCompiler
