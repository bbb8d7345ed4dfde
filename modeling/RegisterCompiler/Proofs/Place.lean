import RegisterCompiler.Emission.Moves
import RegisterCompiler.Proofs.Course

/-!
# Values in their places

A value is kept in a register or in the frame, and code moves it from one place to another. A frame is given by its
pointer `base` and by the size of the memory; the places in it are told apart by the bytes that they take.
-/

namespace RegisterCompiler

open Machine (View Cause)

variable {r : Reg}

namespace Machine.View

def cell (base : Int) (offset : Int64) : Nat := (base + offset.toInt).toNat

def held (v : View) (base : Int) (w : Width) : Place → Int64
  | .reg r => v.regs r
  | .frame offset => v.memory.value w (cell base offset)

def value (v : View) (base : Int) (w : Width) : Source → Int64
  | .place p => w.canonical (v.held base w p)
  | .imm x => w.canonical x

/-- The frame pointer and the size of the memory are these. -/
structure Stands (v : View) (base : Int) (size : Nat) : Prop where
  fp : (v.regs .fp).toInt = base
  memory : v.memory.size = size
  bound : size < 2 ^ 63

/-- The second view is the first up to some registers and some bytes. -/
structure Changes (rs : Reg → Prop) (bytes : Nat → Prop) (v w : View) : Prop where
  regs : ∀ r, ¬rs r → w.regs r = v.regs r
  bytes : ∀ a, ¬bytes a → w.memory.get a = v.memory.get a
  size : w.memory.size = v.memory.size

end Machine.View

namespace Place

variable {p q : Place}

/-- A place that an access at a width can have: a register other than the frame pointer, or bytes in the memory, which
    are accessed at machine widths only. -/
def Fits (base : Int) (size : Nat) (w : Width) : Place → Prop
  | .reg r => r.num.toNat < Reg.count ∧ r ≠ .fp
  | .frame offset => w.isValid ∧ 0 ≤ base + offset.toInt ∧ base + offset.toInt + w.size ≤ size

def Covers (base : Int) (w : Width) (a : Nat) : Place → Prop
  | .reg _ => False
  | .frame offset => View.cell base offset ≤ a ∧ a < View.cell base offset + w.size

/-- Two places that have nothing in common. -/
def Disjoint (w w' : Width) : Place → Place → Prop
  | .reg r, .reg s => r ≠ s
  | .frame a, .frame b => a.toInt + w.size ≤ b.toInt ∨ b.toInt + w'.size ≤ a.toInt
  | _, _ => True

instance (w w' : Width) : (p q : Place) → Decidable (p.Disjoint w w' q)
  | .reg r, .reg s => inferInstanceAs (Decidable (r ≠ s))
  | .frame a, .frame b => inferInstanceAs (Decidable (a.toInt + w.size ≤ b.toInt ∨ b.toInt + w'.size ≤ a.toInt))
  | .reg _, .frame _ => isTrue trivial
  | .frame _, .reg _ => isTrue trivial

theorem Disjoint.symm {w w' : Width} (h : p.Disjoint w w' q) : q.Disjoint w' w p := by
  cases p <;> cases q <;> simp only [Disjoint] at h ⊢
  · exact h.symm
  · exact h.symm

theorem Disjoint.not_covers {base : Int} {size a : Nat} {w w' : Width} (h : p.Disjoint w w' q) (hp : p.Fits base size w)
    (hq : q.Fits base size w') (ha : p.Covers base w a) : ¬q.Covers base w' a := by
  rcases p with r | x
  · exact absurd ha id
  rcases q with s | y
  · exact id
  simp only [Disjoint, Fits, Covers, View.cell] at h hp hq ha ⊢
  omega

end Place

namespace Source

def Fits (base : Int) (size : Nat) (w : Width) : Source → Prop
  | .place p => p.Fits base size w
  | .imm _ => True

end Source

theorem Reg.lt_count (h : r.num < 16) : r.num.toNat < Reg.count := by
  have : r.num.toNat < 16 := h
  unfold Reg.count
  omega

theorem Reg.ne_fp (h : r.num < 16) : r ≠ .fp := by
  rintro rfl
  exact absurd h (by decide)

theorem Reg.ne_sp (h : r.num < 16) : r ≠ .sp := by
  rintro rfl
  exact absurd h (by decide)

theorem Reg.usable (h : r.num < 16) : r.num.toNat < Reg.count ∧ r ≠ .fp := ⟨lt_count h, ne_fp h⟩

namespace Machine.View

variable {u v w : View} {base : Int} {size : Nat} {rs rs' : Reg → Prop} {bytes bytes' : Nat → Prop} {wd : Width}
  {offset : Int64}

/-! ## What code changes -/

theorem Changes.refl (v : View) : Changes rs bytes v v := ⟨fun _ _ => rfl, fun _ _ => rfl, rfl⟩

theorem Changes.trans (h : Changes rs bytes u v) (h' : Changes rs bytes v w) : Changes rs bytes u w where
  regs r hr := (h'.regs r hr).trans (h.regs r hr)
  bytes a ha := (h'.bytes a ha).trans (h.bytes a ha)
  size := h'.size.trans h.size

theorem Changes.mono (h : Changes rs bytes u v) (hrs : ∀ r, rs r → rs' r) (hbytes : ∀ a, bytes a → bytes' a) :
    Changes rs' bytes' u v where
  regs r hr := h.regs r (mt (hrs r) hr)
  bytes a ha := h.bytes a (mt (hbytes a) ha)
  size := h.size

theorem changes_set (bytes : Nat → Prop) (v : View) (r : Reg) (x : Int64) : Changes (· = r) bytes v (v.set r x) where
  regs _ hq := regs_set_of_ne v x hq
  bytes _ _ := rfl
  size := rfl

theorem Stands.of_changes (h : v.Stands base size) (hc : Changes rs bytes v w) (hfp : ¬rs .fp) : w.Stands base size where
  fp := by rw [hc.regs _ hfp, h.fp]
  memory := hc.size.trans h.memory
  bound := h.bound

theorem Changes.held_eq (h : Changes rs bytes v w) {p : Place} (hreg : ∀ r, p = .reg r → ¬rs r)
    (hbytes : ∀ a, p.Covers base wd a → ¬bytes a) : w.held base wd p = v.held base wd p := by
  cases p with
  | reg r => exact h.regs r (hreg r rfl)
  | frame offset =>
    refine Memory.value_congr fun k hk => h.bytes _ (hbytes _ ?_)
    exact ⟨Nat.le_add_right _ _, Nat.add_lt_add_left hk _⟩

/-! ## Accesses -/

theorem touched_eq {wd : Width} (h : wd.isValid) : touched wd = wd.size := by
  rcases Width.isValid_iff.1 h with rfl | rfl | rfl | rfl <;> rfl

theorem read_eq (hw : wd.isValid) (v : View) (address : Int64) :
    v.read wd address = ((v.memory.locate address wd.bytes wd.size).mapError Cause.ofAccess).map (v.memory.value wd) := by
  unfold read State.read
  rw [touched_eq hw]
  cases v.memory.locate address wd.bytes wd.size with
  | error c => rfl
  | ok a =>
    simp only [hw, if_true]
    rfl

theorem write_eq (hw : wd.isValid) (v : View) (address x : Int64) :
    v.write wd address x = ((v.memory.locate address wd.bytes wd.size).mapError Cause.ofAccess).map fun a =>
      { v with memory := v.memory.store a x.toUInt64 wd.size } := by
  unfold write State.write
  rw [touched_eq hw]
  cases v.memory.locate address wd.bytes wd.size <;> rfl

theorem read_of_bounds (hw : wd.isValid) {address : Int64} (hsize : v.memory.size < 2 ^ 63) (hlow : 0 ≤ address.toInt)
    (hhigh : address.toInt + wd.size ≤ v.memory.size) :
    v.read wd address = .ok (v.memory.value wd address.toInt.toNat) := by
  rw [read_eq hw, Memory.locate_of_bounds _ wd.toInt_bytes hsize hlow hhigh]
  rfl

theorem write_of_bounds (hw : wd.isValid) {address x : Int64} (hsize : v.memory.size < 2 ^ 63)
    (hlow : 0 ≤ address.toInt) (hhigh : address.toInt + wd.size ≤ v.memory.size) :
    v.write wd address x = .ok { v with memory := v.memory.store address.toInt.toNat x.toUInt64 wd.size } := by
  rw [write_eq hw, Memory.locate_of_bounds _ wd.toInt_bytes hsize hlow hhigh]
  rfl

theorem Changes.read_eq (h : Changes rs (fun _ => False) v w) (hw : wd.isValid) (address : Int64) :
    w.read wd address = v.read wd address := by
  have hvalue : w.memory.value wd = v.memory.value wd := funext fun a => Memory.value_congr fun k _ => h.bytes _ id
  rw [View.read_eq hw, View.read_eq hw, Memory.locate_congr h.size, hvalue]

theorem get_of_lt (h : r.num.toNat < Reg.count) : v.get r = .ok (v.regs r) := if_pos h

theorem put_of_lt (h : r.num.toNat < Reg.count) (x : Int64) : v.put r x = .ok (v.set r x) := if_pos h

theorem get_general (h : r.num < 16) : v.get r = .ok (v.regs r) := get_of_lt (Reg.lt_count h)

theorem put_general (h : r.num < 16) (x : Int64) : v.put r x = .ok (v.set r x) := put_of_lt (Reg.lt_count h) x

theorem get_fp : v.get .fp = .ok (v.regs .fp) := rfl

theorem exec_lea_index {r i : Reg} (hr : r.num < 16) (hi : i.num < 16) (v : View) (scale offset : Int64) :
    v.exec (.lea r { base := .fp, index := some ⟨i, scale⟩, offset }) =
      .ok (v.set r (v.regs .fp + offset + v.regs i * scale)) := by
  have heffective : v.effective { base := .fp, index := some ⟨i, scale⟩, offset } =
      .ok (v.regs .fp + offset + v.regs i * scale) := by
    simp only [effective, get_fp, get_general hi]
    rfl
  simp only [exec, heffective, bind, Except.bind, put_general hr]

theorem Stands.toInt_address (h : v.Stands base size) (hfits : (Place.frame offset).Fits base size wd) :
    (v.regs .fp + offset).toInt = base + offset.toInt := by
  obtain ⟨-, hlow, hhigh⟩ := hfits
  have := h.bound
  rw [toInt_add_of_bounds] <;> rw [h.fp] <;> omega

theorem Stands.exec_store (h : v.Stands base size) (hr : r.num.toNat < Reg.count)
    (hfits : (Place.frame offset).Fits base size wd) :
    v.exec (.store wd r { base := .fp, offset }) =
      .ok { v with memory := v.memory.store (cell base offset) (v.regs r).toUInt64 wd.size } := by
  have haddress := h.toInt_address hfits
  have heffective : v.effective { base := .fp, offset } = .ok (v.regs .fp + offset) := by
    simp only [effective, get_fp]
    rfl
  simp only [exec, heffective, get_of_lt hr, bind, Except.bind]
  rw [write_of_bounds hfits.1 (by rw [h.memory]; exact h.bound) (by rw [haddress]; exact hfits.2.1)
    (by rw [haddress, h.memory]; exact hfits.2.2), haddress]
  rfl

theorem Stands.exec_load (h : v.Stands base size) (hr : r.num.toNat < Reg.count) {source : Source}
    (hfits : source.Fits base size wd) : v.exec (source.load wd r) = .ok (v.set r (v.value base wd source)) := by
  rcases source with (s | offset) | x
  · simp only [Source.load, exec, get_of_lt hfits.1, put_of_lt hr, bind, Except.bind]
    rfl
  · have haddress := h.toInt_address hfits
    have heffective : v.effective { base := .fp, offset } = .ok (v.regs .fp + offset) := by
      simp only [effective, get_fp]
      rfl
    simp only [Source.load, exec, heffective, bind, Except.bind]
    rw [read_of_bounds hfits.1 (by rw [h.memory]; exact h.bound) (by rw [haddress]; exact hfits.2.1)
      (by rw [haddress, h.memory]; exact hfits.2.2), haddress]
    simp only [put_of_lt hr, value, held, Except.ok.injEq]
    rw [show wd.canonical (v.memory.value wd (cell base offset)) = _ from Memory.value_isCanonical _ _ _]
    rfl
  · exact put_of_lt hr _

theorem changes_store (v : View) (x : UInt64) (offset : Int64) :
    Changes rs ((Place.frame offset).Covers base wd) v
      { v with memory := v.memory.store (cell base offset) x wd.size } where
  regs _ _ := rfl
  bytes a ha := Memory.get_store_of_outside _ (by simp only [Place.Covers] at ha; omega) x
  size := Memory.size_store _ _ _ _

theorem held_store (hw : wd.isValid) (v : View) (x : Int64) (offset : Int64) :
    ({ v with memory := v.memory.store (cell base offset) x.toUInt64 wd.size } : View).held base wd (.frame offset) =
      wd.canonical x :=
  Memory.value_store_of_le _ hw (Nat.le_refl _) (Width.size_of_isValid hw).2.2 _ x

theorem canonical_value (v : View) (source : Source) :
    wd.canonical (v.value base wd source) = v.value base wd source := by
  cases source <;> exact Width.canonical_canonical _ _

theorem Stands.run_code_reg (h : v.Stands base size) {dest : Place} {s : Reg} (carry : Reg)
    (hs : (Place.reg s).Fits base size wd) (hdest : dest.Fits base size wd) :
    ∃ w, v.run (Move.code carry ⟨dest, .place (.reg s), wd⟩) = .ok w ∧ w.held base wd dest = wd.canonical (v.regs s) ∧
      Changes (dest = .reg ·) (dest.Covers base wd) v w := by
  rcases dest with r | offset
  · refine ⟨v.set r (v.value base wd (.place (.reg s))), ?_, regs_set_self v r _, ?_⟩
    · simp only [Move.code, run_singleton]
      exact h.exec_load hdest.1 hs
    · exact (changes_set _ v r _).mono (fun q hq => hq ▸ rfl) fun _ ha => ha
  · refine ⟨_, ?_, held_store hdest.1 v (v.regs s) offset, changes_store v _ offset⟩
    simp only [Move.code, run_singleton]
    exact h.exec_store hs.1 hdest

theorem Stands.run_code (h : v.Stands base size) {m : Move} {carry : Reg}
    (hcarry : (Place.reg carry).Fits base size m.width) (hdest : m.dest.Fits base size m.width)
    (hsource : m.source.Fits base size m.width) :
    ∃ w, v.run (m.code carry) = .ok w ∧ w.held base m.width m.dest = v.value base m.width m.source ∧
      Changes (fun r => m.dest = .reg r ∨ r = carry) (m.dest.Covers base m.width) v w := by
  obtain ⟨dest, source, wd⟩ := m
  -- What is in a register needs no other, and anything else goes into the frame through the register `carry`.
  by_cases hreg : ∃ s, source = .place (.reg s)
  · obtain ⟨s, rfl⟩ := hreg
    obtain ⟨w, hrun, hheld, hchanges⟩ := h.run_code_reg carry hsource hdest
    exact ⟨w, hrun, hheld, hchanges.mono (fun _ => .inl) fun _ ha => ha⟩
  rcases dest with r | offset
  · refine ⟨v.set r (v.value base wd source), ?_, regs_set_self v r _, ?_⟩
    · simp only [Move.code, run_singleton]
      exact h.exec_load hdest.1 hsource
    · exact (changes_set _ v r _).mono (fun q hq => .inl (hq ▸ rfl)) fun _ ha => ha
  · have hcode : Move.code carry ⟨.frame offset, source, wd⟩ =
        [source.load wd carry, .store wd carry { base := .fp, offset }] := by
      rcases source with (s | _) | _
      · exact absurd ⟨s, rfl⟩ hreg
      · rfl
      · rfl
    have hset := changes_set ((Place.frame offset).Covers base wd) v carry (v.value base wd source)
    have hstands := h.of_changes hset hcarry.2.symm
    refine ⟨_, ?_, (held_store hdest.1 (v.set carry (v.value base wd source)) _ offset).trans (canonical_value v source),
      (hset.mono (fun _ hr => .inr hr) fun _ ha => ha).trans (changes_store _ _ offset)⟩
    rw [hcode, run, h.exec_load hcarry.1 hsource]
    refine (run_singleton _ _).trans ((hstands.exec_store hcarry.1 hdest).trans ?_)
    rw [regs_set_self]

end Machine.View

end RegisterCompiler
