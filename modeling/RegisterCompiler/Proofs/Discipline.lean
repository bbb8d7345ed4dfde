import RegisterCompiler.Proofs.Clock
import RegisterCompiler.Proofs.Linkage

/-!
# The discipline of the stack

Functions that call each other share one stack. Code obeys its discipline if each activation links itself to its caller,
writes only below its frame pointer, reads only there and in the arguments that its caller left, and returns with the
stack as it found it. How far the stack pointer is below the frame pointer is then known at every index of the code.

The machine on which such code runs never looks at the last word of the memory before the outermost function returns to
the address that is kept there. Two machines that differ in this word only take the same course up to that point.
-/

namespace RegisterCompiler.Machine

open Asm (Addr Instr Label)
open Success

/-! ## Twins -/

namespace View

/-- Two views that agree but for the last word of the memory, which in the second one is `x`. -/
structure Twin (x : Int64) (v v' : View) : Prop where
  regs : v'.regs = v.regs
  size : v'.memory.size = v.memory.size
  bytes : ∀ a, a + 8 < v.memory.size → v'.memory.get a = v.memory.get a
  last : v'.memory.value .w64 (v.memory.size - 8) = x

namespace Twin

variable {x y : Int64} {v v' : View} {w : Width} {address : Int64} {r : Reg}

variable (h : Twin x v v')
include h

theorem get (r : Reg) : v'.get r = v.get r := by
  rw [View.get, View.get, h.regs]

theorem effective (a : Addr) : v'.effective a = v.effective a := by
  simp only [View.effective, h.get]

theorem set (r : Reg) (y : Int64) : Twin x (v.set r y) (v'.set r y) where
  regs := by simp only [View.set, h.regs]
  size := h.size
  bytes := h.bytes
  last := h.last

theorem read (hw : w.isValid) (hend : address.toInt + w.size + 8 ≤ v.memory.size) :
    v'.read w address = v.read w address := by
  rw [View.read_eq hw, View.read_eq hw, Memory.locate_congr h.size]
  cases hlocate : v.memory.locate address w.bytes w.size with
  | error e => simp only [Except.mapError, Except.map]
  | ok a =>
    obtain ⟨hlow, rfl, -⟩ := v.memory.bounds_of_locate hlocate
    have hvalue : v'.memory.value w address.toInt.toNat = v.memory.value w address.toInt.toNat :=
      Memory.value_congr fun k hk => h.bytes _ (by omega)
    simp only [Except.mapError, Except.map, hvalue]

theorem store {a n : Nat} (hend : a + n + 8 ≤ v.memory.size) (y : UInt64) :
    Twin x { v with memory := v.memory.store a y n } { v' with memory := v'.memory.store a y n } where
  regs := h.regs
  size := by simp only [Memory.size_store, h.size]
  bytes b hb := by
    rw [Memory.size_store] at hb
    dsimp only
    by_cases hin : a ≤ b ∧ b < a + n
    · obtain ⟨k, rfl⟩ := Nat.exists_eq_add_of_le hin.1
      refine UInt8.toNat_inj.1 ?_
      rw [Memory.toNat_get_store _ (by omega), Memory.toNat_get_store _ (by omega)]
    · rw [Memory.get_store_of_outside _ (by omega), Memory.get_store_of_outside _ (by omega), h.bytes b hb]
  last := by
    dsimp only
    rw [Memory.size_store, Memory.value_store_of_outside _ (by omega), h.last]

end Twin

end View

/-! ## Code that obeys -/

/-- What all activations of a function have in common. -/
structure Shape where
  /-- How far the stack pointer is below the frame pointer where a block begins. -/
  size : Int
  room : Int
  block : Nat → Prop

/-- How far an activation has got. -/
inductive Phase where
  /-- The return address is on top of the stack. -/
  | entry
  | linked
  /-- The activation has its frame pointer, and the stack pointer is below it by `depth`. -/
  | body (depth : Int)
  | leaving

/-- An instruction that writes only registers for values and bytes below the frame pointer, and reads only such bytes and
    the arguments. -/
def Modest (room : Int) : Instr → Prop
  | .mov _ d _ | .movImm _ d _ | .sext _ d _ | .zext _ d _ => d.num < 16
  | .alu _ _ d _ _ | .aluImm _ _ d _ _ | .cmp _ _ d _ _ | .cmpImm _ _ d _ _ => d.num < 16
  | .load w d a => d.num < 16 ∧ w.isValid ∧ a = { base := .fp, offset := a.offset } ∧
      (a.offset.toInt + w.size ≤ 0 ∨ 16 ≤ a.offset.toInt ∧ a.offset.toInt + w.size ≤ 16 + room)
  | .store w _ a => w.isValid ∧ a = { base := .fp, offset := a.offset } ∧ a.offset.toInt + w.size ≤ 0
  | _ => False

namespace View

variable {x : Int64} {room : Int} {i : Instr} {u v : View}

theorem toInt_fp_add {offset : Int64} {n : Nat} (hlow : 0 ≤ (v.regs .fp).toInt)
    (hhigh : (v.regs .fp).toInt + 16 ≤ v.memory.size)
    (hroom : room ≤ 0 ∨ (v.regs .fp).toInt + 16 + room + 8 ≤ v.memory.size) (hsize : v.memory.size < 2 ^ 63) (hn : 1 ≤ n)
    (hoffset : offset.toInt + n ≤ 0 ∨ 16 ≤ offset.toInt ∧ offset.toInt + n ≤ 16 + room) :
    (v.regs .fp + offset).toInt = (v.regs .fp).toInt + offset.toInt ∧
      (v.regs .fp).toInt + offset.toInt + n + 8 ≤ v.memory.size := by
  have hmin := offset.le_toInt
  refine ⟨?_, by omega⟩
  rw [toInt_add_of_bounds] <;> omega

theorem effective_fp (v : View) {a : Addr} (ha : a = { base := .fp, offset := a.offset }) :
    v.effective a = .ok (v.regs .fp + a.offset) := by
  rw [ha]
  rfl

/-- What a modest instruction can do: it puts a value into a register, or bytes below the frame pointer; and it does the
    same to every twin. -/
theorem exec_of_modest (hi : Modest room i) (h : v.exec i = .ok u) (hlow : 0 ≤ (v.regs .fp).toInt)
    (hhigh : (v.regs .fp).toInt + 16 ≤ v.memory.size)
    (hroom : room ≤ 0 ∨ (v.regs .fp).toInt + 16 + room + 8 ≤ v.memory.size) (hsize : v.memory.size < 2 ^ 63) :
    (∃ d y, d.num < 16 ∧ u = v.set d y ∧ ∀ v', Twin x v v' → v'.exec i = .ok (v'.set d y)) ∨
      ∃ (a n : Nat) (y : UInt64), a + n ≤ (v.regs .fp).toInt ∧ u = { v with memory := v.memory.store a y n } ∧
        ∀ v', Twin x v v' → v'.exec i = .ok { v' with memory := v'.memory.store a y n } := by
  cases i with
  | mov _ d | sext _ d | zext _ d | cmpImm _ _ d =>
    obtain ⟨y, hy, h⟩ := bind_eq_ok.1 h
    cases (put_general hi _).symm.trans h
    refine .inl ⟨d, _, hi, rfl, fun v' ht => ?_⟩
    simp only [exec, ht.get, hy, bind, Except.bind, put_general hi]
  | movImm w d y =>
    cases (put_general hi _).symm.trans h
    exact .inl ⟨d, _, hi, rfl, fun v' _ => put_general hi _⟩
  | alu op w d r q =>
    obtain ⟨y, hy, h⟩ := bind_eq_ok.1 h
    obtain ⟨z, hz, h⟩ := bind_eq_ok.1 h
    obtain ⟨k, hk, h⟩ := bind_eq_ok.1 h
    cases (put_general hi _).symm.trans h
    refine .inl ⟨d, _, hi, rfl, fun v' ht => ?_⟩
    simp only [exec, ht.get, hy, hz, hk, bind, Except.bind, put_general hi]
  | aluImm op w d r z =>
    obtain ⟨y, hy, h⟩ := bind_eq_ok.1 h
    obtain ⟨k, hk, h⟩ := bind_eq_ok.1 h
    obtain ⟨v₁, hv₁, h⟩ := bind_eq_ok.1 h
    cases (put_general hi _).symm.trans hv₁
    rw [if_neg (Reg.ne_sp hi)] at h
    cases h
    refine .inl ⟨d, _, hi, rfl, fun v' ht => ?_⟩
    simp only [exec, ht.get, hy, hk, bind, Except.bind, put_general hi, if_neg (Reg.ne_sp hi), pure, Except.pure]
  | cmp c w d r q =>
    obtain ⟨y, hy, h⟩ := bind_eq_ok.1 h
    obtain ⟨z, hz, h⟩ := bind_eq_ok.1 h
    cases (put_general hi _).symm.trans h
    refine .inl ⟨d, _, hi, rfl, fun v' ht => ?_⟩
    simp only [exec, ht.get, hy, hz, bind, Except.bind, put_general hi]
  | load w d a =>
    obtain ⟨hd, hw, ha, hoffset⟩ := hi
    obtain ⟨haddress, hend⟩ := toInt_fp_add hlow hhigh hroom hsize (Width.size_of_isValid hw).2.1 hoffset
    have heffective := v.effective_fp ha
    simp only [exec, heffective, bind, Except.bind] at h
    obtain ⟨y, hy, h⟩ := bind_eq_ok.1 h
    cases (put_general hd _).symm.trans h
    refine .inl ⟨d, y, hd, rfl, fun v' ht => ?_⟩
    have hread : v'.read w (v.regs .fp + a.offset) = .ok y := (ht.read hw (by omega)).trans hy
    simp only [exec, ht.effective, heffective, hread, bind, Except.bind, put_general hd]
  | store w r a =>
    obtain ⟨hw, ha, hoffset⟩ := hi
    obtain ⟨haddress, hend⟩ := toInt_fp_add hlow hhigh hroom hsize (Width.size_of_isValid hw).2.1 (.inl hoffset)
    have heffective := v.effective_fp ha
    simp only [exec, heffective, bind, Except.bind] at h
    obtain ⟨y, hy, h⟩ := bind_eq_ok.1 h
    rw [write_eq hw] at h
    obtain ⟨k, hk, h⟩ := map_eq_ok.1 h
    have hlocate := mapError_eq_ok.1 hk
    obtain ⟨hlow', rfl, -⟩ := v.memory.bounds_of_locate hlocate
    cases h
    refine .inr ⟨_, _, _, by omega, rfl, fun v' ht => ?_⟩
    have hlocate' := (Memory.locate_congr ht.size _ _ _).trans hlocate
    simp only [exec, ht.effective, heffective, ht.get, hy, bind, Except.bind]
    rw [write_eq hw, hlocate']
    rfl
  | _ => exact absurd hi id

/-- What a push does, and that it does the same to every twin if it leaves the last word. -/
theorem push_eq_ok {y : Int64} (hlow : 0 ≤ (v.regs .sp).toInt) (hhigh : (v.regs .sp).toInt + 8 ≤ v.memory.size)
    (hsize : v.memory.size < 2 ^ 63) (h : v.push y = .ok u) :
    ∃ a : Nat, (v.regs .sp).toInt = a + 8 ∧ (u.regs .sp).toInt = a ∧ u.memory.value .w64 a = y ∧
      u.memory.size = v.memory.size ∧ (∀ k, a + 8 ≤ k → u.memory.get k = v.memory.get k) ∧
      (∀ r, r ≠ .sp → u.regs r = v.regs r) ∧ ∀ v', Twin x v v' → ∃ u', v'.push y = .ok u' ∧ Twin x u u' := by
  have hpush := push_cases y hlow (by omega) hsize
  rw [h] at hpush
  obtain ⟨hoverflow, -⟩ | ⟨h8, hsub, hok⟩ := hpush
  · cases hoverflow
  cases hok
  refine ⟨((v.regs .sp).toInt - 8).toNat, by omega, ?_, ?_, ?_, fun k hk => ?_, fun r hr => ?_, fun v' ht => ?_⟩
  · rw [regs_set_self, hsub]
    omega
  · rw [memory_set]
    exact (Memory.value_store_of_le _ Width.isValid_w64 (Nat.le_refl 8) (Nat.le_refl 8) _ y).trans (Width.canonical_w64 y)
  · rw [memory_set, Memory.size_store]
  · exact Memory.get_store_of_outside _ (by omega) _
  · exact regs_set_of_ne _ _ hr
  · have hpush' := push_cases (v := v') y (by rwa [ht.regs]) (by rw [ht.regs, ht.size]; omega) (by rwa [ht.size])
    rw [ht.regs] at hpush'
    obtain ⟨-, hlt⟩ | ⟨-, -, hok'⟩ := hpush'
    · omega
    · refine ⟨_, hok', Twin.set ?_ _ _⟩
      have htwin := ht.store (a := ((v.regs .sp).toInt - 8).toNat) (n := 8) (by omega) y.toUInt64
      rwa [ht.regs] at htwin

end View

namespace Image

/-- The code from an index on obeys the discipline in an activation of a shape that has got to a phase, up to where it
    jumps or a block begins. Functions begin where `gate` says. -/
inductive Obeys (img : Image) (gate : Nat → Shape → Prop) (F : Shape) : Phase → Nat → Prop where
  | label {p : Nat} {l : Label} {phase : Phase} (code : img.code[p]? = some (.label l))
      (rest : Obeys img gate F phase (p + 1)) : Obeys img gate F phase p
  | link {p : Nat} (code : img.code[p]? = some (.push .fp)) (rest : Obeys img gate F .linked (p + 1)) :
      Obeys img gate F .entry p
  | frame {p : Nat} (code : img.code[p]? = some (.mov .w64 .fp .sp)) (rest : Obeys img gate F (.body 0) (p + 1)) :
      Obeys img gate F .linked p
  | modest {p : Nat} {i : Instr} {n : Int} (code : img.code[p]? = some i) (modest : Modest F.room i)
      (rest : Obeys img gate F (.body n) (p + 1)) : Obeys img gate F (.body n) p
  | push {p : Nat} {r : Reg} {n : Int} (code : img.code[p]? = some (.push r))
      (rest : Obeys img gate F (.body (n + 8)) (p + 1)) : Obeys img gate F (.body n) p
  | move {p : Nat} {k : Int64} {n : Int} (code : img.code[p]? = some (.aluImm .add .w64 .sp .sp k)) (fits : k.toInt ≤ n)
      (rest : Obeys img gate F (.body (n - k.toInt)) (p + 1)) : Obeys img gate F (.body n) p
  | unwind {p : Nat} {n : Int} (code : img.code[p]? = some (.mov .w64 .sp .fp))
      (rest : Obeys img gate F (.body 0) (p + 1)) : Obeys img gate F (.body n) p
  | unlink {p : Nat} (code : img.code[p]? = some (.pop .fp)) (rest : Obeys img gate F .leaving (p + 1)) :
      Obeys img gate F (.body 0) p
  | ret {p : Nat} (code : img.code[p]? = some .ret) : Obeys img gate F .leaving p
  | block {p : Nat} (block : F.block p) : Obeys img gate F (.body F.size) p
  | jump {p q : Nat} {l : Label} {n : Int} (code : img.code[p]? = some (.jump l)) (target : img.labels.lookup l = some q)
      (there : Obeys img gate F (.body n) q) : Obeys img gate F (.body n) p
  | branch {p q : Nat} {r : Reg} {l : Label} {n : Int}
      (code : img.code[p]? = some (.jumpZero r l) ∨ img.code[p]? = some (.jumpNonzero r l))
      (target : img.labels.lookup l = some q) (there : Obeys img gate F (.body n) q)
      (rest : Obeys img gate F (.body n) (p + 1)) : Obeys img gate F (.body n) p
  | call {p q : Nat} {l : Label} {n : Int} {G : Shape} (code : img.code[p]? = some (.call l))
      (target : img.labels.lookup l = some q) (callee : gate q G) (fits : G.room ≤ n)
      (rest : Obeys img gate F (.body n) (p + 1)) : Obeys img gate F (.body n) p
  | deep {p : Nat} {n : Int} (deep : 2 ^ 63 ≤ n + 16) : Obeys img gate F (.body n) p

/-- All functions and all their blocks obey the discipline. -/
structure Orderly (img : Image) (gate : Nat → Shape → Prop) : Prop where
  small : img.code.size < 2 ^ 63
  entry : ∀ {q F}, gate q F → img.Obeys gate F .entry q
  block : ∀ {q F}, gate q F → ∀ {p}, F.block p →
    (∃ l, img.code[p]? = some (.label l)) ∧ img.Obeys gate F (.body F.size) (p + 1)

/-! ## Stacks in order -/

/-- From the return address at `a` on the memory keeps the activations that wait for a return: for each the index at which
    it goes on, and behind its frame the link to its caller. The frame pointer of the caller is `fp`, and its frame goes
    on for `room` bytes behind the return address. -/
inductive Callers (img : Image) (gate : Nat → Shape → Prop) (m : Memory) :
    (a : Nat) → (fp : Int64) → (room : Int) → Prop where
  | outermost {a : Nat} {fp : Int64} (top : a + 8 = m.size) (final : m.value .w64 a = finalReturn) :
      Callers img gate m a fp 0
  | caller {a b q g : Nat} {F : Shape} {fp link : Int64} {n room : Int} (known : gate g F)
      (code : img.Obeys gate F (.body n) q) (small : q < 2 ^ 63) (address : m.value .w64 a = Int64.ofNat q)
      (base : fp.toInt = b) (depth : (a : Int) + 8 + n = b) (nonneg : 0 ≤ n) (linked : m.value .w64 b = link)
      (rest : Callers img gate m (b + 8) link room) (fits : F.room ≤ room) : Callers img gate m a fp n

/-- The stack is in order for an activation that has got to a phase. -/
inductive InPhase (img : Image) (gate : Nat → Shape → Prop) (F : Shape) (v : View) : Phase → Prop where
  | entry {a : Nat} {room : Int} (sp : (v.regs .sp).toInt = a) (callers : img.Callers gate v.memory a (v.regs .fp) room)
      (fits : F.room ≤ room) : InPhase img gate F v .entry
  | linked {b : Nat} {room : Int} (sp : (v.regs .sp).toInt = b) (link : v.memory.value .w64 b = v.regs .fp)
      (callers : img.Callers gate v.memory (b + 8) (v.regs .fp) room) (fits : F.room ≤ room) : InPhase img gate F v .linked
  | body {b : Nat} {n room : Int} {link : Int64} (fp : (v.regs .fp).toInt = b) (sp : (v.regs .sp).toInt + n = b)
      (low : 0 ≤ (v.regs .sp).toInt) (nonneg : 0 ≤ n) (linked : v.memory.value .w64 b = link)
      (callers : img.Callers gate v.memory (b + 8) link room) (fits : F.room ≤ room) : InPhase img gate F v (.body n)
  | leaving {a : Nat} {room : Int} (sp : (v.regs .sp).toInt = a)
      (callers : img.Callers gate v.memory a (v.regs .fp) room) : InPhase img gate F v .leaving

variable {img : Image} {gate : Nat → Shape → Prop} {F : Shape} {m m' : Memory} {a : Nat} {fp x : Int64} {room n : Int}
  {u v : View} {i : Instr} {G : Shape}

/-- The outermost return address is the last word of the memory, and the others lie below it, with frames behind them. -/
theorem Callers.bounds (h : img.Callers gate m a fp room) :
    a + 8 = m.size ∧ room = 0 ∨ 0 ≤ room ∧ a + 8 + room + 16 ≤ m.size := by
  induction h with
  | outermost top _ => exact .inl ⟨top, rfl⟩
  | caller _ _ _ _ _ depth nonneg _ _ _ ih =>
    refine .inr ⟨nonneg, ?_⟩
    omega

theorem Callers.congr (h : img.Callers gate m a fp room) (hsize : m'.size = m.size)
    (hbytes : ∀ k, a ≤ k → m'.get k = m.get k) : img.Callers gate m' a fp room := by
  have hvalue : ∀ b, a ≤ b → m'.value .w64 b = m.value .w64 b := fun b hb =>
    Memory.value_congr fun k _ => hbytes _ (by omega)
  induction h with
  | outermost top final =>
    exact .outermost (top.trans hsize.symm) ((hvalue _ (Nat.le_refl _)).trans final)
  | @caller a b q g F fp link n room known code small address base depth nonneg linked rest fits ih =>
    have hab : a ≤ b := by omega
    refine .caller known code small ((hvalue a (Nat.le_refl _)).trans address) base depth nonneg
      ((hvalue b hab).trans linked) (ih (fun k hk => hbytes k (by omega)) fun k hk => hvalue k (by omega)) fits

/-! ## Instructions one by one -/

/-- An instruction leads from a view to a phase, and does the same to every twin. -/
def Leads (img : Image) (gate : Nat → Shape → Prop) (F : Shape) (x : Int64) (v : View) (i : Instr) (phase : Phase) :
    Prop :=
  ∀ u, v.exec i = .ok u → img.InPhase gate F u phase ∧ u.memory.size = v.memory.size ∧
    ∀ v', View.Twin x v v' → ∃ u', v'.exec i = .ok u' ∧ View.Twin x u u'

theorem leads_of_set {phase : Phase} {r : Reg} {y : Int64} (hexec : v.exec i = .ok (v.set r y))
    (htwin : ∀ v', View.Twin x v v' → v'.exec i = .ok (v'.set r y)) (h : img.InPhase gate F (v.set r y) phase) :
    img.Leads gate F x v i phase := by
  intro u hu
  cases hexec.symm.trans hu
  exact ⟨h, rfl, fun v' ht => ⟨_, htwin v' ht, ht.set r y⟩⟩

section

variable (h : img.InPhase gate F v (.body n)) (hsize : v.memory.size < 2 ^ 63)
include h hsize

theorem leads_modest (hi : Modest F.room i) : img.Leads gate F x v i (.body n) := by
  -- The registers of the stack are not for values, and what is written lies below the frame pointer.
  intro u hu
  obtain ⟨⟩ | ⟨⟩ | ⟨hfp, hsp, hlow, hnonneg, hlinked, hcallers, hfits⟩ := h
  have hbounds := hcallers.bounds
  rcases View.exec_of_modest hi hu (by omega) (by omega) (by omega) hsize with
    ⟨d, y, hd, rfl, htwin⟩ | ⟨a, k, y, hle, rfl, htwin⟩
  · have hregs : ∀ r : Reg, ¬r.num < 16 → (v.set d y).regs r = v.regs r := fun r hr =>
      View.regs_set_of_ne v y fun hrd => hr (hrd ▸ hd)
    refine ⟨.body ?_ ?_ ?_ hnonneg hlinked hcallers hfits, rfl, fun v' ht => ⟨_, htwin v' ht, ht.set d y⟩⟩
    · rw [hregs _ (by decide), hfp]
    · rw [hregs _ (by decide), hsp]
    · rw [hregs _ (by decide)]
      exact hlow
  · have hsize' : (v.memory.store a y k).size = v.memory.size := Memory.size_store _ _ _ _
    refine ⟨.body hfp hsp hlow hnonneg ?_ (hcallers.congr hsize' fun j hj => ?_) hfits, hsize', fun v' ht =>
      ⟨_, htwin v' ht, ht.store (by omega) y⟩⟩
    · rw [Memory.value_store_of_outside _ (by omega), hlinked]
    · exact Memory.get_store_of_outside _ (by omega) _

theorem leads_push (r : Reg) : img.Leads gate F x v (.push r) (.body (n + 8)) := by
  intro u hu
  obtain ⟨⟩ | ⟨⟩ | ⟨hfp, hsp, hlow, hnonneg, hlinked, hcallers, hfits⟩ := h
  have hbounds := hcallers.bounds
  obtain ⟨y, hy, hu⟩ := bind_eq_ok.1 hu
  obtain ⟨a, hsp', ha, -, hsize', hbytes, hregs, htwin⟩ := View.push_eq_ok (x := x) hlow (by omega) hsize hu
  have hcallers' := hcallers.congr hsize' fun k hk => hbytes k (by omega)
  refine ⟨.body ?_ ?_ ?_ (by omega) ?_ hcallers' hfits, hsize', fun v' ht => ?_⟩
  · rw [hregs _ (by decide), hfp]
  · omega
  · omega
  · rw [← hlinked]
    exact Memory.value_congr fun k _ => hbytes _ (by omega)
  · obtain ⟨u', hu', ht'⟩ := htwin v' ht
    exact ⟨u', bind_eq_ok.2 ⟨y, (ht.get r).trans hy, hu'⟩, ht'⟩

theorem leads_move {k : Int64} (hk : k.toInt ≤ n) :
    img.Leads gate F x v (.aluImm .add .w64 .sp .sp k) (.body (n - k.toInt)) := by
  obtain ⟨⟩ | ⟨⟩ | ⟨hfp, hsp, hlow, hnonneg, hlinked, hcallers, hfits⟩ := h
  have hbounds := hcallers.bounds
  have hmin := k.le_toInt
  have hsum : (v.regs .sp + k).toInt = (v.regs .sp).toInt + k.toInt := by
    rw [toInt_add_of_bounds] <;> omega
  intro u hu
  have hexec := View.exec_addSp v k
  by_cases hneg : v.regs .sp + k < 0
  · rw [if_pos hneg, hu] at hexec
    cases hexec
  have hlow' : 0 ≤ (v.regs .sp + k).toInt := Int.not_lt.1 fun hlt => hneg (Int64.lt_iff_toInt_lt.2 hlt)
  rw [if_neg hneg] at hexec
  refine leads_of_set hexec (fun v' ht => ?_) (.body ?_ ?_ ?_ (by omega) hlinked hcallers hfits) u hu
  · rw [View.exec_addSp, ht.regs, if_neg hneg]
  · rw [View.regs_set_of_ne _ _ (by decide), hfp]
  · rw [View.regs_set_self, hsum]
    omega
  · rwa [View.regs_set_self]

end

theorem exec_mov_w64 {d r : Reg} (hd : d.num.toNat < Reg.count) (hr : r.num.toNat < Reg.count) (v : View) :
    v.exec (.mov .w64 d r) = .ok (v.set d (v.regs r)) := by
  simp only [View.exec, View.get_of_lt hr, View.put_of_lt hd, bind, Except.bind, Width.canonical_w64]

theorem leads_unwind (h : img.InPhase gate F v (.body n)) : img.Leads gate F x v (.mov .w64 .sp .fp) (.body 0) := by
  obtain ⟨⟩ | ⟨⟩ | ⟨hfp, hsp, hlow, hnonneg, hlinked, hcallers, hfits⟩ := h
  refine leads_of_set (exec_mov_w64 (by decide) (by decide) v) (fun v' ht => ?_)
    (.body ?_ ?_ ?_ (Int.le_refl 0) hlinked hcallers hfits)
  · rw [exec_mov_w64 (by decide) (by decide) v', ht.regs]
  · rw [View.regs_set_of_ne _ _ (by decide), hfp]
  · rw [View.regs_set_self, hfp, Int.add_zero]
  · rw [View.regs_set_self, hfp]
    omega

theorem leads_unlink (h : img.InPhase gate F v (.body 0)) (hsize : v.memory.size < 2 ^ 63) :
    img.Leads gate F x v (.pop .fp) .leaving := by
  obtain ⟨⟩ | ⟨⟩ | @⟨b, _, room, link, hfp, hsp, hlow, hnonneg, hlinked, hcallers, hfits⟩ := h
  have hbounds := hcallers.bounds
  have hsum : (v.regs .sp + 8).toInt = b + 8 := by
    rw [toInt_add_of_bounds] <;> rw [toInt_eight] <;> omega
  have hread : v.read .w64 (v.regs .sp) = .ok link := by
    rw [View.read_of_bounds Width.isValid_w64 hsize hlow (by rw [Width.size_w64]; omega), ← hlinked,
      show (v.regs .sp).toInt.toNat = b by omega]
  have hexec : ∀ v' : View, v'.regs .sp = v.regs .sp → v'.read .w64 (v.regs .sp) = .ok link →
      v'.exec (.pop .fp) = .ok ((v'.set .sp (v.regs .sp + 8)).set .fp link) := fun v' hregs hread => by
    simp only [View.exec, hregs, hread, bind, Except.bind]
    exact View.put_of_lt (by decide) link
  intro u hu
  cases (hexec v rfl hread).symm.trans hu
  refine ⟨.leaving ?_ (by rw [View.regs_set_self]; exact hcallers), rfl, fun v' ht => ?_⟩
  · rw [View.regs_set_of_ne _ _ (by decide), View.regs_set_self, hsum]
    omega
  · refine ⟨_, hexec v' (by rw [ht.regs]) ((ht.read Width.isValid_w64 ?_).trans hread), (ht.set _ _).set _ _⟩
    rw [Width.size_w64]
    omega

theorem leads_link (h : img.InPhase gate F v .entry) (hsize : v.memory.size < 2 ^ 63) :
    img.Leads gate F x v (.push .fp) .linked := by
  intro u hu
  obtain ⟨hsp, hcallers, hfits⟩ := h
  have hbounds := hcallers.bounds
  obtain ⟨y, hy, hu⟩ := bind_eq_ok.1 hu
  cases (View.get_fp (v := v)).symm.trans hy
  obtain ⟨b, hsp', hb, hvalue, hsize', hbytes, hregs, htwin⟩ := View.push_eq_ok (x := x) (by omega) (by omega) hsize hu
  have hfp : u.regs .fp = v.regs .fp := hregs _ (by decide)
  refine ⟨.linked hb (hvalue.trans hfp.symm) ?_ hfits, hsize', fun v' ht => ?_⟩
  · rw [hfp, show b + 8 = _ from Int.ofNat.inj (hsp'.symm.trans hsp)]
    exact hcallers.congr hsize' fun k hk => hbytes k (by omega)
  · obtain ⟨u', hu', ht'⟩ := htwin v' ht
    exact ⟨u', bind_eq_ok.2 ⟨_, (ht.get .fp).trans hy, hu'⟩, ht'⟩

theorem leads_frame (h : img.InPhase gate F v .linked) : img.Leads gate F x v (.mov .w64 .fp .sp) (.body 0) := by
  obtain ⟨⟩ | ⟨hsp, hlink, hcallers, hfits⟩ := h
  refine leads_of_set (exec_mov_w64 (by decide) (by decide) v) (fun v' ht => ?_)
    (.body ?_ ?_ ?_ (Int.le_refl 0) hlink hcallers hfits)
  · rw [exec_mov_w64 (by decide) (by decide) v', ht.regs]
  · rw [View.regs_set_self, hsp]
  · rw [View.regs_set_of_ne _ _ (by decide), hsp, Int.add_zero]
  · rw [View.regs_set_of_ne _ _ (by decide), hsp]
    omega

theorem leads_label {phase : Phase} (h : img.InPhase gate F v phase) (l : Label) :
    img.Leads gate F x v (.label l) phase := by
  intro u hu
  cases hu
  exact ⟨h, rfl, fun v' ht => ⟨v', rfl, ht⟩⟩

/-! ## Steps of the machine -/

/-- A machine that runs with its stack in order. -/
structure Steady (img : Image) (gate : Nat → Shape → Prop) (s : State) : Prop where
  running : s.halted = false
  size : s.memory.size < 2 ^ 63
  phase : ∃ g F phase, ∃ p : Nat, gate g F ∧ img.Obeys gate F phase p ∧ s.pc = p ∧ img.InPhase gate F s.view phase

/-- Two machines that are at the same index and differ in the last word of the memory only. -/
structure Twins (x : Int64) (s s' : State) : Prop where
  pc : s'.pc = s.pc
  halted : s'.halted = s.halted
  view : View.Twin x s.view s'.view

variable {s s' t : State} {p q g : Nat} {phase : Phase} {r : Reg} {l : Label}

theorem step_eq_run (img : Image) (i : Instr) (s : State) :
    ∃ s₁ : State, step img i { s with pc := s.pc + 1 } = (Exec.instr img i).run s₁ ∧ s₁.view = s.view ∧
      s₁.pc = s.pc + 1 ∧ s₁.halted = s.halted := by
  refine ⟨_, rfl, ?_⟩
  split <;> exact ⟨rfl, rfl, rfl⟩

theorem exec_of_step (hi : ¬View.Diverts i) (h : step img i { s with pc := s.pc + 1 } = (.ok (), t)) :
    s.view.exec i = .ok t.view ∧ t.pc = s.pc + 1 ∧ t.halted = s.halted := by
  obtain ⟨s₁, hstep, hview, hpc, hhalted⟩ := step_eq_run img i s
  obtain ⟨hexec, hpc', hhalted'⟩ := (View.does_exec img hi).of_run (hstep.symm.trans h)
  exact ⟨hview ▸ hexec, hpc'.trans hpc, hhalted'.trans hhalted⟩

theorem step_of_exec_eq_ok (img : Image) (hi : ¬View.Diverts i) (h : s.view.exec i = .ok u) :
    ∃ t, step img i { s with pc := s.pc + 1 } = (.ok (), t) ∧ t.view = u ∧ t.pc = s.pc + 1 ∧ t.halted = s.halted := by
  obtain ⟨s₁, hstep, hview, hpc, hhalted⟩ := step_eq_run img i s
  obtain ⟨t, ht, htview, hpc', hhalted'⟩ := (View.does_exec img hi).of_ok (hview ▸ h)
  exact ⟨t, hstep.trans ht, htview, hpc'.trans hpc, hhalted'.trans hhalted⟩

/-- What a step comes to for twins: they stay twins, and the stack stays in order. -/
def StaySteady (img : Image) (gate : Nat → Shape → Prop) (x : Int64) (i : Instr) (s' t : State) : Prop :=
  img.Steady gate t ∧ ∃ t', step img i { s' with pc := s'.pc + 1 } = (.ok (), t') ∧ Twins x t t'

namespace Steady

theorem of_leads (h : img.Steady gate s) (ht : Twins x s s') (hi : ¬View.Diverts i) (hknown : gate g F)
    (hleads : img.Leads gate F x s.view i phase) (hpc : s.pc = p) (hrest : img.Obeys gate F phase (p + 1))
    (hdone : step img i { s with pc := s.pc + 1 } = (.ok (), t)) : img.StaySteady gate x i s' t := by
  obtain ⟨hexec, htpc, hthalted⟩ := exec_of_step hi hdone
  obtain ⟨hphase, hsize, htwin⟩ := hleads _ hexec
  obtain ⟨u', hu', htview⟩ := htwin _ ht.view
  obtain ⟨t', ht', rfl, htpc', hthalted'⟩ := step_of_exec_eq_ok img hi hu'
  refine ⟨⟨hthalted.trans h.running, ?_, g, F, phase, p + 1, hknown, hrest, ?_, hphase⟩, t', ht', ?_, ?_, htview⟩
  · exact hsize ▸ h.size
  · rw [htpc, hpc]
    rfl
  · rw [htpc', htpc, ht.pc]
  · rw [hthalted', hthalted, ht.halted]

theorem of_goto (h : img.Steady gate s) (hknown : gate g F) (hphase : img.InPhase gate F s.view phase)
    (hthere : img.Obeys gate F phase q) (hpc : t.pc = q) (hview : t.view = s.view) (hhalted : t.halted = s.halted) :
    img.Steady gate t where
  running := hhalted.trans h.running
  size := (congrArg (·.memory.size) hview).trans_lt h.size
  phase := ⟨g, F, phase, q, hknown, hthere, hpc, hview ▸ hphase⟩

variable (h : img.Steady gate s) (ht : Twins x s s') (hknown : gate g F) (hphase : img.InPhase gate F s.view phase)
include h ht hknown hphase

theorem jump (hl : img.labels.lookup l = some q) (hthere : img.Obeys gate F phase q)
    (hdone : step img (.jump l) { s with pc := s.pc + 1 } = (.ok (), t)) : img.StaySteady gate x (.jump l) s' t := by
  have hrun : ∀ s : State, ∃ t, step img (.jump l) { s with pc := s.pc + 1 } = (.ok (), t) ∧ t.pc = q ∧ t.view = s.view ∧
      t.halted = s.halted := fun s => by
    obtain ⟨s₁, hstep, hview, -, hhalted⟩ := step_eq_run img (.jump l) s
    exact ⟨_, hstep.trans (run_jump hl s₁), rfl, hview, hhalted⟩
  obtain ⟨t₁, ht₁, hpc, hview, hhalted⟩ := hrun s
  cases ht₁.symm.trans hdone
  obtain ⟨t', ht', hpc', hview', hhalted'⟩ := hrun s'
  refine ⟨h.of_goto hknown hphase hthere hpc hview hhalted, t', ht', hpc'.trans hpc.symm, ?_, ?_⟩
  · rw [hhalted', hhalted, ht.halted]
  · rw [hview', hview]
    exact ht.view

theorem branch (test : Int64 → Prop) [DecidablePred test]
    (hi : Exec.instr img i = do if test (← Exec.reg r) then Exec.jump img l) (hl : img.labels.lookup l = some q)
    (hthere : img.Obeys gate F phase q) (hpc : s.pc = p) (hrest : img.Obeys gate F phase (p + 1))
    (hdone : step img i { s with pc := s.pc + 1 } = (.ok (), t)) : img.StaySteady gate x i s' t := by
  by_cases hr : r.num.toNat < Reg.count
  · have hrun : ∀ s : State, ∃ t, step img i { s with pc := s.pc + 1 } = (.ok (), t) ∧
        t.pc = (if test (s.view.regs r) then (q : Int) else s.pc + 1) ∧ t.view = s.view ∧ t.halted = s.halted := by
      intro s
      obtain ⟨s₁, hstep, hview, hpc, hhalted⟩ := step_eq_run img i s
      rw [hi] at hstep
      refine ⟨_, hstep.trans (run_ite_jump test hr s₁ fun _ => hl), ?_, hview, hhalted⟩
      rw [hview, hpc]
    obtain ⟨t₁, ht₁, htpc, hview, hhalted⟩ := hrun s
    cases ht₁.symm.trans hdone
    obtain ⟨t', ht', htpc', hview', hhalted'⟩ := hrun s'
    refine ⟨?_, t', ht', ?_, ?_, ?_⟩
    · by_cases htest : test (s.view.regs r)
      · rw [if_pos htest] at htpc
        exact h.of_goto hknown hphase hthere htpc hview hhalted
      · rw [if_neg htest, hpc] at htpc
        exact h.of_goto hknown hphase hrest htpc hview hhalted
    · rw [htpc', htpc, ht.view.regs, ht.pc]
    · rw [hhalted', hhalted, ht.halted]
    · rw [hview', hview]
      exact ht.view
  · obtain ⟨s₁, hstep, -⟩ := step_eq_run img i s
    rw [hi, View.run_bind, View.gives_reg] at hstep
    simp only [View.get, if_neg hr] at hstep
    cases hstep.symm.trans hdone

end Steady

theorem step_call (hl : img.labels.lookup l = some q) (hpc : s.pc = p) :
    (∃ c t, s.view.push (Int64.ofNat (p + 1)) = .error c ∧ step img (.call l) { s with pc := s.pc + 1 } = (.error c, t)) ∨
      ∃ u t, s.view.push (Int64.ofNat (p + 1)) = .ok u ∧ step img (.call l) { s with pc := s.pc + 1 } = (.ok (), t) ∧
        t.view = u ∧ t.pc = q ∧ t.halted = s.halted := by
  obtain ⟨s₁, hstep, hview, hpc₁, hhalted⟩ := step_eq_run img (.call l) s
  have hrun : (Exec.instr img (.call l)).run s₁ = _ := run_call l (hpc ▸ hpc₁)
  rw [View.run_bind] at hrun
  cases hpush : s.view.push (Int64.ofNat (p + 1)) with
  | error c =>
    obtain ⟨t, ht⟩ := (View.does_push _).of_error (hview ▸ hpush)
    rw [ht] at hrun
    exact .inl ⟨c, t, rfl, hstep.trans hrun⟩
  | ok u =>
    obtain ⟨t, ht, htview, -, hthalted⟩ := (View.does_push _).of_ok (hview ▸ hpush)
    rw [ht] at hrun
    exact .inr ⟨u, _, rfl, hstep.trans (hrun.trans (run_jump hl t)), htview, rfl, hthalted.trans hhalted⟩

theorem step_ret (img : Image) {address : Int64} (hread : s.view.read .w64 (s.view.regs .sp) = .ok address) :
    ∃ t, step img .ret { s with pc := s.pc + 1 } = (.ok (), t) ∧ t.view = s.view.set .sp (s.view.regs .sp + 8) ∧
      (address = finalReturn → t.halted = true) ∧
      (address ≠ finalReturn → t.pc = address.toInt ∧ t.halted = s.halted) := by
  obtain ⟨s₁, hstep, hview, -, hhalted⟩ := step_eq_run img .ret s
  have hrun := hstep.trans (run_ret (by rw [hview]; exact hread))
  have hpop : (s₁.setSp (s₁.sp + 8)).view = s.view.set .sp (s.view.regs .sp + 8) := by
    rw [View.view_setSp, View.sp_eq, hview]
  by_cases hfinal : address = finalReturn
  · rw [if_pos hfinal] at hrun
    exact ⟨_, hrun, hpop, fun _ => rfl, fun hne => absurd hfinal hne⟩
  · rw [if_neg hfinal] at hrun
    exact ⟨_, hrun, hpop, fun h => absurd h hfinal, fun _ => ⟨rfl, hhalted⟩⟩

theorem InPhase.call {y : Int64} (h : img.InPhase gate F v (.body n)) (hsize : v.memory.size < 2 ^ 63)
    (hknown : gate g F) (hrest : img.Obeys gate F (.body n) q) (hsmall : q < 2 ^ 63) (hy : y = Int64.ofNat q)
    (hfits : G.room ≤ n) (hpush : v.push y = .ok u) :
    img.InPhase gate G u .entry ∧ u.memory.size = v.memory.size ∧
      ∀ v', View.Twin x v v' → ∃ u', v'.push y = .ok u' ∧ View.Twin x u u' := by
  obtain ⟨⟩ | ⟨⟩ | ⟨hfp, hsp, hlow, hnonneg, hlinked, hcallers, hroom⟩ := h
  have hbounds := hcallers.bounds
  obtain ⟨a, hsp', ha, hvalue, hsize', hbytes, hregs, htwin⟩ := View.push_eq_ok hlow (by omega) hsize hpush
  have hcaller : img.Callers gate u.memory a (u.regs .fp) n := by
    refine .caller hknown hrest hsmall (hvalue.trans hy) ?_ (by omega) hnonneg ?_
      (hcallers.congr hsize' fun k hk => hbytes k (by omega)) hroom
    · rw [hregs _ (by decide), hfp]
    · rw [← hlinked]
      exact Memory.value_congr fun k _ => hbytes _ (by omega)
  exact ⟨.entry ha hcaller hfits, hsize', htwin⟩

theorem Steady.call (h : img.Steady gate s) (ht : Twins x s s') (horder : img.Orderly gate) (hknown : gate g F)
    (hphase : img.InPhase gate F s.view (.body n)) (hcode : img.code[p]? = some (.call l))
    (hl : img.labels.lookup l = some q) (hcallee : gate q G) (hfits : G.room ≤ n) (hpc : s.pc = p)
    (hrest : img.Obeys gate F (.body n) (p + 1)) (hdone : step img (.call l) { s with pc := s.pc + 1 } = (.ok (), t)) :
    img.StaySteady gate x (.call l) s' t := by
  have hsmall : p + 1 < 2 ^ 63 := by
    have := (Array.getElem?_eq_some_iff.1 hcode).1
    have := horder.small
    omega
  obtain ⟨c, t₁, -, ht₁⟩ | ⟨u, t₁, hu, ht₁, hview, htpc, hhalted⟩ := step_call hl hpc
  · cases ht₁.symm.trans hdone
  cases ht₁.symm.trans hdone
  obtain ⟨hentry, hsize, htwin⟩ := hphase.call h.size hknown hrest hsmall rfl hfits hu
  obtain ⟨u', hu', hview'⟩ := htwin _ ht.view
  obtain ⟨c, t', hc, -⟩ | ⟨u'', t', hu'', ht', htview', htpc', hhalted'⟩ := step_call hl (ht.pc.trans hpc)
  · cases hu'.symm.trans hc
  cases hu'.symm.trans hu''
  subst hview
  refine ⟨⟨hhalted.trans h.running, ?_, q, G, .entry, q, hcallee, horder.entry hcallee, htpc, hentry⟩, t', ht', ?_, ?_, ?_⟩
  · exact hsize ▸ h.size
  · rw [htpc', htpc]
  · rw [hhalted', hhalted, ht.halted]
  · rw [htview']
    exact hview'

/-- The outermost function returns: the machine halts, and its twin goes on at the address in the last word. -/
def Lands (img : Image) (x : Int64) (i : Instr) (s' t : State) : Prop :=
  i = .ret ∧ t.halted = true ∧ ∃ t', step img i { s' with pc := s'.pc + 1 } = (.ok (), t') ∧ t'.pc = x.toInt ∧
    t'.halted = false ∧ t'.view.regs = t.view.regs

theorem Steady.ret (h : img.Steady gate s) (ht : Twins x s s') (hphase : img.InPhase gate F s.view .leaving)
    (hx : x ≠ finalReturn) (hdone : step img .ret { s with pc := s.pc + 1 } = (.ok (), t)) :
    img.StaySteady gate x .ret s' t ∨ img.Lands x .ret s' t := by
  obtain ⟨⟩ | ⟨⟩ | ⟨⟩ | @⟨a, n, hsp, hcallers⟩ := hphase
  have hsize : s.view.memory.size < 2 ^ 63 := h.size
  have hbounds := hcallers.bounds
  have hread : ∀ v' : View, v'.regs = s.view.regs → v'.memory.size = s.view.memory.size →
      v'.read .w64 (v'.regs .sp) = .ok (v'.memory.value .w64 a) := fun v' hregs hsize' => by
    have hw : Width.w64.size = 8 := rfl
    rw [View.read_of_bounds Width.isValid_w64 (by omega) (by rw [hregs]; omega) (by rw [hregs, hsize', hw]; omega), hregs,
      show (s.view.regs .sp).toInt.toNat = a by omega]
  have hsp8 : (s.view.regs .sp + 8).toInt = a + 8 := by
    rw [toInt_add_of_bounds] <;> rw [toInt_eight] <;> omega
  obtain ⟨t₁, ht₁, hview, hfinal, hgoes⟩ := step_ret img (hread _ rfl rfl)
  cases ht₁.symm.trans hdone
  obtain ⟨t', ht', hview', -, hgoes'⟩ := step_ret img (hread _ ht.view.regs ht.view.size)
  have hregs : t'.view.regs = t.view.regs := by
    rw [hview', hview, ht.view.regs]
    simp only [View.set, ht.view.regs]
  cases hcallers with
  | outermost top final =>
    -- The return address is the last word, in which the twins differ.
    have hlast : s'.view.memory.value .w64 a = x := by
      rw [← ht.view.last, ← top, Nat.add_sub_cancel]
    obtain ⟨hpc', hhalted'⟩ := hgoes' (hlast ▸ hx)
    refine .inr ⟨rfl, hfinal final, t', ht', ?_, ?_, hregs⟩
    · rw [hpc', hlast]
    · rw [hhalted', ht.halted, h.running]
  | @caller _ b q g F' _ link _ room known code small address base depth nonneg linked rest fits =>
    have hne : Int64.ofNat q ≠ finalReturn := fun heq => by
      have htoInt := toInt_ofNat_of_bounds small
      rw [heq] at htoInt
      have : (finalReturn : Int64).toInt = -1 := rfl
      omega
    -- The return address lies below the last word, so the twins go on at the same index.
    have hrest := rest.bounds
    have hsame : s'.view.memory.value .w64 a = s.view.memory.value .w64 a :=
      Memory.value_congr fun k (hk : k < 8) => ht.view.bytes _ (by omega)
    obtain ⟨hpc, hhalted⟩ := hgoes (address ▸ hne)
    obtain ⟨hpc', hhalted'⟩ := hgoes' (hsame ▸ address ▸ hne)
    rw [address, toInt_ofNat_of_bounds small] at hpc
    refine .inl ⟨⟨hhalted.trans h.running, ?_, g, F', .body n, q, known, code, hpc, ?_⟩, t', ht', ?_, ?_, ?_⟩
    · exact (congrArg (·.memory.size) hview).trans_lt hsize
    · rw [hview]
      refine .body (b := b) ?_ ?_ ?_ nonneg linked rest fits
      · rw [View.regs_set_of_ne _ _ (by decide), base]
      · rw [View.regs_set_self, hsp8]
        exact depth
      · rw [View.regs_set_self, hsp8]
        omega
    · rw [hpc', hpc, hsame, address, toInt_ofNat_of_bounds small]
    · rw [hhalted', hhalted, ht.halted]
    · rw [hview', hview, ht.view.regs]
      exact ht.view.set _ _

/-- What an instruction does to a machine whose stack is in order: the stack stays in order and a twin stays a twin, or
    the outermost function returns. -/
theorem Steady.step (horder : img.Orderly gate) (h : img.Steady gate s) (ht : Twins x s s') (hx : x ≠ finalReturn)
    (hdue : img.instr? s.pc = some i) (hdone : step img i { s with pc := s.pc + 1 } = (.ok (), t)) :
    img.StaySteady gate x i s' t ∨ img.Lands x i s' t := by
  have hsize : s.view.memory.size < 2 ^ 63 := h.size
  obtain ⟨g, F, phase, p, hknown, hobeys, hpc, hphase⟩ := h.phase
  have hcode : img.code[p]? = some i := by
    have := (bounds_of_instr? hdue).2.2
    rwa [hpc, Int.toNat_natCast] at this
  -- One case for each rule of the discipline; the instruction at the index is the one that the rule is about.
  cases hobeys with
  | label code rest =>
    cases hcode.symm.trans code
    exact .inl (h.of_leads ht id hknown (leads_label hphase _) hpc rest hdone)
  | link code rest =>
    cases hcode.symm.trans code
    exact .inl (h.of_leads ht id hknown (leads_link hphase hsize) hpc rest hdone)
  | frame code rest =>
    cases hcode.symm.trans code
    exact .inl (h.of_leads ht id hknown (leads_frame hphase) hpc rest hdone)
  | modest code modest rest =>
    cases hcode.symm.trans code
    refine .inl (h.of_leads ht ?_ hknown (leads_modest hphase hsize modest) hpc rest hdone)
    cases i with
    | jump | jumpZero | jumpNonzero | call | ret | halt => exact absurd modest id
    | _ => exact id
  | push code rest =>
    cases hcode.symm.trans code
    exact .inl (h.of_leads ht id hknown (leads_push hphase hsize _) hpc rest hdone)
  | move code fits rest =>
    cases hcode.symm.trans code
    exact .inl (h.of_leads ht id hknown (leads_move hphase hsize fits) hpc rest hdone)
  | unwind code rest =>
    cases hcode.symm.trans code
    exact .inl (h.of_leads ht id hknown (leads_unwind hphase) hpc rest hdone)
  | unlink code rest =>
    cases hcode.symm.trans code
    exact .inl (h.of_leads ht id hknown (leads_unlink hphase hsize) hpc rest hdone)
  | ret code =>
    cases hcode.symm.trans code
    exact h.ret ht hphase hx hdone
  | block block =>
    obtain ⟨⟨l, code⟩, rest⟩ := horder.block hknown block
    cases hcode.symm.trans code
    exact .inl (h.of_leads ht id hknown (leads_label hphase _) hpc rest hdone)
  | jump code target there =>
    cases hcode.symm.trans code
    exact .inl (h.jump ht hknown hphase target there hdone)
  | branch code target there rest =>
    rcases code with code | code
    · cases hcode.symm.trans code
      exact .inl (h.branch ht hknown hphase (· = 0) rfl target there hpc rest hdone)
    · cases hcode.symm.trans code
      exact .inl (h.branch ht hknown hphase (· ≠ 0) rfl target there hpc rest hdone)
  | call code target callee fits rest =>
    cases hcode.symm.trans code
    exact .inl (h.call ht horder hknown hphase code target callee fits hpc rest hdone)
  | deep deep =>
    obtain ⟨⟩ | ⟨⟩ | ⟨hfp, hsp, hlow, hnonneg, hlinked, hcallers, hfits⟩ := hphase
    have hbounds := hcallers.bounds
    omega

/-! ## Runs -/

/-- A run that ends with the outermost return has a twin, which goes on at the address in the last word; if the machine
    halts there, the twin ends with the same registers, one step later. -/
theorem Executes.twin {limit limit' k : Nat} {items : List Instr} (h : img.Executes limit s items (.ok (), t))
    (horder : img.Orderly gate) (hs : img.Steady gate s) (hhalt : img.code[q]? = some .halt)
    (ht : Twins (Int64.ofNat q) s s') (hsteps : s'.steps = s.steps + k) (hlimit : t.steps + k < limit') :
    ∃ items' t', img.Executes limit' s' items' (.ok (), t') ∧ t'.view.regs = t.view.regs ∧
      t'.steps = t.steps + k + 1 := by
  have hq : (Int64.ofNat q).toInt = q := by
    have := (Array.getElem?_eq_some_iff.1 hhalt).1
    have := horder.small
    exact toInt_ofNat_of_bounds (by omega)
  have hne : Int64.ofNat q ≠ finalReturn := fun heq => by
    rw [heq] at hq
    have : (finalReturn : Int64).toInt = -1 := rfl
    omega
  generalize hr : ((.ok (), t) : Except Fault Unit × State) = r at h
  induction h generalizing s' with
  | halted halted =>
    rw [hs.running] at halted
    cases halted
  | noCode | stepLimit | failure => cases hr
  | @step s t₁ i items r running due left done rest ih =>
    cases hr
    -- The clocks of the twins differ by `k` throughout, and the end of the run bounds the first of them.
    have hclock : t.steps = t₁.steps + _ := rest.steps_eq
    have hone := steps_step img i { s with pc := s.pc + 1 }
    have hone' := steps_step img i { s' with pc := s'.pc + 1 }
    have hrunning' : s'.halted = false := ht.halted.trans running
    have hdue' : img.instr? s'.pc = some i := by rw [ht.pc, due]
    rw [done] at hone
    dsimp only at hone hone'
    obtain ⟨hsteady, t₁', ht₁', htwins⟩ | ⟨rfl, hhalted, t₁', ht₁', hpc', hhalted', hregs⟩ :=
      hs.step horder ht hne due done
    · rw [ht₁'] at hone'
      dsimp only at hone'
      obtain ⟨items', t', hrun, hend⟩ := ih hsteady htwins (by omega) rfl
      exact ⟨i :: items', t', .step hrunning' hdue' (by omega) ht₁' hrun, hend⟩
    · rw [ht₁'] at hone'
      dsimp only at hone'
      cases rest with
      | halted =>
        have hthere : img.instr? t₁'.pc = some .halt := instr?_of_code (hpc'.trans hq) hhalt
        have hend : Machine.step img .halt { t₁' with pc := t₁'.pc + 1 } =
            (.ok (), { t₁' with pc := t₁'.pc + 1, steps := t₁'.steps + 1, halted := true }) := rfl
        have hrun : img.Executes limit' s' [.ret, .halt] _ :=
          .step hrunning' hdue' (by omega) ht₁' (.step hhalted' hthere (by omega) hend (.halted rfl))
        refine ⟨_, _, hrun, hregs, ?_⟩
        dsimp only
        omega
      | step running => exact absurd (hhalted.symm.trans running) (by decide)

end Image

end RegisterCompiler.Machine
