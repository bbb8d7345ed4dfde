import RegisterCompiler.Proofs.Instructions

/-!
# Steps of an activation

The interpreter and the machine execute a function side by side. `Emission.Tracks` is what the two have in common
before an instruction: the frame is built, the live variables are in their homes, and what was stored in frame
variables is in the frame. An instruction that stays in its block keeps it so (`Emission.Tracks.step`), or fails in both.
-/

namespace RegisterCompiler

open List
open IR (Activation EvalCause MemRef Operand Progress Slot Var)
open Machine (View)
open Machine.View (Changes)

/-- What an activation starts from, in the machine and in the interpreter. -/
structure Origin where
  base : Int
  size : Nat
  start : View
  /-- The end of the stack of the interpreter, below which the frame variables lie. -/
  top : Int
  memory : Memory

namespace Emission

/-- The machine has what an activation needs before the instruction of the index `k`. -/
structure Tracks (e : Emission) (o : Origin) (a : Activation) (k : Nat) (stored : List Nat) (memory : Memory) (v : View) :
    Prop where
  framed : e.Framed o.base o.size o.start v
  function : a.function = e.function
  block : e.function.block? a.blockId = some a.block
  inside : k < a.block.code.length
  rest : a.rest = a.block.code.drop k
  typed : e.Typed a.env
  /-- Phis have taken their values on the way into the block. -/
  holds : e.Holds o.base a.env (e.function.LiveAt · a.block (max k a.block.phis.length)) v
  mirrors : e.Mirrors o.base a.slots stored memory v
  reserved : IR.Reserved e.function.slots o.top a.slots a.sp
  /-- The stack of the interpreter does not outgrow that of the machine by more than half. -/
  depth : 0 ≤ 2 * a.sp.toInt + (o.size - o.base)
  /-- Nothing is changed that belongs to a caller. -/
  untouched : ∀ x : Nat, o.top ≤ x → memory.get x = o.memory.get x

variable {e : Emission} {o : Origin} {a : Activation} {k n : Nat} {stored : List Nat} {memory : Memory} {v w : View}
  {i : IR.Instr} {rest : List IR.Instr} {d : Var} {p : Place} {ref : IR.SlotRef}

namespace Tracks

theorem mem_blocks (h : e.Tracks o a k stored memory v) (hsound : e.Sound) :
    a.block ∈ e.function.blocks ∧ a.block.id = a.blockId :=
  hsound.ready.wellFormed.block?_eq_some_iff.1 h.block

theorem next (h : e.Tracks o a k stored memory v) (hrest : a.rest = i :: rest) :
    a.block.code[k]? = some i ∧ rest = a.block.code.drop (k + 1) := by
  have hdrop : a.block.code.drop k = i :: rest := h.rest.symm.trans hrest
  refine ⟨?_, ?_⟩
  · rw [← head?_drop, hdrop, head?_cons]
  · rw [← tail_drop, hdrop, tail_cons]

variable (h : e.Tracks o a k stored memory v) (hsound : e.Sound) (hrest : a.rest = i :: rest)
include h hsound hrest

theorem phis_le (hphi : i.isPhi = false) : a.block.phis.length ≤ k := by
  obtain ⟨phis, body, last, hshape⟩ := hsound.ready.wellFormed.shape _ (h.mem_blocks hsound).1
  have := mt (hshape.isPhi_iff (h.next hrest).1).2 (by simp [hphi])
  rw [IR.Block.length_phis, hshape.takeWhile_isPhi]
  omega

theorem succ_lt (hterm : i.isTerminator = false) : k + 1 < a.block.code.length := by
  obtain ⟨phis, body, last, hshape⟩ := hsound.ready.wellFormed.shape _ (h.mem_blocks hsound).1
  have := mt (hshape.isTerminator_iff (h.next hrest).1).2 (by simp [hterm])
  have := h.inside
  omega

theorem reads (hphi : i.isPhi = false) (hassigned : ∀ u ∈ i.usedVars, u.id ∈ a.env) {x : Option Operand}
    (hx : x ∈ i.uses) : ∃ y z, x = some y ∧ a.value x = .ok z ∧ e.Reads o.base v y z := by
  obtain ⟨hb, -⟩ := h.mem_blocks hsound
  have hi := (h.next hrest).1
  have hreadable := hsound.ready.wellFormed.readable _ hb i (mem_of_getElem? hi) x hx
  rcases x with _ | (u | ⟨c, wd⟩)
  · exact absurd hreadable id
  · have hused : u ∈ i.usedVars := mem_filterMap.2 ⟨_, hx, rfl⟩
    obtain ⟨z, hz⟩ := Option.isSome_iff_exists.1 (Std.ExtTreeMap.isSome_getElem?_iff_mem.2 (hassigned u hused))
    refine ⟨.var u, z, rfl, ?_, hreadable, h.typed u hreadable z hz, fun p hp => h.holds u hreadable ?_ z hz p hp⟩
    · rw [Activation.value, Std.ExtTreeMap.getD_eq_getD_getElem?, hz]
      rfl
    · rw [Nat.max_eq_left (h.phis_le hsound hrest hphi)]
      exact .read hi (mem_map_of_mem hused)
  · exact ⟨.imm c wd, wd.canonical c, rfl, rfl, hreadable, rfl⟩

theorem assigned (hphi : i.isPhi = false) (hterm : i.isTerminator = false) (hdest : i.dest? = some d)
    (hp : e.home d = .ok p) {x : Int64} (hx : d.width.IsCanonical x) (hheld : w.held o.base d.width p = x)
    (hc : Changes (fun r => r ∈ e.target.scratch ∨ p = .reg r) (p.Covers o.base d.width) v w) :
    e.Tracks o (({ a with rest } : Activation).assign d x) (k + 1) stored memory w := by
  obtain ⟨hb, -⟩ := h.mem_blocks hsound
  obtain ⟨hi, hrest'⟩ := h.next hrest
  have hd : d ∈ e.function.vars := IR.Function.WellFormed.mem_vars_of_dest hb (mem_of_getElem? hi) hdest
  have hphis := h.phis_le hsound hrest hphi
  have hroom := h.framed.room
  refine
    { framed := h.framed.of_changes hc ?_ fun a ha => hsound.private_home hroom hd hp ha
      function := h.function
      block := h.block
      inside := h.succ_lt hsound hrest hterm
      rest := hrest'
      typed := h.typed.insert hd hsound.ready.wellFormed.nodup hx
      holds := h.holds.assign hsound hroom hd hp hheld hc ?_
      mirrors := h.mirrors.of_changes hsound hroom hc fun s offset hat a hlow hhigh =>
        hsound.not_covers_slot hroom hd hp hat hlow hhigh
      reserved := h.reserved
      depth := h.depth
      untouched := h.untouched }
  · rintro r (hr | rfl)
    · exact hsound.free_scratch hr
    · exact hsound.free_home hd hp
  · intro u hu hne
    change e.function.LiveAt u a.block (max (k + 1) a.block.phis.length) at hu
    rw [Nat.max_eq_left (by omega)] at hu ⊢
    refine ⟨.pass hi ?_ hu, hsound.allocation.written _ hb k i d hi hdest u hu hne⟩
    rw [hdest]
    exact fun heq => hne (Option.some.inj heq).symm

theorem phi (hphi : i.isPhi) : e.Tracks o { a with rest } (k + 1) stored memory v := by
  obtain ⟨hi, hrest'⟩ := h.next hrest
  obtain ⟨phis, body, last, hshape⟩ := hsound.ready.wellFormed.shape _ (h.mem_blocks hsound).1
  have hlt : k < a.block.phis.length := by
    rw [IR.Block.length_phis, hshape.takeWhile_isPhi]
    exact (hshape.isPhi_iff hi).1 hphi
  have hterm : i.isTerminator = false := by
    cases i <;> first | rfl | cases hphi
  have hlive := h.holds
  rw [Nat.max_eq_right (Nat.le_of_lt hlt)] at hlive
  exact
    { framed := h.framed
      function := h.function
      block := h.block
      inside := h.succ_lt hsound hrest hterm
      rest := hrest'
      typed := h.typed
      holds := by rwa [Nat.max_eq_right hlt]
      mirrors := h.mirrors
      reserved := h.reserved
      depth := h.depth
      untouched := h.untouched }

end Tracks

/-- What an instruction does in the interpreter, its code does in the machine. -/
def Follows (e : Emission) (o : Origin) (c : IR.Config) (k : Nat) (stored : List Nat) (code : List Asm.Instr) (v : View) :
    Except EvalCause Progress → Prop
  | .ok progress => ∃ c' w, progress = .next c' ∧ c'.callers = c.callers ∧ c'.active.block = c.active.block ∧
      v.run code = .ok w ∧ e.Tracks o c'.active (k + 1) stored c'.memory w
  | .error cause => ∀ s, cause = .scalar s → v.run code = .error (.scalar s)

theorem Tracks.follows_of_computes {c : IR.Config} (h : e.Tracks o c.active k stored c.memory v) (hsound : e.Sound)
    (hrest : c.active.rest = i :: rest) (hphi : i.isPhi = false) (hterm : i.isTerminator = false)
    (hdest : i.dest? = some d) (hp : e.home d = .ok p) (result : Except ScalarError Int64)
    (hresult : ∀ x, result = .ok x → d.width.IsCanonical x) {code : List Asm.Instr}
    (hcode : e.Computes o.base d p v code (result.mapError .scalar)) :
    e.Follows o c k stored code v
      ((result.mapError EvalCause.scalar).map fun x => .next ((c.advance rest).assign d x)) := by
  cases result with
  | error s =>
    obtain ⟨w, hstops, -⟩ := hcode
    rintro s' ⟨⟩
    exact hstops.run_eq
  | ok x =>
    obtain ⟨w, hrun, hheld, hc⟩ := hcode
    exact ⟨_, w, rfl, rfl, rfl, hrun, h.assigned hsound hrest hphi hterm hdest hp (hresult x rfl) hheld hc⟩

/-! ## Accesses to frame variables -/

/-- An access to the frame variable `s`, which begins at `first` in the memory of the interpreter and at `offset` in the
    frame: it stays within the variable, and the two addresses are equally far from its beginning. -/
structure Accesses (e : Emission) (o : Origin) (a : Activation) (v : View) (ref : IR.SlotRef) (n : Nat) (s : Slot)
    (first offset address target : Int64) : Prop where
  slot : e.function.slots[ref.slot.toNat]? = some s
  begins : a.slots[ref.slot.toNat]? = some first
  number : (ref.slot.toNat : Int) = ref.slot
  placed : e.layout.slotOffset? ref.slot = some offset
  area : e.layout.At (.slot s) offset
  reached : a.slotAddress ref = .ok address
  nonneg : 0 ≤ first.toInt
  low : first.toInt ≤ address.toInt
  high : address.toInt + n ≤ first.toInt + s.extent
  below : first.toInt + s.extent ≤ o.top
  meets : target.toInt = o.base + offset.toInt + (address.toInt - first.toInt)
  inside : 0 ≤ target.toInt ∧ target.toInt + n ≤ o.size

theorem bytes?_eq_some {wd : Width} {xs : List Nat} (h : a.bytes? ref wd = some xs) :
    ∃ s first address, a.function.slots[ref.slot.toNat]? = some s ∧ 0 ≤ ref.slot ∧
      a.slots[ref.slot.toNat]? = some first ∧ a.slotAddress ref = .ok address ∧ first.toInt ≤ address.toInt ∧
      address.toInt + wd.size ≤ first.toInt + s.extent ∧ xs = (List.range wd.size).map (address.toInt.toNat + ·) := by
  simp only [Activation.bytes?, Option.bind_eq_bind, Option.bind_eq_some_iff] at h
  obtain ⟨s, hs, first, hfirst, address, haddress, hxs⟩ := h
  split at hxs
  · next hbounds =>
    have hslot : 0 ≤ ref.slot ∧ a.slots[ref.slot.toNat]? = some first := by
      unfold Activation.slotBase at hfirst
      by_cases hneg : ref.slot < 0
      · rw [if_pos hneg] at hfirst
        cases hfirst
      · rw [if_neg hneg] at hfirst
        cases hget : a.slots[ref.slot.toNat]? with
        | none =>
          rw [hget] at hfirst
          cases hfirst
        | some b =>
          rw [hget] at hfirst
          exact ⟨Int.not_lt.1 hneg, congrArg some (Option.some.inj hfirst)⟩
    have hok : a.slotAddress ref = .ok address := by
      cases hax : a.slotAddress ref with
      | error cause =>
        rw [hax] at haddress
        cases haddress
      | ok x =>
        rw [hax] at haddress
        exact congrArg Except.ok (Option.some.inj haddress)
    exact ⟨s, first, address, hs, hslot.1, hslot.2, hok, hbounds.1, hbounds.2, (Option.some.inj hxs).symm⟩
  · cases hxs

theorem slotAddress_eq {first address z : Int64} (hneg : 0 ≤ ref.slot) (hfirst : a.slots[ref.slot.toNat]? = some first)
    (hindex : ∀ y, ref.index = some y → a.value (some y) = .ok z) (h : a.slotAddress ref = .ok address) :
    address = first + ref.offset + if ref.index.isSome then z * ref.scale else 0 := by
  have hbase : a.slotBase ref.slot = .ok first := by
    rw [Activation.slotBase, if_neg (Int.not_lt.2 hneg), hfirst]
  rw [Activation.slotAddress, hbase] at h
  cases hy : ref.index with
  | none =>
    simp only [hy, bind, Except.bind] at h
    have := Except.ok.inj h
    simp [← this]
  | some y =>
    simp only [hy, bind, Except.bind, hindex y hy] at h
    exact (Except.ok.inj h).symm

namespace Tracks

theorem accesses (h : e.Tracks o a k stored memory v) (hsound : e.Sound) {wd : Width} {xs : List Nat}
    (hxs : a.bytes? ref wd = some xs) {z : Int64} (hindex : ∀ y, ref.index = some y → a.value (some y) = .ok z) :
    ∃ s first offset address,
      e.Accesses o a v ref wd.size s first offset address
        (v.regs .fp + offset + ref.offset + if ref.index.isSome then z * ref.scale else 0) ∧
      xs = (List.range wd.size).map (address.toInt.toNat + ·) := by
  obtain ⟨s, first, address, hs, hneg, hfirst, haddress, hlow, hhigh, hxs⟩ := bytes?_eq_some hxs
  rw [h.function] at hs
  have hlt : ref.slot.toNat < e.function.slots.length := (List.getElem?_eq_some_iff.1 hs).1
  obtain ⟨offset, hoffset⟩ := hsound.ready.slot ref.slot ⟨hneg, (Int.toNat_lt hneg).1 hlt⟩
  obtain ⟨s', hs', hat⟩ := hsound.slotAt ref.slot.toNat offset (by rwa [Int.toNat_of_nonneg hneg])
  cases hs.symm.trans hs'
  have hbounds := h.reserved.bounds _ s first hs hfirst
  have hinside := hsound.tidy.inside _ _ hat
  rw [show (AreaUse.slot s).extent = s.extent from rfl] at hinside
  have := h.framed.room.low
  have := h.framed.room.high
  have htarget : v.regs .fp + offset + ref.offset + (if ref.index.isSome then z * ref.scale else 0) =
      v.regs .fp + offset + (address - first) := by
    rw [slotAddress_eq hneg hfirst hindex haddress]
    grind
  have helement : (v.regs .fp + offset + (address - first)).toInt = _ :=
    toInt_element h.framed.stands hbounds.1 hlow (by omega) (by omega)
  refine ⟨s, first, offset, address, ?_, hxs⟩
  exact
    { slot := hs
      begins := hfirst
      number := Int.toNat_of_nonneg hneg
      placed := hoffset
      area := hat
      reached := haddress
      nonneg := hbounds.1
      low := hlow
      high := hhigh
      below := hbounds.2.2
      meets := by rw [htarget, helement]
      inside := by rw [htarget, helement]; omega }

theorem get_of_accesses (h : e.Tracks o a k stored memory v) {s : Slot} {first offset address target : Int64}
    (hacc : e.Accesses o a v ref n s first offset address target) {j : Nat} (hj : j < n)
    (hstored : address.toInt.toNat + j ∈ stored) :
    v.memory.get (target.toInt.toNat + j) = memory.get (address.toInt.toNat + j) := by
  obtain ⟨k', s', b', offset', hs', hb', hoffset', hlow', hhigh', hget⟩ := h.mirrors _ hstored
  have hlow := hacc.low
  have hhigh := hacc.high
  have hnonneg := hacc.nonneg
  have hk : k' = ref.slot.toNat := by
    by_contra hne
    have := h.reserved.disjoint k' ref.slot.toNat s' s b' first hne hs' hacc.slot hb' hacc.begins
    omega
  subst hk
  cases hb'.symm.trans hacc.begins
  rw [hacc.number] at hoffset'
  cases hoffset'.symm.trans hacc.placed
  rw [← hget]
  congr 1
  have := hacc.meets
  have := hacc.inside
  omega

end Tracks

/-! ## Instructions -/

/-- An activation is before an instruction of a regular module, which it executes mindfully. -/
structure Before (e : Emission) (o : Origin) (m : IR.Module) (c : IR.Config) (k : Nat) (stored : List Nat) (v : View)
    (i : IR.Instr) (rest : List IR.Instr) : Prop where
  tracks : e.Tracks o c.active k stored c.memory v
  next : c.active.rest = i :: rest
  regular : ∀ x ∈ i.operands, Operand.IsRegular x
  rule : i.FollowsRule m
  mindful : (c.advance rest).active.Mindful stored i

namespace Before

variable {m : IR.Module} {c : IR.Config} {site : BlockSite} {em : Emitted} {maxDepth : Int} {x y : Option Operand}

section

variable (h : e.Before o m c k stored v i rest) (hsound : e.Sound)
include h hsound

theorem reads (hphi : i.isPhi = false) (hx : x ∈ i.uses) :
    ∃ y z, x = some y ∧ (c.advance rest).active.value x = .ok z ∧ e.Reads o.base v y z :=
  h.tracks.reads hsound h.next hphi (fun u hu => h.mindful.1 u (mem_append_left _ hu)) hx

theorem homed : e.Homed o.base o.size :=
  hsound.homed h.tracks.framed.room

theorem exists_home (hdest : i.dest? = some d) : d ∈ e.function.vars ∧ ∃ p, e.home d = .ok p := by
  have hd : d ∈ e.function.vars := IR.Function.WellFormed.mem_vars_of_dest (h.tracks.mem_blocks hsound).1
    (mem_of_getElem? (h.tracks.next h.next).1) hdest
  exact ⟨hd, hsound.exists_home hd⟩

theorem fits : e.function.Fits c.active.block i :=
  hsound.ready.wellFormed.fits _ (h.tracks.mem_blocks hsound).1 i (mem_of_getElem? (h.tracks.next h.next).1)

end

theorem scalar (h : e.Before o m c k stored v i rest) (hsound : e.Sound) (hi : i.IsScalar) (hphi : i.isPhi = false)
    (hterm : i.isTerminator = false) (hdest : i.dest? = some d) (hcode : e.instr site n i = .ok em) :
    e.Follows o c k stored em.code v ((c.advance rest).step m maxDepth i) := by
  obtain ⟨hd, p, hp⟩ := h.exists_home hsound hdest
  obtain ⟨result, hresult, hstep, hcomputes⟩ := (h.homed hsound).exists_computes h.tracks.framed.stands hi hdest hd hp
    (fun _ => h.reads hsound hphi) (h.fits hsound) hcode m maxDepth
  rw [hstep]
  exact h.tracks.follows_of_computes hsound h.next hphi hterm hdest hp result hresult hcomputes

theorem index (h : e.Before o m c k stored v i rest) (hsound : e.Sound) (hphi : i.isPhi = false) (ref : IR.SlotRef)
    (huse : ∀ x ∈ (MemRef.slot ref).uses, x ∈ i.uses) :
    ∃ z, (∀ y, ref.index = some y → (c.advance rest).active.value (some y) = .ok z) ∧
      ∀ y, ref.index = some y → e.Reads o.base v y z ∧ Operand.IsRegular (some y) := by
  cases hindex : ref.index with
  | none => exact ⟨0, nofun, nofun⟩
  | some y =>
    have hy : some y ∈ i.uses := huse _ (by simp [MemRef.uses, hindex])
    have hregular : Operand.IsRegular (some y) := h.regular _ (by cases i <;> first | exact hy | cases hphi)
    obtain ⟨_, z, ⟨⟩, hvalue, hreads⟩ := h.reads hsound hphi hy
    refine ⟨z, ?_, ?_⟩
    · rintro _ ⟨⟩
      exact hvalue
    · rintro _ ⟨⟩
      exact ⟨hreads, hregular⟩

theorem load (h : e.Before o m c k stored v (.load d (some (.slot ref))) rest) (hsound : e.Sound)
    (hcode : e.instr site n (.load d (some (.slot ref))) = .ok em) :
    e.Follows o c k stored em.code v ((c.advance rest).step m maxDepth (.load d (some (.slot ref)))) := by
  obtain ⟨hd, p, hp⟩ := h.exists_home hsound rfl
  obtain ⟨z, hvalue, hreads⟩ := h.index hsound rfl ref fun _ hx => hx
  obtain ⟨xs, hxs, hstored⟩ := h.mindful.2
  obtain ⟨s, first, offset, address, hacc, rfl⟩ := h.tracks.accesses hsound hxs hvalue
  have haddress : (c.advance rest).active.address (some (.slot ref)) = .ok address := hacc.reached
  rw [IR.Config.step_load (hsound.width hd) haddress]
  cases hlocate : (c.advance rest).memory.locate address d.width.bytes d.width.size with
  | error cause =>
    rintro s hs
    cases cause <;> cases hs
  | ok place =>
    obtain ⟨-, rfl, -⟩ := Memory.bounds_of_locate _ hlocate
    have hloaded := (h.homed hsound).computes_load h.tracks.framed.stands (addresses_slot hacc.placed hreads) hd hp hcode
    -- The bytes that are loaded were stored through the same frame variable, so they are in its area.
    have hsame : v.memory.value d.width _ = c.memory.value d.width address.toInt.toNat :=
      Memory.value_congr fun j hj =>
        h.tracks.get_of_accesses hacc hj (hstored _ (mem_map_of_mem (mem_range.2 hj)))
    have hstands := h.tracks.framed.stands
    rw [View.read_of_bounds (hsound.width hd) (by rw [hstands.memory]; exact hstands.bound) hacc.inside.1
      (by rw [hstands.memory]; exact hacc.inside.2), hsame] at hloaded
    refine h.tracks.follows_of_computes hsound h.next rfl rfl rfl hp (.ok _) ?_ hloaded
    rintro z ⟨⟩
    exact Memory.value_isCanonical _ _ _

theorem store {x : Operand} {xs : List Nat} (h : e.Before o m c k stored v (.store (some x) (some (.slot ref))) rest)
    (hsound : e.Sound) (hcode : e.instr site n (.store (some x) (some (.slot ref))) = .ok em)
    (hxs : (c.advance rest).active.bytes? ref x.width = some xs) :
    e.Follows o c k (xs ++ stored) em.code v ((c.advance rest).step m maxDepth (.store (some x) (some (.slot ref)))) := by
  obtain ⟨_, b, ⟨⟩, hxv, hx⟩ := h.reads hsound rfl (x := some x) (by simp [IR.Instr.uses])
  obtain ⟨z, hvalue, hreads⟩ := h.index hsound rfl ref fun _ hx => mem_cons_of_mem _ hx
  obtain ⟨s, first, offset, address, hacc, rfl⟩ := h.tracks.accesses hsound hxs hvalue
  have haddress : (c.advance rest).active.address (some (.slot ref)) = .ok address := hacc.reached
  have hvalid := (hx.canonical hsound.toPlaced).1
  rw [IR.Config.step_store hvalid hxv haddress]
  cases hlocate : (c.advance rest).memory.locate address x.width.bytes x.width.size with
  | error cause =>
    rintro s hs
    cases cause <;> cases hs
  | ok place =>
    obtain ⟨-, rfl, -⟩ := Memory.bounds_of_locate _ hlocate
    have hstands := h.tracks.framed.stands
    obtain ⟨w, hrun, hget, hc⟩ := (h.homed hsound).run_store hstands hx (addresses_slot hacc.placed hreads)
      (Memory.locate_of_bounds _ x.width.toInt_bytes (by rw [hstands.memory]; exact hstands.bound) hacc.inside.1
        (by rw [hstands.memory]; exact hacc.inside.2)) hcode
    refine ⟨_, w, rfl, rfl, rfl, hrun, ?_⟩
    have hroom := h.tracks.framed.room
    obtain ⟨hi, hrest⟩ := h.tracks.next h.next
    have hphis := h.tracks.phis_le hsound h.next rfl
    have hlow := hacc.low
    have hhigh := hacc.high
    have hmeets := hacc.meets
    have hinside := hacc.inside
    have hnonneg := hacc.nonneg
    have hbelow := hacc.below
    exact
      { framed := h.tracks.framed.of_changes hc (fun r hr => hsound.free_scratch hr) fun a ha =>
          hsound.private_of_at hroom hacc.area (fun _ => AreaUse.noConfusion) (by omega) (by simp only [AreaUse.extent]; omega)
        function := h.tracks.function
        block := h.tracks.block
        inside := h.tracks.succ_lt hsound h.next rfl
        rest := hrest
        typed := h.tracks.typed
        holds := by
          refine h.tracks.holds.of_changes hc (fun u _ hu => ?_) (fun u hu _ r hr hrs => ?_) fun u hu _ p hp a ha hb => ?_
          · change e.function.LiveAt u.id c.active.block (max (k + 1) c.active.block.phis.length) at hu
            rw [Nat.max_eq_left (by omega)] at hu ⊢
            exact .pass hi (Option.some_ne_none _).symm hu
          · exact hsound.home_ne_scratch hu hr r rfl hrs
          · exact hsound.not_covers_slot hroom hu hp hacc.area (by omega) (by omega) ha
        mirrors := by
          refine h.tracks.mirrors.store hsound hroom hacc.slot hacc.begins
            (show e.layout.slotOffset? (ref.slot.toNat : Nat) = some offset by rw [hacc.number, hacc.placed])
            (by omega) (by omega) fun a => ?_
          rw [hget a]
          congr 2
          omega
        reserved := h.tracks.reserved
        depth := h.tracks.depth
        untouched := fun x hx => by
          rw [← h.tracks.untouched x hx]
          exact Memory.get_store_of_outside _ (by omega) _ }

/-- An instruction that stays in its block does the same in the interpreter and in the machine. -/
theorem follows (h : e.Before o m c k stored v i rest) (hsound : e.Sound) (hphi : i.isPhi = false)
    (hterm : i.isTerminator = false) (hcall : ∀ dest callee args, i ≠ .call dest callee args)
    (hcode : e.instr site n i = .ok em) (outer : List (List Nat)) :
    ∃ stored', (c.advance rest).storedAfter (stored :: outer) i = stored' :: outer ∧
      e.Follows o c k stored' em.code v ((c.advance rest).step m maxDepth i) := by
  cases i with
  | binop | cmp => exact ⟨stored, rfl, h.scalar hsound trivial rfl rfl rfl hcode⟩
  | cast op d x => exact ⟨stored, rfl, h.scalar hsound h.rule rfl rfl rfl hcode⟩
  | load d address =>
    rcases address with _ | (ref | _)
    · exact absurd h.rule id
    · exact ⟨stored, rfl, h.load hsound hcode⟩
    · exact absurd h.rule id
  | store x address =>
    rcases address with _ | (ref | _)
    · exact absurd h.rule id
    · obtain ⟨x, -, rfl, -⟩ := h.reads hsound rfl (x := x) (by simp [IR.Instr.uses])
      obtain ⟨xs, hxs, -⟩ := h.mindful.2
      exact ⟨xs ++ stored, by simp [IR.Config.storedAfter, Option.mem_def.1 hxs], h.store hsound hcode hxs⟩
    · exact absurd h.rule id
  | slotAddr d ref => exact absurd h.rule id
  | call dest callee args => exact absurd rfl (hcall dest callee args)
  | phi d edges => cases hphi
  | jump | branch | ret => cases hterm

end Before

end Emission

end RegisterCompiler
