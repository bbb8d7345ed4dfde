import RegisterCompiler.IR.Validity
import RegisterCompiler.Proofs.Success

/-!
# What the check of a function establishes

The check of a function goes through it in several passes and stops at the first defect. What it establishes is
said here without the passes: `Function.WellFormed` lists the facts that the back end relies on, each about the
function as a whole.
-/

namespace RegisterCompiler.IR

open Success List

variable {blocks : List Block} {edges : List PhiEdge} {defined r : List Var} {n : Nat} {α : Type} {dest : Var}

/-- An operand that may be read: a variable of the function, at its width, or a constant of a machine width. -/
def Function.Readable (f : Function) : Option Operand → Prop
  | some (.var v) => v ∈ f.vars
  | some (.imm _ w) => w.isValid
  | none => False

/-- An address that may be used: in a frame variable of the function, or in a register of its own width. -/
def Function.Addressable (f : Function) : Option MemRef → Prop
  | some (.slot ref) => 0 ≤ ref.slot ∧ ref.slot < f.slots.length
  | some (.pointer base _) => base.map Operand.width = some Width.w64
  | none => False

/-- The edges of a phi of the block `b` are the ways into the block, each once, with values of its width. -/
structure Function.PhiFits (f : Function) (b : Block) (dest : Var) (edges : List PhiEdge) : Prop where
  nodup : (edges.map PhiEdge.pred).Nodup
  mem_iff : ∀ p, p ∈ edges.map PhiEdge.pred ↔ p ∈ f.predecessors b.id
  readable : ∀ e ∈ edges, f.Readable e.value
  width : ∀ e ∈ edges, e.value.map Operand.width = some dest.width

/-- The rule that an instruction of the block `b` follows, by its kind. -/
def Function.Fits (f : Function) (b : Block) : Instr → Prop
  | .binop _ dest x y => x.map Operand.width = some dest.width ∧ y.map Operand.width = some dest.width
  | .cmp _ dest x y => x.map Operand.width = y.map Operand.width ∧ dest.width = Width.w8
  | .cast op dest source => ∃ o, source = some o ∧
      if op = .trunc then dest.width.bits < o.width.bits else o.width.bits < dest.width.bits
  | .load _ address => f.Addressable address
  | .store _ address => f.Addressable address
  | .slotAddr dest ref => dest.width = Width.w64 ∧ f.Addressable (some (.slot ref))
  | .phi dest edges => f.PhiFits b dest edges
  | .ret none => f.result = Width.none
  | .ret (some o) => o.width = f.result
  | .call .. | .jump _ | .branch .. => True

namespace Instr

variable {o : Option Operand} {t e id : BlockId}

theorem mem_successors_branch : id ∈ (branch o t e).successors ↔ id = t ∨ id = e := by
  change id ∈ (if t = e then [t] else [t, e]) ↔ _
  split
  · next heq => rw [heq, mem_singleton, or_self]
  · exact mem_pair

theorem ite_mem_successors (p : Prop) [Decidable p] : (if p then t else e) ∈ (branch o t e).successors :=
  mem_successors_branch.2 (ite_eq_or_eq p t e)

end Instr

/-- A block is a run of phis, then instructions of other kinds, then one that ends it. -/
structure Block.Shaped (b : Block) (phis body : List Instr) (last : Instr) : Prop where
  code : b.code = phis ++ body ++ [last]
  phis : ∀ i ∈ phis, i.isPhi
  body : ∀ i ∈ body, i.isPhi = false ∧ i.isTerminator = false
  last : last.isTerminator

namespace Block.Shaped

variable {b : Block} {phis body : List Instr} {last : Instr} {k : Nat}

variable (h : b.Shaped phis body last)
include h

theorem last_isPhi : last.isPhi = false := by
  have := h.last
  cases last <;> simp_all [Instr.isTerminator, Instr.isPhi]

theorem terminator? : b.terminator? = some last := by
  simp [Block.terminator?, h.code, h.last]

theorem successors : b.successors = last.successors := by
  simp [Block.successors, h.terminator?]

theorem takeWhile_isPhi : b.code.takeWhile Instr.isPhi = phis := by
  rw [h.code, append_assoc, takeWhile_append_of_pos h.phis]
  cases body with
  | nil => simp [h.last_isPhi]
  | cons i rest => simp [(h.body i mem_cons_self).1]

theorem dropWhile_isPhi : b.code.dropWhile Instr.isPhi = body ++ [last] := by
  have := takeWhile_append_dropWhile (p := Instr.isPhi) (l := b.code)
  rw [h.takeWhile_isPhi, h.code, append_assoc] at this
  rw [h.code, append_assoc]
  exact append_cancel_left this

theorem length_code : b.code.length = phis.length + body.length + 1 := by
  simp [h.code, Nat.add_assoc]

theorem isPhi_iff {i : Instr} (hi : b.code[k]? = some i) : i.isPhi ↔ k < phis.length := by
  rw [h.code, append_assoc] at hi
  by_cases hk : k < phis.length
  · rw [getElem?_append_left hk] at hi
    exact iff_of_true (h.phis i (mem_of_getElem? hi)) hk
  · rw [getElem?_append_right (by omega)] at hi
    refine iff_of_false ?_ hk
    rcases mem_append.1 (mem_of_getElem? hi) with hbody | hlast
    · simp [(h.body i hbody).1]
    · simp [mem_singleton.1 hlast, h.last_isPhi]

theorem isTerminator_iff {i : Instr} (hi : b.code[k]? = some i) : i.isTerminator ↔ k + 1 = b.code.length := by
  rw [h.length_code]
  rw [h.code] at hi
  by_cases hk : k < (phis ++ body).length
  · rw [getElem?_append_left hk] at hi
    rw [length_append] at hk
    refine iff_of_false ?_ (by omega)
    rcases mem_append.1 (mem_of_getElem? hi) with hphi | hbody
    · have := h.phis i hphi
      cases i <;> simp_all [Instr.isPhi, Instr.isTerminator]
    · simp [(h.body i hbody).2]
  · rw [getElem?_append_right (by omega), getElem?_singleton] at hi
    rw [length_append] at hk hi
    split at hi
    · cases hi
      exact iff_of_true h.last (by omega)
    · cases hi

end Block.Shaped

/-- What the back end relies on. -/
structure Function.WellFormed (f : Function) : Prop where
  entry : (f.block? f.entry).isSome
  result : f.result = Width.none ∨ f.result.isValid
  slot : ∀ (k : Nat) (s : Slot), f.slots[k]? = some s → s.id = k ∧ 0 < s.count ∧ s.element.isValid
  width : ∀ v ∈ f.vars, v.width.isValid
  nodup : (f.vars.map Var.id).Nodup
  block : ∀ (k : Nat) (b : Block), f.blocks[k]? = some b → b.id = k
  labels : (f.blocks.map Block.label).Nodup
  shape : ∀ b ∈ f.blocks, ∃ phis body last, b.Shaped phis body last
  target : ∀ b ∈ f.blocks, ∀ s ∈ b.successors, (f.block? s).isSome
  entered : ∀ b ∈ f.blocks, f.predecessors b.id = [] ↔ b.id = f.entry
  readable : ∀ b ∈ f.blocks, ∀ i ∈ b.code, ∀ o ∈ i.uses, f.Readable o
  fits : ∀ b ∈ f.blocks, ∀ i ∈ b.code, f.Fits b i

theorem Function.WellFormed.width_readable {f : Function} (h : f.WellFormed) {o : Operand} (ho : f.Readable (some o)) :
    o.width.isValid := by
  cases o with
  | var v => exact h.width v ho
  | imm x w => exact ho

/-! ## The passes of the check -/

theorem require_eq_ok {c : Prop} [Decidable c] {d : Defect} {u : Unit} : require c d = .ok u ↔ c := by
  unfold require
  split <;> simp_all

theorem located_eq_ok {f : Function} {block : Option String} {x : Except Defect α} {a : α} :
    located f block x = .ok a ↔ x = .ok a := by
  cases x <;> simp [located]

theorem definedWidth?_eq_none_iff {defined : List Var} {id : VarId} :
    definedWidth? defined id = none ↔ ∀ v ∈ defined, v.id ≠ id := by
  simp [definedWidth?]

theorem definedWidth?_eq_some_iff {defined : List Var} (hnodup : (defined.map Var.id).Nodup) {id : VarId}
    {w : Width} : definedWidth? defined id = some w ↔ ⟨id, w⟩ ∈ defined := by
  unfold definedWidth?
  rw [Option.map_eq_some_iff]
  constructor
  · rintro ⟨v, hv, rfl⟩
    have hid : v.id = id := by simpa using find?_some hv
    exact hid ▸ mem_of_find?_eq_some hv
  · intro hmem
    cases hfind : defined.find? (·.id == id) with
    | none =>
      have := find?_eq_none.1 hfind _ hmem
      simp at this
    | some v =>
      have hid : v.id = id := by simpa using find?_some hfind
      have hv : v = ⟨id, w⟩ := inj_on_of_nodup_map hnodup (mem_of_find?_eq_some hfind) hmem hid
      exact ⟨v, rfl, by rw [hv]⟩

theorem define_eq_ok {v : Var} :
    define defined v = .ok r ↔
      v.width.isValid ∧ (∀ u ∈ defined, u.id ≠ v.id) ∧ defined ++ [v] = r := by
  simp only [define, bind_eq_ok, require_eq_ok, pure_eq_ok, Option.isNone_iff_eq_none,
    definedWidth?_eq_none_iff, exists_and_left, exists_const]

/-- Variables are defined one after the other, each at a machine width and under a new number. -/
theorem foldlM_define_eq_ok {vs defined r : List Var} (hnodup : (defined.map Var.id).Nodup) :
    vs.foldlM define defined = .ok r ↔
      (∀ v ∈ vs, v.width.isValid) ∧ ((defined ++ vs).map Var.id).Nodup ∧ defined ++ vs = r := by
  induction vs generalizing defined with
  | nil => simp [pure_eq_ok, hnodup]
  | cons v vs ih =>
    rw [foldlM_cons, bind_eq_ok]
    constructor
    · rintro ⟨_, hdef, hrest⟩
      obtain ⟨hwidth, hnew, rfl⟩ := define_eq_ok.1 hdef
      have hnodup' : ((defined ++ [v]).map Var.id).Nodup := by
        simpa [nodup_append, hnodup] using hnew
      obtain ⟨hwidths, hall, rfl⟩ := (ih hnodup').1 hrest
      rw [append_assoc, singleton_append] at hall ⊢
      exact ⟨forall_mem_cons.2 ⟨hwidth, hwidths⟩, hall, rfl⟩
    · rintro ⟨hwidths, hall, rfl⟩
      have hnodup' : ((defined ++ [v]).map Var.id).Nodup :=
        hall.sublist (((singleton_sublist.2 mem_cons_self).append_left defined).map Var.id)
      have hnew : ∀ u ∈ defined, u.id ≠ v.id := by
        simpa [nodup_append, hnodup] using hnodup'
      refine ⟨_, define_eq_ok.2 ⟨hwidths v mem_cons_self, hnew, rfl⟩, (ih hnodup').2 ⟨?_, ?_, ?_⟩⟩
      · exact fun u hu => hwidths u (mem_cons_of_mem v hu)
      · rwa [append_assoc]
      · rw [append_assoc, singleton_append]

theorem checkSlots_eq_ok {slots : List Slot} {u : Unit} :
    checkSlots n slots = .ok u ↔
      ∀ (k : Nat) (s : Slot), slots[k]? = some s → s.id = (n + k : Nat) ∧ 0 < s.count ∧ s.element.isValid := by
  induction slots generalizing n with
  | nil => simp [checkSlots]
  | cons s rest ih =>
    simp only [checkSlots, bind_eq_ok, require_eq_ok, ih, exists_and_left, exists_const]
    constructor
    · rintro ⟨hid, hshape, hrest⟩ k t ht
      cases k with
      | zero => cases ht; exact ⟨hid, hshape⟩
      | succ k =>
        have := hrest k t ht
        rwa [Nat.add_right_comm, Nat.add_assoc] at this
    · intro h
      refine ⟨(h 0 s rfl).1, (h 0 s rfl).2, fun k t ht => ?_⟩
      have := h (k + 1) t ht
      rwa [Nat.add_right_comm, Nat.add_assoc]

theorem checkOrder_true (code : List Instr) : checkOrder true code = checkOrder false (code.dropWhile Instr.isPhi) := by
  induction code with
  | nil => rfl
  | cons i rest ih => cases h : i.isPhi <;> simp [checkOrder, h, require, ih, bind, Except.bind]

theorem checkOrder_false_eq_ok {code : List Instr} :
    checkOrder false code = .ok () ↔
      (∀ i ∈ code, i.isPhi = false) ∧ ∀ i ∈ code.dropLast, i.isTerminator = false := by
  induction code with
  | nil => simp [checkOrder]
  | cons i rest ih =>
    cases hphi : i.isPhi
    · simp only [checkOrder, hphi, Bool.false_eq_true, if_false, bind_eq_ok, require_eq_ok, ih, exists_and_left,
        exists_const, mem_cons, forall_eq_or_imp, true_and]
      cases rest with
      | nil => simp
      | cons j rest => simp [and_left_comm]
    · simp [checkOrder, hphi, bind_eq_ok, require_eq_ok]

theorem checkShape_eq_ok {f : Function} {b : Block} {u : Unit} :
    checkShape f b = .ok u ↔
      (∃ phis body last, b.Shaped phis body last) ∧ ∀ s ∈ b.successors, (f.block? s).isSome := by
  simp only [checkShape, bind_eq_ok, require_eq_ok, checkOrder_true, exists_and_left, exists_const]
  constructor
  · rintro ⟨_, _, horder, hend⟩
    obtain ⟨hphi, hbody⟩ := checkOrder_false_eq_ok.1 horder
    cases hterm : b.terminator? with
    | none => simp [hterm] at hend
    | some last =>
      obtain ⟨hlast, hisTerm⟩ := Option.filter_eq_some_iff.1 hterm
      -- The last instruction is no phi, so it is not among those dropped.
      have hnotPhi : last.isPhi = false := by cases last <;> simp_all [Instr.isTerminator, Instr.isPhi]
      have hrest : b.code.dropWhile Instr.isPhi ≠ [] := by
        intro hnil
        have := dropWhile_eq_nil_iff.1 hnil last (mem_of_getLast? hlast)
        simp [hnotPhi] at this
      have hlastRest : (b.code.dropWhile Instr.isPhi).getLast hrest = last := by
        have hsuffix := dropWhile_suffix Instr.isPhi (l := b.code)
        rw [hsuffix.getLast hrest, ← Option.some_inj, ← getLast?_eq_some_getLast, hlast]
      have hsplit := dropLast_append_getLast hrest
      have hshaped : b.Shaped (b.code.takeWhile Instr.isPhi) (b.code.dropWhile Instr.isPhi).dropLast last := by
        refine ⟨?_, fun i hi => mem_takeWhile_imp hi, fun i hi => ⟨?_, hbody i hi⟩, hisTerm⟩
        · rw [append_assoc, ← hlastRest, hsplit, takeWhile_append_dropWhile]
        · exact hphi i (dropLast_subset _ hi)
      rw [hterm] at hend
      exact ⟨⟨_, _, _, hshaped⟩, by simpa only [hshaped.successors, forM_eq_ok, require_eq_ok] using hend⟩
  · rintro ⟨⟨phis, body, last, h⟩, htarget⟩
    refine ⟨by simp [h.code], (), ?_, ?_⟩
    · rw [h.dropWhile_isPhi, checkOrder_false_eq_ok]
      simpa [or_imp, forall_and, h.last_isPhi] using h.body
    · rw [h.successors] at htarget
      simpa only [h.terminator?, forM_eq_ok, require_eq_ok] using htarget

theorem checkOperand_eq_ok {f : Function} (hnodup : (f.vars.map Var.id).Nodup) {o : Option Operand} {u : Unit} :
    checkOperand f.vars o = .ok u ↔ f.Readable o := by
  cases o with
  | none => simp [checkOperand, Function.Readable]
  | some o =>
    cases o with
    | imm value w => simp [checkOperand, Function.Readable, require_eq_ok]
    | var v =>
      rw [Function.Readable, ← definedWidth?_eq_some_iff hnodup]
      cases h : definedWidth? f.vars v.id <;> simp [checkOperand, h, require_eq_ok]

theorem checkAddress_eq_ok {f : Function} {address : Option MemRef} {u : Unit} :
    checkAddress f address = .ok u ↔ f.Addressable address := by
  cases address with
  | none => simp [checkAddress, Function.Addressable]
  | some address => cases address <;> simp [checkAddress, Function.Addressable, require_eq_ok]

theorem checkEdges_eq_ok {f : Function} (hnodup : (f.vars.map Var.id).Nodup) {seen : List BlockId} {u : Unit} :
    checkEdges f.vars dest seen edges = .ok u ↔
      (edges.map PhiEdge.pred).Nodup ∧ (∀ e ∈ edges, e.pred ∉ seen) ∧
        ∀ e ∈ edges, f.Readable e.value ∧ e.value.map Operand.width = some dest.width := by
  induction edges generalizing seen with
  | nil => simp [checkEdges]
  | cons e rest ih =>
    obtain ⟨pred, value⟩ := e
    simp only [checkEdges, bind_eq_ok, require_eq_ok, checkOperand_eq_ok hnodup, exists_and_left, exists_const,
      map_cons, nodup_cons, forall_mem_cons, mem_map]
    cases value with
    | none => simp [Function.Readable]
    | some o =>
      simp only [bind_eq_ok, require_eq_ok, ih, exists_and_left, exists_const, mem_cons, Option.map_some,
        Option.some.injEq]
      grind

/-- A list without repetitions that is as long as another one and has all of its members has no others. -/
theorem mem_iff_of_subset_of_length_eq {l r : List α} (hnodup : r.Nodup) (hlen : l.length = r.length) (hsub : r ⊆ l)
    (a : α) : a ∈ l ↔ a ∈ r :=
  ((hnodup.subperm hsub).perm_of_length_le hlen.le).mem_iff.symm

theorem Function.predecessors_nodup {f : Function} (h : (f.blocks.map Block.id).Nodup) (id : BlockId) :
    (f.predecessors id).Nodup :=
  h.sublist (filter_sublist.map Block.id)

theorem checkPhi_eq_ok {f : Function} (hvars : (f.vars.map Var.id).Nodup) (hblocks : (f.blocks.map Block.id).Nodup)
    {b : Block} {u : Unit} : checkPhi f f.vars b dest edges = .ok u ↔ f.PhiFits b dest edges := by
  simp only [checkPhi, bind_eq_ok, require_eq_ok, checkEdges_eq_ok hvars, forM_eq_ok, exists_and_left, exists_const]
  constructor
  · rintro ⟨hlen, ⟨hnodup, -, hvalue⟩, hmem⟩
    refine ⟨hnodup, ?_, fun e he => (hvalue e he).1, fun e he => (hvalue e he).2⟩
    exact mem_iff_of_subset_of_length_eq (f.predecessors_nodup hblocks b.id) (by simpa using hlen) hmem
  · intro h
    have hperm := (perm_ext_iff_of_nodup h.nodup (f.predecessors_nodup hblocks b.id)).2 h.mem_iff
    exact ⟨by simpa using hperm.length_eq, ⟨h.nodup, by simp, fun e he => ⟨h.readable e he, h.width e he⟩⟩,
      fun p hp => (h.mem_iff p).2 hp⟩

theorem checkInstr_eq_ok {f : Function} (hvars : (f.vars.map Var.id).Nodup) (hblocks : (f.blocks.map Block.id).Nodup)
    {b : Block} {i : Instr} {u : Unit} :
    checkInstr f f.vars b i = .ok u ↔ (∀ o ∈ i.uses, f.Readable o) ∧ f.Fits b i := by
  simp only [checkInstr, bind_eq_ok, forM_eq_ok, checkOperand_eq_ok hvars, exists_and_left, exists_const]
  refine and_congr_right fun _ => ?_
  cases i with
  | cast op dest source => cases source <;> simp [Function.Fits, require_eq_ok]
  | phi dest edges => exact checkPhi_eq_ok hvars hblocks
  | ret value => cases value <;> exact require_eq_ok
  | slotAddr dest ref =>
    simp only [bind_eq_ok, require_eq_ok, checkAddress_eq_ok, exists_and_left, exists_const, Function.Fits]
  | cmp cond dest x y => simp only [bind_eq_ok, require_eq_ok, exists_and_left, exists_const, Function.Fits]
  | binop op dest x y => exact require_eq_ok
  | load | store => exact checkAddress_eq_ok
  | call | jump | branch => simp [Function.Fits, pure_eq_ok]

theorem checkEntered_eq_ok {f : Function} {b : Block} {u : Unit} :
    checkEntered f b = .ok u ↔ (f.predecessors b.id = [] ↔ b.id = f.entry) := by
  unfold checkEntered
  split <;> simp_all [require_eq_ok]

/-- What the pass over the blocks from the index `n` on establishes, and the variables that it collects. -/
theorem checkBlocks_eq_ok {f : Function} {labels : List String} (hnodup : (defined.map Var.id).Nodup) :
    checkBlocks f n labels defined blocks = .ok r ↔
      (∀ (k : Nat) (b : Block), blocks[k]? = some b → b.id = (n + k : Nat)) ∧
      ((blocks.map Block.label).Nodup ∧ ∀ b ∈ blocks, b.label ∉ labels) ∧
      (∀ b ∈ blocks, (∃ phis body last, b.Shaped phis body last) ∧ ∀ s ∈ b.successors, (f.block? s).isSome) ∧
      (∀ v ∈ blocks.flatMap fun b => b.code.filterMap Instr.dest?, v.width.isValid) ∧
      ((defined ++ blocks.flatMap fun b => b.code.filterMap Instr.dest?).map Var.id).Nodup ∧
      defined ++ (blocks.flatMap fun b => b.code.filterMap Instr.dest?) = r := by
  induction blocks generalizing n labels defined with
  | nil => simp [checkBlocks, hnodup]
  | cons b rest ih =>
    simp only [checkBlocks, bind_eq_ok, located_eq_ok, require_eq_ok, checkShape_eq_ok, exists_and_left, exists_const,
      foldlM_define_eq_ok hnodup, flatMap_cons]
    constructor
    · rintro ⟨defs, ⟨hid, hlabel, hshape, hwidths, hnodup', rfl⟩, hrest⟩
      obtain ⟨hids, ⟨hlabels, hnew⟩, hshapes, hwidths', hall, rfl⟩ := (ih hnodup').1 hrest
      refine ⟨?_, ⟨?_, ?_⟩, forall_mem_cons.2 ⟨hshape, hshapes⟩, ?_, ?_, ?_⟩
      · rintro (_ | k) c hc
        · cases hc; exact hid
        · rw [hids k c hc, Nat.add_right_comm, Nat.add_assoc]
      · exact nodup_cons.2 ⟨by simpa using fun c hc h => hnew c hc (by simp [h]), hlabels⟩
      · exact forall_mem_cons.2 ⟨hlabel, fun c hc h => hnew c hc (mem_cons_of_mem _ h)⟩
      · exact forall_mem_append.2 ⟨hwidths, hwidths'⟩
      · rwa [← append_assoc]
      · rw [← append_assoc]
    · rintro ⟨hids, ⟨hlabels, hnew⟩, hshapes, hwidths, hall, rfl⟩
      obtain ⟨hwidth, hwidths'⟩ := forall_mem_append.1 hwidths
      obtain ⟨hlabel, hlabels'⟩ := nodup_cons.1 hlabels
      rw [← append_assoc] at hall
      have hnodup' := hall.sublist ((sublist_append_left _ _).map Var.id)
      refine ⟨_, ⟨hids 0 b rfl, hnew b mem_cons_self, hshapes b mem_cons_self, hwidth, hnodup', rfl⟩,
        (ih hnodup').2 ⟨?_, ⟨hlabels', ?_⟩, ?_, hwidths', hall, append_assoc _ _ _⟩⟩
      · intro k c hc
        rw [hids (k + 1) c hc, Nat.add_right_comm, Nat.add_assoc]
      · intro c hc h
        rcases mem_cons.1 h with heq | hmem
        · exact hlabel (heq ▸ mem_map_of_mem hc)
        · exact hnew c (mem_cons_of_mem b hc) hmem
      · exact fun c hc => hshapes c (mem_cons_of_mem b hc)

theorem nodup_ids_of_index (h : ∀ (k : Nat) (b : Block), blocks[k]? = some b → b.id = k) :
    (blocks.map Block.id).Nodup := by
  have hids : blocks.map Block.id = (List.range blocks.length).map Int.ofNat := by
    refine ext_getElem (by simp) fun k hk _ => ?_
    simp only [length_map] at hk
    simpa using h k _ (getElem?_eq_getElem hk)
  rw [hids]
  exact nodup_range.map fun _ _ => Int.ofNat.inj

/-- The check accepts exactly the functions that are well formed. -/
theorem Function.verify_eq_ok {f : Function} {u : Unit} : f.verify = .ok u ↔ f.WellFormed := by
  simp only [Function.verify, bind_eq_ok, located_eq_ok, require_eq_ok, forM_eq_ok, checkSlots_eq_ok,
    foldlM_define_eq_ok (show (([] : List Var).map Var.id).Nodup from nodup_nil), nil_append,
    Nat.zero_add, checkEntered_eq_ok, exists_and_left, exists_const]
  constructor
  · rintro ⟨params, ⟨-, hentry, hresult, hslots, hparams, hnodup, rfl⟩, vars, hblocks, hinstrs⟩
    obtain ⟨hids, ⟨hlabels, -⟩, hshapes, hwidths, hall, rfl⟩ := (checkBlocks_eq_ok hnodup).1 hblocks
    simp only [Nat.zero_add] at hids
    have hcheck : ∀ b ∈ f.blocks, ∀ i ∈ b.code, (∀ o ∈ i.uses, f.Readable o) ∧ f.Fits b i :=
      fun b hb i hi => (checkInstr_eq_ok hall (nodup_ids_of_index hids)).1 ((hinstrs b hb).2 i hi)
    exact {
      entry := hentry
      result := hresult
      slot := hslots
      width := forall_mem_append.2 ⟨hparams, hwidths⟩
      nodup := hall
      block := hids
      labels := hlabels
      shape := fun b hb => (hshapes b hb).1
      target := fun b hb => (hshapes b hb).2
      entered := fun b hb => (hinstrs b hb).1
      readable := fun b hb i hi => (hcheck b hb i hi).1
      fits := fun b hb i hi => (hcheck b hb i hi).2 }
  · intro h
    obtain ⟨hparams, hwidths⟩ := forall_mem_append.1 h.width
    have hnodup := h.nodup.sublist ((sublist_append_left _ _).map Var.id)
    refine ⟨_, ⟨?_, h.entry, h.result, h.slot, hparams, hnodup, rfl⟩, f.vars,
      (checkBlocks_eq_ok hnodup).2 ⟨by simpa using h.block, ⟨h.labels, by simp⟩,
        fun b hb => ⟨h.shape b hb, h.target b hb⟩, hwidths, h.nodup, rfl⟩,
      fun b hb => ⟨h.entered b hb, fun i hi => (checkInstr_eq_ok h.nodup (nodup_ids_of_index h.block)).2
        ⟨h.readable b hb i hi, h.fits b hb i hi⟩⟩⟩
    intro hnil
    have := h.entry
    simp [Function.block?, hnil] at this

namespace Function.WellFormed

variable {f : Function}

theorem block?_eq_some_iff (h : f.WellFormed) {id : BlockId} {b : Block} :
    f.block? id = some b ↔ b ∈ f.blocks ∧ b.id = id := by
  unfold Function.block?
  constructor
  · intro hb
    split at hb
    · cases hb
    · next hneg =>
      exact ⟨mem_of_getElem? hb, (h.block _ b hb).trans (Int.toNat_of_nonneg (Int.not_lt.1 hneg))⟩
  · rintro ⟨hmem, rfl⟩
    obtain ⟨k, hk⟩ := getElem?_of_mem hmem
    rw [h.block k b hk, if_neg (Int.not_lt.2 (Int.natCast_nonneg k)), Int.toNat_natCast, hk]

theorem eq_of_id_eq (h : f.WellFormed) {b c : Block} (hb : b ∈ f.blocks) (hc : c ∈ f.blocks) (hid : b.id = c.id) :
    b = c :=
  inj_on_of_nodup_map (nodup_ids_of_index h.block) hb hc hid

end Function.WellFormed

namespace Block

theorem mem_phis {b : Block} {dest : Var} {edges : List PhiEdge} :
    (dest, edges) ∈ b.phis ↔ Instr.phi dest edges ∈ b.code.takeWhile Instr.isPhi := by
  simp only [phis, mem_filterMap]
  constructor
  · rintro ⟨i, hi, hsome⟩
    split at hsome
    · cases hsome; exact hi
    · cases hsome
  · exact fun h => ⟨_, h, rfl⟩

theorem length_phis (b : Block) : b.phis.length = (b.code.takeWhile Instr.isPhi).length := by
  rw [phis]
  refine filterMap_length_eq_length.2 fun i hi => ?_
  have := mem_takeWhile_imp hi
  cases i <;> simp_all [Instr.isPhi]

theorem map_fst_phis_sublist (b : Block) : (b.phis.map Prod.fst).Sublist (b.code.filterMap Instr.dest?) := by
  have hdest : b.phis.map Prod.fst = (b.code.takeWhile Instr.isPhi).filterMap Instr.dest? := by
    rw [phis, map_filterMap]
    refine filterMap_congr fun i hi => ?_
    have := mem_takeWhile_imp hi
    cases i <;> simp_all [Instr.isPhi, Instr.dest?]
  rw [hdest]
  exact (takeWhile_sublist _).filterMap _

theorem mem_phiMoves {b : Block} {p : BlockId} {m : PhiMove} :
    m ∈ b.phiMoves p ↔ ∃ edges, Instr.phi m.dest edges ∈ b.code.takeWhile Instr.isPhi ∧ ⟨p, m.source⟩ ∈ edges := by
  obtain ⟨dest, source⟩ := m
  simp only [phiMoves, mem_flatMap, mem_map, mem_filter, decide_eq_true_eq, Prod.exists, mem_phis,
    PhiMove.mk.injEq]
  constructor
  · rintro ⟨_, edges, hphi, e, ⟨he, rfl⟩, rfl, rfl⟩
    exact ⟨edges, hphi, he⟩
  · rintro ⟨edges, hphi, he⟩
    exact ⟨dest, edges, hphi, _, ⟨he, rfl⟩, rfl, rfl⟩

end Block

namespace Function.WellFormed

variable {f : Function} {b : Block} {i : Instr} {u : Var}

section

variable (h : f.WellFormed) (hb : b ∈ f.blocks)
include h hb

theorem readable_phiMove {p : BlockId} {m : PhiMove} (hm : m ∈ b.phiMoves p) : f.Readable m.source := by
  obtain ⟨edges, hphi, he⟩ := Block.mem_phiMoves.1 hm
  exact (h.fits b hb _ (takeWhile_subset _ hphi)).readable _ he

theorem terminator?_of_mem (hi : i ∈ b.code) (hterm : i.isTerminator) : b.terminator? = some i := by
  obtain ⟨phis, body, last, hshape⟩ := h.shape b hb
  obtain ⟨k, hk⟩ := getElem?_of_mem hi
  have hlast : k = b.code.length - 1 := by
    have := (hshape.isTerminator_iff hk).1 hterm
    omega
  rw [Block.terminator?, getLast?_eq_getElem?, ← hlast, hk, Option.filter_some, if_pos hterm]

theorem exists_of_mem_successors (hi : i ∈ b.code) {s : BlockId} (hs : s ∈ i.successors) :
    ∃ c ∈ f.blocks, c.id = s ∧ s ∈ b.successors := by
  have hterm : i.isTerminator := by
    cases i <;> first | rfl | simp [Instr.successors] at hs
  have hmem : s ∈ b.successors := by simpa [Block.successors, h.terminator?_of_mem hb hi hterm] using hs
  obtain ⟨c, hc⟩ := Option.isSome_iff_exists.1 (h.target b hb s hmem)
  obtain ⟨hc, hid⟩ := h.block?_eq_some_iff.1 hc
  exact ⟨c, hc, hid, hmem⟩

theorem mem_vars_of_use (hi : i ∈ b.code) (hu : u ∈ i.usedVars) : u ∈ f.vars := by
  simp only [Instr.usedVars, mem_filterMap] at hu
  obtain ⟨o, ho, hsome⟩ := hu
  split at hsome
  · cases hsome; exact h.readable b hb i hi _ ho
  · cases hsome

end

theorem dests_sublist_vars (hb : b ∈ f.blocks) : (b.code.filterMap Instr.dest?).Sublist f.vars := by
  have hmem : b.code.filterMap Instr.dest? ∈ f.blocks.map fun b => b.code.filterMap Instr.dest? :=
    mem_map_of_mem hb
  rw [vars, flatMap_def]
  exact (sublist_flatten_of_mem hmem).trans (sublist_append_right _ _)

theorem mem_vars_of_dest (hb : b ∈ f.blocks) (hi : i ∈ b.code) (hu : i.dest? = some u) : u ∈ f.vars :=
  mem_append_right _ (mem_flatMap.2 ⟨b, hb, mem_filterMap.2 ⟨i, hi, hu⟩⟩)

end Function.WellFormed

theorem Function.mem_predecessors_iff {f : Function} {p s : BlockId} :
    p ∈ f.predecessors s ↔ ∃ b ∈ f.blocks, s ∈ b.successors ∧ b.id = p := by
  simp [Function.predecessors, and_assoc]

end RegisterCompiler.IR
