import RegisterCompiler.Compilation
import RegisterCompiler.Proofs.Allocation

/-!
# The scratch registers suffice

The allocation refuses a function if some part of it needs more scratch registers than the machine has, by a count
of its own. The code is written later, and takes scratch registers as it goes. Here the two are compared: where the
count allows a part, its code is found, and it is the same on a machine with more scratch registers, so no register
stands in for one that is missing.
-/

namespace RegisterCompiler

open List
open IR (Block BlockId Function MemRef Operand Var)

namespace Layout

theorem map_use_place (depth : Int64) (requests : List AreaRequest) :
    (place depth requests).1.map Area.use = requests.map AreaRequest.use := by
  induction requests generalizing depth with
  | nil => rfl
  | cons r rest ih => simp [place, ih]

theorem exists_offset? {l : Layout} {p : AreaUse → Bool} {u : AreaUse} (hmem : u ∈ l.areas.map Area.use)
    (hp : p u) : ∃ offset, l.offset? p = some offset := by
  obtain ⟨area, harea, rfl⟩ := mem_map.1 hmem
  have hsome : (l.areas.reverse.find? (p ·.use)).isSome :=
    find?_isSome.2 ⟨area, mem_reverse.2 harea, hp⟩
  obtain ⟨found, hfound⟩ := Option.isSome_iff_exists.1 hsome
  exact ⟨found.offset, by rw [offset?, hfound]; rfl⟩

variable {d : Descriptor} {f : Function} {spilled : List Var} {saved : List Reg} {l : Layout}

variable (h : ofFunction d f spilled saved = .ok l)
include h

theorem ofFunction_eq_ok :
    l.areas = (place 0 (requests d f.slots spilled saved)).1 ∧
      l.size = alignUp (place 0 (requests d f.slots spilled saved)).2 d.stackAlign ∧ l.size ≤ d.maxFrame := by
  unfold ofFunction at h
  simp only at h
  split at h
  · cases h
  · next hle =>
    cases h
    exact ⟨rfl, rfl, Int64.not_lt.1 hle⟩

theorem map_use_areas : l.areas.map Area.use = (requests d f.slots spilled saved).map AreaRequest.use := by
  rw [(ofFunction_eq_ok h).1]
  exact map_use_place 0 _

theorem exists_spillOffset? {v : Var} (hv : v ∈ spilled) : ∃ offset, l.spillOffset? v.id = some offset := by
  refine exists_offset? (u := .spill v) ?_ (by simp)
  rw [map_use_areas h]
  simp only [requests, map_append, map_map, mem_append, mem_map, Function.comp]
  exact .inr ⟨v, hv, rfl⟩

theorem exists_slotOffset? (hf : f.WellFormed) {id : IR.SlotId} (hid : 0 ≤ id ∧ id < f.slots.length) :
    ∃ offset, l.slotOffset? id = some offset := by
  have hlt : id.toNat < f.slots.length := (Int.toNat_lt hid.1).2 hid.2
  have hslot := (hf.slot id.toNat f.slots[id.toNat] (getElem?_eq_getElem hlt)).1
  refine exists_offset? (u := .slot f.slots[id.toNat]) ?_ ?_
  · rw [map_use_areas h]
    simp only [requests, map_append, map_map, mem_append, mem_map, Function.comp]
    exact .inl (.inr ⟨_, getElem_mem hlt, rfl⟩)
  · simp [hslot, Int.toNat_of_nonneg hid.1]

end Layout

/-- The class and the width of the machine instructions that an instruction needs. -/
def IR.Instr.form? : Instr → Option (Width × Form)
  | .binop op dest _ _ => some (dest.width, .ofOp op)
  | .cmp _ _ x _ => x.map fun x => (x.width, .cmp)
  | .cast _ dest _ => some (dest.width, .move)
  | .load dest _ => some (dest.width, .load)
  | .store source _ => source.map fun x => (x.width, .store)
  | _ => none

namespace Emission

variable {ms : List Move}

/-- Two computations of code give the same result, of which `p` holds; unless the machine lacks an instruction, which
    happens only if `lacks` holds. -/
def Agrees {α : Type} (lacks : Prop) (x y : Except EmitError α) (p : α → Prop) : Prop :=
  (∃ a, x = .ok a ∧ y = .ok a ∧ p a) ∨
    lacks ∧ ∃ function block instr target form width, x = .error (.unsupported function block instr target form width)

namespace Agrees

variable {α β : Type} {lacks : Prop} {x y : Except EmitError α} {p : α → Prop} {q : β → Prop}
  {k k' : α → Except EmitError β}

theorem pure {a : α} (h : p a) : Agrees lacks (Pure.pure a) (Pure.pure a) p := .inl ⟨a, rfl, rfl, h⟩

theorem of_ok {a : α} (hx : x = .ok a) (h : p a) : Agrees lacks x x p := .inl ⟨a, hx, hx, h⟩

theorem bind (h : Agrees lacks x y p) (hk : ∀ a, p a → Agrees lacks (k a) (k' a) q) :
    Agrees lacks (x >>= k) (y >>= k') q := by
  obtain ⟨a, rfl, rfl, ha⟩ | ⟨hlacks, function, block, instr, target, form, width, rfl⟩ := h
  · exact hk a ha
  · exact .inr ⟨hlacks, function, block, instr, target, form, width, rfl⟩

theorem ok_bind {a : α} (hx : x = .ok a) (h : Agrees lacks (k a) (k' a) q) : Agrees lacks (x >>= k) (x >>= k') q := by
  subst hx
  exact h

theorem done {f : α → β} (h : Agrees lacks x y p) : Agrees lacks (x >>= fun a => Pure.pure (f a)) (y >>= fun a => Pure.pure (f a))
    fun _ => True := h.bind fun _ _ => .pure trivial

theorem mapM {l : List α} {g g' : α → Except EmitError β} (h : ∀ a ∈ l, Agrees lacks (g a) (g' a) q) :
    Agrees lacks (l.mapM g) (l.mapM g') fun bs => ∀ b ∈ bs, q b := by
  induction l with
  | nil => exact .pure nofun
  | cons a l ih =>
    rw [mapM_cons, mapM_cons]
    refine (h a mem_cons_self).bind fun b hb => ?_
    refine (ih fun a ha => h a (mem_cons_of_mem _ ha)).bind fun bs hbs => .pure ?_
    exact forall_mem_cons.2 ⟨hb, hbs⟩

theorem of_eq {a : α} (h : Agrees lacks x y p) (hx : x = .ok a) : p a := by
  rcases h with ⟨b, hb, -, hp⟩ | ⟨-, _, _, _, _, _, _, herror⟩
  · cases hx.symm.trans hb
    exact hp
  · cases hx.symm.trans herror

theorem mono {p' : α → Prop} {lacks' : Prop} (h : Agrees lacks x y p) (hlacks : lacks → lacks') (hp : ∀ a, p a → p' a) :
    Agrees lacks' x y p' :=
  h.imp (fun ⟨a, hx, hy, ha⟩ => ⟨a, hx, hy, hp a ha⟩) (.imp_left hlacks)

end Agrees

/-- The same code is written for a machine with more scratch registers. -/
def withScratch (e : Emission) (extra : List Reg) : Emission :=
  { e with target := { e.target with scratch := e.target.scratch ++ extra } }

/-- What the allocation and the frame of a function have to offer for its code. -/
structure Ready (e : Emission) : Prop where
  wellFormed : e.function.WellFormed
  placed : ∀ v ∈ e.function.vars, ∃ loc, e.allocation.loc? v.id = some loc
  spill : ∀ v ∈ e.function.vars, e.allocation.loc? v.id = some .spilled →
    ∃ offset, e.layout.spillOffset? v.id = some offset
  slot : ∀ id : IR.SlotId, 0 ≤ id ∧ id < e.function.slots.length → ∃ offset, e.layout.slotOffset? id = some offset
  entry : e.allocation.entryDemand e.target e.function ≤ e.target.scratch.length
  demand : ∀ b ∈ e.function.blocks, ∀ i ∈ b.code, e.allocation.demand e.target e.function b i ≤ e.target.scratch.length

namespace Ready

variable {e : Emission} {extra : List Reg} {v dest : Var} {o : Operand} {n : Nat} {lacks : Prop}

/-! ## Operands -/

theorem home (h : e.Ready) (hv : v ∈ e.function.vars) :
    ∃ p, e.home v = .ok p ∧ ((∃ r, e.allocation.loc? v.id = some (.reg r) ∧ p = .reg r) ∨
      (e.allocation.loc? v.id = some .spilled ∧ ∃ offset, e.layout.spillOffset? v.id = some offset ∧ p = .frame offset)) := by
  obtain ⟨loc, hloc⟩ := h.placed v hv
  cases loc with
  | reg r => exact ⟨.reg r, by rw [Emission.home, hloc], .inl ⟨r, hloc, rfl⟩⟩
  | spilled =>
    obtain ⟨offset, hoffset⟩ := h.spill v hv hloc
    refine ⟨.frame offset, ?_, .inr ⟨hloc, offset, hoffset, rfl⟩⟩
    simp [Emission.home, hloc, spillOffset, hoffset]

theorem scratch (hn : n < e.target.scratch.length) :
    Agrees lacks (e.scratch n) ((e.withScratch extra).scratch n) fun _ => True := by
  refine .inl ⟨e.target.scratch[n], ?_, ?_, trivial⟩
  · simp [Emission.scratch, hn]
  · simp [Emission.scratch, withScratch, getElem?_append_left hn, hn]

theorem firstScratch (hn : 0 < e.target.scratch.length) :
    Agrees lacks e.firstScratch (e.withScratch extra).firstScratch fun _ => True := by
  cases hs : e.target.scratch with
  | nil => simp [hs] at hn
  | cons r rest => exact .inl ⟨r, by simp [Emission.firstScratch, hs], by simp [Emission.firstScratch, withScratch, hs], trivial⟩

theorem fetch (h : e.Ready) (ho : e.function.Readable (some o))
    (hn : n + e.allocation.operandCost (some o) ≤ e.target.scratch.length) :
    Agrees lacks (e.fetch n o) ((e.withScratch extra).fetch n o)
      fun x => x.used = n + e.allocation.operandCost (some o) := by
  cases o with
  | imm value w =>
    have hcost : e.allocation.operandCost (some (.imm value w)) = 1 := rfl
    rw [hcost] at hn ⊢
    exact (scratch (by omega)).bind fun r _ => .pure rfl
  | var v =>
    obtain ⟨p, hp, ⟨r, hloc, rfl⟩ | ⟨hloc, offset, -, rfl⟩⟩ := h.home ho
    · have hcost : e.allocation.operandCost (some (.var v)) = 0 := by
        simp [Allocation.operandCost, Allocation.isSpilled, hloc]
      have hsource : e.source (.var v) = .ok (.place (.reg r)) := by simp [source, hp]
      rw [hcost]
      refine .ok_bind hsource ?_
      exact .pure rfl
    · have hcost : e.allocation.operandCost (some (.var v)) = 1 := by
        simp [Allocation.operandCost, Allocation.isSpilled, hloc]
      have hsource : e.source (.var v) = .ok (.place (.frame offset)) := by simp [source, hp]
      rw [hcost] at hn ⊢
      refine .ok_bind hsource ?_
      exact (scratch (by omega)).bind fun r _ => .pure rfl

theorem source (h : e.Ready) (ho : e.function.Readable (some o)) :
    Agrees lacks (e.source o) ((e.withScratch extra).source o) fun _ => True := by
  cases o with
  | imm value w => exact .pure trivial
  | var v =>
    obtain ⟨p, hp, -⟩ := h.home ho
    exact .of_ok (a := .place p) (by simp [Emission.source, hp]) trivial

theorem produce (h : e.Ready) (hdest : dest ∈ e.function.vars) {make : Reg → List Asm.Instr}
    (hn : e.allocation.isSpilled dest → 0 < e.target.scratch.length) :
    Agrees lacks (e.produce dest make) ((e.withScratch extra).produce dest make) fun _ => True := by
  obtain ⟨loc, hloc⟩ := h.placed dest hdest
  cases loc with
  | reg r =>
    refine .bind (p := fun s => s = r) (.inl ⟨r, by simp [resultReg, hloc], by simp [resultReg, withScratch, hloc], rfl⟩) ?_
    rintro s rfl
    refine .of_ok (a := make s ++ []) ?_ trivial
    simp [writeBack, Allocation.isSpilled, hloc, bind, Except.bind, Pure.pure, Except.pure]
  | spilled =>
    obtain ⟨offset, hoffset⟩ := h.spill dest hdest hloc
    have hspilled : e.allocation.isSpilled dest = true := by simp [Allocation.isSpilled, hloc]
    refine .bind (p := fun _ => True) ?_ fun r _ => ?_
    · simpa only [resultReg, withScratch, hloc] using firstScratch (hn hspilled)
    · refine .of_ok (a := make r ++ [.store dest.width r { base := .fp, offset }]) ?_ trivial
      simp [writeBack, hspilled, spillOffset, hoffset, bind, Except.bind, Pure.pure, Except.pure]

theorem address (h : e.Ready) {m : MemRef} (ha : e.function.Addressable (some m))
    (hu : ∀ o ∈ m.uses, e.function.Readable o)
    (hn : n + e.allocation.addressCost (some m) ≤ e.target.scratch.length) :
    Agrees lacks (e.address n m) ((e.withScratch extra).address n m) fun _ => True := by
  cases m with
  | pointer base offset =>
    cases base with
    | none => exact absurd (hu none mem_cons_self) id
    | some o => exact (h.fetch (hu _ mem_cons_self) hn).done
  | slot ref =>
    obtain ⟨offset, hoffset⟩ := h.slot ref.slot ha
    have hslot : e.slotOffset ref.slot = .ok offset := by simp [slotOffset, hoffset]
    refine .ok_bind hslot ?_
    obtain ⟨slot, index, scale, off⟩ := ref
    cases index with
    | none => exact .pure trivial
    | some o =>
      cases o with
      | imm value w => exact .pure trivial
      | var v =>
        have hv : v ∈ e.function.vars := hu _ mem_cons_self
        refine (scratch (Nat.lt_of_succ_le hn)).bind fun r _ => ?_
        obtain ⟨p, hp, -⟩ := h.home hv
        refine .ok_bind hp ?_
        cases p <;> exact .pure trivial

end Ready

/-! ## Moves -/

section

variable {e : Emission} {extra : List Reg}

theorem simultaneous_of_isIdentity {temp carry : Reg} (h : ∀ m ∈ ms, m.isIdentity) :
    simultaneous temp carry ms = [] := by
  have hnone : ms.filter (!·.isIdentity) = [] := filter_eq_nil_iff.2 fun m hm => by simp [h m hm]
  simp [simultaneous, hnone, Move.sequence]

/-- With two scratch registers the code of moves does not depend on others. -/
theorem moves_withScratch (h : ∀ m ∈ ms, 2 ≤ e.target.scratch.length ∨ m.isIdentity) :
    (e.withScratch extra).moves ms = e.moves ms := by
  by_cases hlen : 2 ≤ e.target.scratch.length
  · have hget : ∀ k < 2, (e.target.scratch ++ extra).getD k ⟨0⟩ = e.target.scratch.getD k ⟨0⟩ := by
      intro k hk
      rw [getD_eq_getElem?_getD, getD_eq_getElem?_getD, getElem?_append_left (by omega)]
    simp only [moves, withScratch, hget 0 (by omega), hget 1 (by omega)]
  · have hid : ∀ m ∈ ms, m.isIdentity := fun m hm => (h m hm).resolve_left hlen
    rw [moves, moves, simultaneous_of_isIdentity hid, simultaneous_of_isIdentity hid]

theorem simultaneous_singleton (temp carry : Reg) (p : Place) (r : Reg) (w : Width) :
    simultaneous temp carry [⟨p, .place (.reg r), w⟩] =
      if p = .reg r then [] else
        match p with
        | .reg dest => [.mov w dest r]
        | .frame offset => [.store w r { base := .fp, offset }] := by
  by_cases hp : p = .reg r
  · rw [if_pos hp]
    exact simultaneous_of_isIdentity (by simp [Move.isIdentity, hp])
  · have hne : ¬Place.reg r = p := fun heq => hp heq.symm
    cases p <;> simp_all [simultaneous, Move.isIdentity, Move.sequence, Move.sweep, Move.reads, Move.code, Source.load]

theorem eq_false_of_moveCost_le {moves : Bool} {n : Nat} (h : Allocation.moveCost moves ≤ n) (hn : ¬2 ≤ n) :
    moves = false := by
  cases moves with
  | false => rfl
  | true => exact absurd h hn

theorem le_foldl_max {l : List Nat} {n start : Nat} (h : n ∈ start :: l) : n ≤ l.foldl max start :=
  (max?_eq_some_iff.1 (show (start :: l).max? = some (l.foldl max start) from rfl)).2 n h

end

namespace Ready

variable {e : Emission} {extra : List Reg} {v dest : Var} {o : Operand} {n : Nat} {lacks : Prop} {b : Block}
  {pred : BlockId} {i : IR.Instr} {args : List Operand} {condition : Option Operand}

theorem paramMoves (h : e.Ready) :
    Agrees lacks e.paramMoves (e.withScratch extra).paramMoves
      fun ms => ∀ m ∈ ms, 2 ≤ e.target.scratch.length ∨ m.isIdentity := by
  refine .mapM fun pair hmem => ?_
  obtain ⟨p, k⟩ := pair
  have hp : p ∈ e.function.params := mem_of_getElem? (mem_zipIdx_iff_getElem?.1 hmem)
  obtain ⟨place, hplace, hhome⟩ := h.home (mem_append_left _ hp)
  refine .ok_bind hplace ?_
  refine .pure ?_
  by_cases hlen : 2 ≤ e.target.scratch.length
  · exact .inl hlen
  · -- No parameter is moved, so each of them is in the register in which it came.
    have hnone : (e.target.args.length < e.function.params.length ||
        (e.function.params.zip e.target.args).any fun pair => e.allocation.loc? pair.1.id != some (.reg pair.2)) = false := by
      exact eq_false_of_moveCost_le h.entry hlen
    simp only [Bool.or_eq_false_iff, decide_eq_false_iff_not, Nat.not_lt, any_eq_false, Prod.forall] at hnone
    have hget := mem_zipIdx_iff_getElem?.1 hmem
    have hk : k < e.target.args.length := (List.getElem?_eq_some_iff.1 hget).1.trans_le hnone.1
    have hloc : e.allocation.loc? p.id = some (.reg e.target.args[k]) := by
      have hzip : (p, e.target.args[k]) ∈ e.function.params.zip e.target.args :=
        mem_iff_getElem?.2 ⟨k, getElem?_zip_eq_some.2 ⟨hget, getElem?_eq_getElem hk⟩⟩
      simpa using hnone.2 p _ hzip
    right
    obtain ⟨r, hr, rfl⟩ | ⟨hr, -⟩ := hhome
    · cases hr.symm.trans hloc
      simp [Move.isIdentity, hk]
    · cases hr.symm.trans hloc

theorem phiMoves (h : e.Ready) {c : Block} (hc : c ∈ e.function.blocks)
    (hcost : Allocation.moveCost (e.allocation.movesOnEdge e.function pred c.id) ≤ e.target.scratch.length) :
    Agrees lacks ((c.phiMoves pred).mapM fun m =>
        return (⟨← e.home m.dest, ← e.source (← present m.source), m.dest.width⟩ : Move))
      ((c.phiMoves pred).mapM fun m => return (⟨← (e.withScratch extra).home m.dest,
        ← (e.withScratch extra).source (← present m.source), m.dest.width⟩ : Move))
      fun ms => ∀ m ∈ ms, 2 ≤ e.target.scratch.length ∨ m.isIdentity := by
  refine .mapM fun m hm => ?_
  obtain ⟨edges, hphi, -⟩ := IR.Block.mem_phiMoves.1 hm
  have hdest := IR.Function.WellFormed.mem_vars_of_dest hc (takeWhile_subset _ hphi) rfl
  have hread := h.wellFormed.readable_phiMove hc hm
  obtain ⟨p, hp, hhome⟩ := h.home hdest
  refine .ok_bind hp ?_
  obtain ⟨dest, source⟩ := m
  cases source with
  | none => exact absurd hread id
  | some o =>
    by_cases hlen : 2 ≤ e.target.scratch.length
    · exact .ok_bind rfl ((h.source hread).bind fun _ _ => .pure (.inl hlen))
    · -- No value is moved, so this one is where it is to be.
      have hstays := eq_false_of_moveCost_le hcost hlen
      rw [Allocation.movesOnEdge, h.wellFormed.block?_eq_some_iff.2 ⟨hc, rfl⟩] at hstays
      have hstays := any_eq_false.1 hstays _ hm
      cases o with
      | imm value w => simp at hstays
      | var v =>
        obtain ⟨q, hq, hqhome⟩ := h.home hread
        have hsource : e.source (.var v) = .ok (.place q) := by simp [Emission.source, hq]
        have hqp : q = p := by
          by_cases hid : v.id = dest.id
          · rw [hid] at hqhome
            grind
          · simp only [bne_iff_ne, ne_eq, hid, not_false_eq_true, Bool.and_eq_true, true_and, Bool.not_eq_true',
              Allocation.isIn, Bool.not_eq_false, beq_iff_eq] at hstays
            grind
        refine .ok_bind rfl (.ok_bind hsource ?_)
        exact .pure (.inr (by simp [Move.isIdentity, hqp]))

theorem phiCode (h : e.Ready) {c : Block} (hc : c ∈ e.function.blocks)
    (hcost : Allocation.moveCost (e.allocation.movesOnEdge e.function pred c.id) ≤ e.target.scratch.length) :
    Agrees lacks (e.phiCode pred c.id) ((e.withScratch extra).phiCode pred c.id) fun _ => True := by
  have hblock := h.wellFormed.block?_eq_some_iff.2 ⟨hc, rfl⟩
  have hblock' : (e.withScratch extra).function.block? c.id = some c := hblock
  rw [Emission.phiCode, Emission.phiCode, hblock, hblock']
  refine (h.phiMoves hc hcost).bind fun ms hms => ?_
  rw [moves_withScratch hms]
  exact .pure trivial

/-! ## Jumps -/

variable {site : BlockSite} {c : Block}

theorem blockLabel (h : e.Ready) (hc : c ∈ e.function.blocks) :
    Agrees lacks (e.blockLabel c.id) ((e.withScratch extra).blockLabel c.id) fun _ => True :=
  .of_ok (a := ".L" ++ e.function.name ++ "." ++ c.label)
    (by rw [Emission.blockLabel, h.wellFormed.block?_eq_some_iff.2 ⟨hc, rfl⟩]) trivial

section

variable (h : e.Ready) (hc : c ∈ e.function.blocks)
  (hcost : Allocation.moveCost (e.allocation.movesOnEdge e.function site.block.id c.id) ≤ e.target.scratch.length)
include h hc hcost

theorem jumpTo : Agrees lacks (e.jumpTo site c.id) ((e.withScratch extra).jumpTo site c.id) fun _ => True := by
  refine (h.phiCode hc hcost).bind fun ms _ => ?_
  split
  · exact .pure trivial
  · exact (h.blockLabel hc).done

theorem branchTo :
    Agrees lacks (e.branchTo site n c.id) ((e.withScratch extra).branchTo site n c.id) fun _ => True := by
  refine (h.phiCode hc hcost).bind fun ms _ => (h.blockLabel hc).bind fun label _ => ?_
  split
  · exact .pure trivial
  · exact .pure trivial

end

theorem branchCode (h : e.Ready) {t f : Block} (ht : t ∈ e.function.blocks) (hf : f ∈ e.function.blocks)
    (ho : e.function.Readable (some o)) (hn : e.allocation.operandCost (some o) ≤ e.target.scratch.length)
    (htcost : Allocation.moveCost (e.allocation.movesOnEdge e.function site.block.id t.id) ≤ e.target.scratch.length)
    (hfcost : Allocation.moveCost (e.allocation.movesOnEdge e.function site.block.id f.id) ≤ e.target.scratch.length) :
    Agrees lacks (e.branchCode site n o t.id f.id) ((e.withScratch extra).branchCode site n o t.id f.id) fun _ => True := by
  refine (h.fetch ho (by rwa [Nat.zero_add])).bind fun x _ => ?_
  split
  · exact (h.branchTo hf hfcost).bind fun _ _ => (h.phiCode ht htcost).done
  · exact (h.branchTo ht htcost).bind fun _ _ => (h.jumpTo hf hfcost).done

/-! ## Calls -/

theorem pushArg (h : e.Ready) (ho : e.function.Readable (some o))
    (hn : e.allocation.operandCost (some o) ≤ e.target.scratch.length) :
    Agrees lacks (e.pushArg o) ((e.withScratch extra).pushArg o) fun _ => True := by
  cases o with
  | imm value w => exact (firstScratch hn).done
  | var v =>
    obtain ⟨p, hp, hhome⟩ := h.home ho
    have hsource : e.source (.var v) = .ok (.place p) := by simp [Emission.source, hp]
    refine .ok_bind hsource ?_
    obtain ⟨r, -, rfl⟩ | ⟨hloc, offset, -, rfl⟩ := hhome
    · exact .pure trivial
    · have hcost : e.allocation.operandCost (some (.var v)) = 1 := by
        simp [Allocation.operandCost, Allocation.isSpilled, hloc]
      exact (firstScratch (by omega)).done

theorem argMoves (h : e.Ready) (hargs : ∀ o ∈ args, e.function.Readable (some o))
    (hcost : Allocation.moveCost (((args.map some).zip e.target.args).any fun (o, r) => !e.allocation.isIn o (.reg r)) ≤
      e.target.scratch.length) :
    Agrees lacks (e.argMoves args) ((e.withScratch extra).argMoves args)
      fun ms => ∀ m ∈ ms, 2 ≤ e.target.scratch.length ∨ m.isIdentity := by
  refine .mapM fun (o, r) hmem => ?_
  have hread := hargs o (of_mem_zip hmem).1
  by_cases hlen : 2 ≤ e.target.scratch.length
  · exact (h.source hread).bind fun _ _ => .pure (.inl hlen)
  · have hstays := any_eq_false.1 (eq_false_of_moveCost_le hcost hlen) (some o, r)
      (by rw [zip_map_left]; exact mem_map.2 ⟨(o, r), hmem, rfl⟩)
    cases o with
    | imm value w => simp [Allocation.isIn] at hstays
    | var v =>
      obtain ⟨p, hp, hhome⟩ := h.home hread
      have hsource : e.source (.var v) = .ok (.place p) := by simp [Emission.source, hp]
      refine .ok_bind hsource ?_
      refine .pure (.inr ?_)
      simp only [Allocation.isIn, Bool.not_eq_true', Bool.not_eq_false, Bool.and_eq_true, beq_iff_eq] at hstays
      obtain ⟨q, hq, rfl⟩ | ⟨hq, -⟩ := hhome
      · cases hq.symm.trans hstays.1
        simp [Move.isIdentity]
      · cases hq.symm.trans hstays.1

theorem mapM_present {args : List (Option Operand)} (hargs : ∀ o ∈ args, e.function.Readable o) :
    ∃ os, args = os.map some ∧ args.mapM present = .ok os := by
  induction args with
  | nil => exact ⟨[], rfl, rfl⟩
  | cons o args ih =>
    obtain ⟨os, rfl, hos⟩ := ih fun o ho => hargs o (mem_cons_of_mem _ ho)
    cases o with
    | none => exact absurd (hargs none mem_cons_self) id
    | some o => exact ⟨o :: os, rfl, by rw [mapM_cons, hos]; rfl⟩

theorem callCode (h : e.Ready) {dest : Option Var} {callee : String} (hdest : ∀ d, dest = some d → d ∈ e.function.vars)
    (hargs : ∀ o ∈ args, e.function.Readable (some o))
    (hcost : e.allocation.demand e.target e.function b (.call dest callee (args.map some)) ≤ e.target.scratch.length) :
    Agrees lacks (e.callCode dest callee args) ((e.withScratch extra).callCode dest callee args) fun _ => True := by
  have hcost := Nat.max_le.1 hcost
  refine .bind (p := fun _ => True) ((Agrees.mapM (q := fun _ => True) fun o ho => ?_).mono id fun _ _ => trivial)
    fun pushes _ => ?_
  · have ho := mem_reverse.1 ho
    refine h.pushArg (hargs o (mem_of_mem_drop ho)) (Nat.le_trans (le_foldl_max (mem_cons_of_mem _ ?_)) hcost.1)
    rw [← map_drop]
    exact mem_map.2 ⟨some o, mem_map.2 ⟨o, ho, rfl⟩, rfl⟩
  refine (h.argMoves hargs hcost.2).bind fun ms hms => ?_
  rw [moves_withScratch hms]
  cases dest with
  | none => exact .pure trivial
  | some d =>
    obtain ⟨p, hp, -⟩ := h.home (hdest d rfl)
    refine .ok_bind hp (.done (p := fun _ => True) ?_)
    rw [moves, moves, simultaneous_singleton, simultaneous_singleton]
    exact .pure trivial

/-! ## Instructions -/

theorem require {w : Width} {form : Form} (h : ¬e.target.supports w form → lacks) :
    Agrees lacks (e.require b i w form) ((e.withScratch extra).require b i w form) fun _ => True := by
  have hsame : (e.withScratch extra).require b i w form = e.require b i w form := rfl
  rw [hsame, Emission.require]
  split
  · exact .pure trivial
  · next hlacks => exact .inr ⟨h hlacks, _, _, _, _, _, _, rfl⟩

theorem present {o : Option Operand} (ho : e.function.Readable o) : ∃ x, o = some x ∧ e.function.Readable (some x) := by
  cases o with
  | none => exact absurd ho id
  | some x => exact ⟨x, rfl, ho⟩

theorem destCost_le {cost : Nat} (h : e.allocation.destCost cost dest ≤ n) :
    cost ≤ n ∧ (e.allocation.isSpilled dest → 0 < n) := by
  unfold Allocation.destCost at h
  split at h
  · exact ⟨(Nat.max_le.1 h).1, fun _ => (Nat.max_le.1 h).2⟩
  · next hreg => exact ⟨h, fun hspilled => absurd hspilled hreg⟩

theorem binary (h : e.Ready) (hdest : dest ∈ e.function.vars) {x y : Operand} (hx : e.function.Readable (some x))
    (hy : e.function.Readable (some y)) {ofReg : Reg → Reg → Reg → Asm.Instr} {ofImm : Reg → Reg → Int64 → Asm.Instr}
    (hcost : e.allocation.destCost (e.allocation.operandCost (some x) + e.allocation.secondCost (some y)) dest ≤
      e.target.scratch.length) :
    Agrees lacks (e.binary dest x y ofReg ofImm) ((e.withScratch extra).binary dest x y ofReg ofImm) fun _ => True := by
  obtain ⟨hcost, hspilled⟩ := destCost_le hcost
  refine (h.fetch hx (by omega)).bind fun x hused => ?_
  cases y with
  | imm value w => exact (h.produce hdest hspilled).done
  | var v =>
    have hsecond : e.allocation.secondCost (some (.var v)) = e.allocation.operandCost (some (.var v)) := rfl
    refine (h.fetch hy (by omega)).bind fun y _ => ?_
    exact (h.produce hdest hspilled).done

theorem slotAddr (h : e.Ready) (hdest : dest ∈ e.function.vars) {ref : IR.SlotRef}
    (ha : e.function.Addressable (some (.slot ref))) (hu : ∀ o ∈ (MemRef.slot ref).uses, e.function.Readable o)
    (hcost : e.allocation.demand e.target e.function b (.slotAddr dest ref) ≤ e.target.scratch.length) :
    Agrees lacks (e.slotAddr dest ref) ((e.withScratch extra).slotAddr dest ref) fun _ => True := by
  obtain ⟨hcost, hspilled⟩ := destCost_le hcost
  obtain ⟨offset, hoffset⟩ := h.slot ref.slot ha
  have hslot : e.slotOffset ref.slot = .ok offset := by simp [slotOffset, hoffset]
  refine .ok_bind hslot ?_
  obtain ⟨slot, index, scale, off⟩ := ref
  cases index with
  | none => exact h.produce hdest hspilled
  | some o =>
    cases o with
    | imm value w => exact h.produce hdest hspilled
    | var v =>
      refine (h.fetch (o := .var v) (hu _ mem_cons_self) (by rwa [Nat.zero_add])).bind fun _ _ => ?_
      exact (h.produce hdest hspilled).done

theorem demand_branch_eq {t f : BlockId} :
    e.allocation.demand e.target e.function b (.branch condition t f) =
      ((Allocation.takenSuccessors (.branch condition t f)).map fun s =>
        Allocation.moveCost (e.allocation.movesOnEdge e.function b.id s)).foldl max (match condition with
          | some (.var v) => if e.allocation.isSpilled v then 1 else 0
          | _ => 0) := by
  rw [foldl_map]
  rfl

/-- The demand of a branch covers its condition and the ways that it can really take. -/
theorem demand_branch {t f : BlockId} (hcost : e.allocation.demand e.target e.function b (.branch condition t f) ≤ n) :
    (∀ v, condition = some (.var v) → e.allocation.operandCost (some (.var v)) ≤ n) ∧
      ∀ s ∈ Allocation.takenSuccessors (.branch condition t f),
        Allocation.moveCost (e.allocation.movesOnEdge e.function b.id s) ≤ n := by
  rw [demand_branch_eq] at hcost
  constructor
  · rintro v rfl
    exact Nat.le_trans (le_foldl_max mem_cons_self) hcost
  · intro s hs
    exact Nat.le_trans (le_foldl_max (mem_cons_of_mem _ (mem_map.2 ⟨s, hs, rfl⟩))) hcost

variable (h : e.Ready)
include h

/-- Where the count of scratch registers allows an instruction, its code is found, if the machine has what it needs. -/
theorem instr (hsite : site.block ∈ e.function.blocks) {i : IR.Instr} (hi : i ∈ site.block.code) :
    Agrees (∃ x ∈ i.form?, ¬e.target.supports x.1 x.2) (e.instr site n i) ((e.withScratch extra).instr site n i)
      fun _ => True := by
  have hread := h.wellFormed.readable _ hsite i hi
  have hfits := h.wellFormed.fits _ hsite i hi
  have hcost := h.demand _ hsite i hi
  have hdest : ∀ d, i.dest? = some d → d ∈ e.function.vars :=
    fun d hd => IR.Function.WellFormed.mem_vars_of_dest hsite hi hd
  cases i with
  | binop _ dest x y | cmp _ dest x y =>
    obtain ⟨x, rfl, hx⟩ := present (hread x (by simp [IR.Instr.uses]))
    obtain ⟨y, rfl, hy⟩ := present (hread y (by simp [IR.Instr.uses]))
    refine (require fun hlacks => ⟨_, rfl, hlacks⟩).bind fun _ _ => ?_
    exact (h.binary (hdest dest rfl) hx hy hcost).done
  | cast op dest source =>
    obtain ⟨o, rfl, ho⟩ := present (hread source (by simp [IR.Instr.uses]))
    obtain ⟨hcost, hspilled⟩ := destCost_le hcost
    refine (require fun hlacks => ⟨_, rfl, hlacks⟩).bind fun _ _ => ?_
    refine (h.fetch ho (by rwa [Nat.zero_add])).bind fun _ _ => ?_
    exact (h.produce (hdest dest rfl) hspilled).done
  | load dest address =>
    cases address with
    | none => exact absurd hfits id
    | some m =>
      obtain ⟨hcost, hspilled⟩ := destCost_le hcost
      refine (require fun hlacks => ⟨_, rfl, hlacks⟩).bind fun _ _ => ?_
      refine (h.address hfits hread (by rwa [Nat.zero_add])).bind fun _ _ => ?_
      exact (h.produce (hdest dest rfl) hspilled).done
  | store source address =>
    cases address with
    | none => exact absurd hfits id
    | some m =>
      obtain ⟨o, rfl, ho⟩ := present (hread source (by simp [IR.Instr.uses]))
      refine (require fun hlacks => ⟨_, rfl, hlacks⟩).bind fun _ _ => ?_
      have hcost : e.allocation.operandCost (some o) + e.allocation.addressCost (some m) ≤ e.target.scratch.length := hcost
      refine (h.fetch ho (by omega)).bind fun s hused => ?_
      refine (h.address hfits (fun o ho => hread o (mem_cons_of_mem _ ho)) (by omega)).bind fun _ _ => ?_
      exact .pure trivial
  | slotAddr dest ref => exact (h.slotAddr (hdest dest rfl) hfits.2 hread hcost).done
  | phi dest edges => exact .pure trivial
  | call dest callee args =>
    obtain ⟨os, rfl, hos⟩ := mapM_present hread
    refine .ok_bind hos ?_
    exact (h.callCode hdest (fun o ho => hread _ (mem_map.2 ⟨o, ho, rfl⟩)) hcost).done
  | jump target =>
    obtain ⟨c, hc, rfl, -⟩ := h.wellFormed.exists_of_mem_successors hsite hi (s := target) mem_cons_self
    exact (h.jumpTo hc hcost).done
  | branch condition t f =>
    obtain ⟨o, rfl, ho⟩ := present (hread condition (by simp [IR.Instr.uses]))
    obtain ⟨hcond, hways⟩ := demand_branch hcost
    obtain ⟨tb, htb, rfl, -⟩ := h.wellFormed.exists_of_mem_successors hsite hi (s := t) (by
      simp only [IR.Instr.successors]; split <;> simp)
    obtain ⟨fb, hfb, rfl, -⟩ := h.wellFormed.exists_of_mem_successors hsite hi (s := f) (by
      simp only [IR.Instr.successors]; split <;> simp_all)
    cases o with
    | imm value w =>
      have hway := hways _ mem_cons_self
      refine .ok_bind rfl (.done (p := fun _ => True) ?_)
      split at hway
      · next hvalue => rw [if_pos hvalue]; exact h.jumpTo htb hway
      · next hvalue => rw [if_neg hvalue]; exact h.jumpTo hfb hway
    | var v =>
      have hsucc : Allocation.takenSuccessors (.branch (some (.var v)) tb.id fb.id) =
          if tb.id = fb.id then [tb.id] else [tb.id, fb.id] := rfl
      rw [hsucc] at hways
      refine .ok_bind rfl ?_
      simp only
      split
      · next heq =>
        rw [if_pos heq] at hways
        exact (h.jumpTo htb (hways _ mem_cons_self)).done
      · next hne =>
        rw [if_neg hne] at hways
        exact h.branchCode htb hfb ho (hcond v rfl) (hways _ mem_cons_self)
          (hways _ (mem_cons_of_mem _ mem_cons_self))
  | ret value =>
    cases value with
    | none => exact .pure trivial
    | some o => exact (h.source (hread _ (by simp [IR.Instr.uses]))).done

/-! ## Functions -/

theorem instrs (site : BlockSite) (hsite : site.block ∈ e.function.blocks) {code : List IR.Instr}
    (hcode : ∀ i ∈ code, i ∈ site.block.code) :
    Agrees True (e.instrs site n code) ((e.withScratch extra).instrs site n code) fun _ => True := by
  induction code generalizing n with
  | nil => exact .pure trivial
  | cons i rest ih =>
    refine ((h.instr hsite (hcode i mem_cons_self)).mono (fun _ => trivial) fun _ => id).bind fun here _ => ?_
    exact (ih fun j hj => hcode j (mem_cons_of_mem i hj)).done

theorem blocksCode {blocks : List Block} (hblocks : ∀ b ∈ blocks, b ∈ e.function.blocks) :
    Agrees True (e.blocksCode n blocks) ((e.withScratch extra).blocksCode n blocks) fun _ => True := by
  induction blocks generalizing n with
  | nil => exact .pure trivial
  | cons b rest ih =>
    have hb := hblocks b mem_cons_self
    refine .bind (p := fun _ => True) ?_ fun here _ => ?_
    · refine (h.blockLabel hb).bind fun label _ => ?_
      exact (h.instrs ⟨b, rest.head?.map Block.id⟩ hb fun _ hi => hi).done
    · exact (ih fun c hc => hblocks c (mem_cons_of_mem b hc)).done

theorem entryCode : Agrees True e.entryCode (e.withScratch extra).entryCode fun _ => True := by
  obtain ⟨b, hb⟩ := Option.isSome_iff_exists.1 h.wellFormed.entry
  obtain ⟨hb, hentry⟩ := h.wellFormed.block?_eq_some_iff.1 hb
  refine h.paramMoves.bind fun ms hms => ?_
  rw [moves_withScratch hms]
  have hsame : (e.withScratch extra).function = e.function := rfl
  rw [hsame]
  split
  · exact .ok_bind rfl (.pure trivial)
  · rw [← hentry]
    exact (h.blockLabel hb).bind fun _ _ => .ok_bind rfl (.pure trivial)

theorem code (extra : List Reg) : Agrees True e.code (e.withScratch extra).code fun _ => True :=
  h.entryCode.bind fun _ _ => (h.blocksCode fun _ hb => hb).done

end Ready

end Emission

namespace Allocation

variable {d : Descriptor} {f : Function} {a : Allocation}

theorem demand_le_of_ofFunction (h : ofFunction d f = .ok a) :
    a.entryDemand d f ≤ d.scratch.length ∧ ∀ b ∈ f.blocks, ∀ i ∈ b.code, a.demand d f b i ≤ d.scratch.length := by
  have hnone : a.excess? d f = none := by
    rw [eq_assignment_of_ofFunction h]
    unfold ofFunction at h
    simp only at h
    split at h
    · cases h
    · assumption
  unfold excess? at hnone
  simp only at hnone
  split at hnone
  · cases hnone
  · next hentry =>
    refine ⟨Nat.le_of_not_lt hentry, fun b hb i hi => Nat.le_of_not_lt fun hlt => ?_⟩
    have := findSome?_eq_none_iff.1 (findSome?_eq_none_iff.1 hnone b hb) i hi
    rw [if_pos hlt] at this
    cases this

theorem mem_spilled (hf : f.WellFormed) {v : Var} (hv : v ∈ f.vars)
    (hloc : (assignment d f).loc? v.id = some .spilled) : v ∈ (assignment d f).spilled := by
  obtain ⟨iv, hiv, rfl⟩ := hf.exists_interval hv
  refine mem_mergeSort.2 (mem_filter.2 ⟨mem_map_of_mem hiv, ?_⟩)
  exact beq_iff_eq.2 hloc

end Allocation

theorem Emission.ready {d : Descriptor} {f : Function} {a : Allocation} {l : Layout} (hf : f.WellFormed)
    (ha : Allocation.ofFunction d f = .ok a) (hl : Layout.ofFunction d f a.spilled a.saved = .ok l) :
    Emission.Ready ⟨f, a, l, d⟩ where
  wellFormed := hf
  placed := by
    rw [Allocation.eq_assignment_of_ofFunction ha]
    exact (Allocation.assignment_sound hf).placed
  spill := by
    intro v hv hloc
    refine Layout.exists_spillOffset? hl ?_
    rw [Allocation.eq_assignment_of_ofFunction ha] at hloc ⊢
    exact Allocation.mem_spilled hf hv hloc
  slot := fun id hid => Layout.exists_slotOffset? hl hf hid
  entry := (Allocation.demand_le_of_ofFunction ha).1
  demand := (Allocation.demand_le_of_ofFunction ha).2

end RegisterCompiler
