import RegisterCompiler.Proofs.Allocation

/-!
# Lawful functions

What a function has to be, said by relations between its parts: which operands an instruction reads, which variable it
defines and which blocks control may go on with are told constructor by constructor, and a way through the code is a
block that ends with a jump to another. Nothing here goes through the lists that the check collects on its passes.
-/

namespace RegisterCompiler.IR

open List

/-! ## Parts of the code -/

/-- An address is computed from an operand. -/
inductive MemRef.Reads : MemRef → Option Operand → Prop
  | index {slot : SlotId} {o : Operand} {scale offset : Int64} : Reads (.slot ⟨slot, some o, scale, offset⟩) (some o)
  | base {o : Option Operand} {offset : Int64} : Reads (.pointer o offset) o

namespace Instr

/-- An instruction reads an operand; a phi reads its operands on the ways into its block. -/
inductive Reads : Instr → Option Operand → Prop
  | binopLeft {op : BinOp} {dest : Var} {x y : Option Operand} : Reads (.binop op dest x y) x
  | binopRight {op : BinOp} {dest : Var} {x y : Option Operand} : Reads (.binop op dest x y) y
  | cmpLeft {cond : Cond} {dest : Var} {x y : Option Operand} : Reads (.cmp cond dest x y) x
  | cmpRight {cond : Cond} {dest : Var} {x y : Option Operand} : Reads (.cmp cond dest x y) y
  | cast {op : CastOp} {dest : Var} {x : Option Operand} : Reads (.cast op dest x) x
  | loadFrom {dest : Var} {a : MemRef} {o : Option Operand} : a.Reads o → Reads (.load dest (some a)) o
  | stored {x : Option Operand} {a : Option MemRef} : Reads (.store x a) x
  | storeTo {x : Option Operand} {a : MemRef} {o : Option Operand} : a.Reads o → Reads (.store x (some a)) o
  | slotAddr {dest : Var} {ref : SlotRef} {o : Option Operand} : (MemRef.slot ref).Reads o → Reads (.slotAddr dest ref) o
  | phi {dest : Var} {edges : List PhiEdge} {e : PhiEdge} : e ∈ edges → Reads (.phi dest edges) e.value
  | arg {dest : Option Var} {callee : String} {args : List (Option Operand)} {o : Option Operand} :
      o ∈ args → Reads (.call dest callee args) o
  | condition {o : Option Operand} {t e : BlockId} : Reads (.branch o t e) o
  | returned {o : Operand} : Reads (.ret (some o)) (some o)

inductive Defines : Instr → Var → Prop
  | binop {op : BinOp} {dest : Var} {x y : Option Operand} : Defines (.binop op dest x y) dest
  | cmp {cond : Cond} {dest : Var} {x y : Option Operand} : Defines (.cmp cond dest x y) dest
  | cast {op : CastOp} {dest : Var} {x : Option Operand} : Defines (.cast op dest x) dest
  | load {dest : Var} {a : Option MemRef} : Defines (.load dest a) dest
  | slotAddr {dest : Var} {ref : SlotRef} : Defines (.slotAddr dest ref) dest
  | phi {dest : Var} {edges : List PhiEdge} : Defines (.phi dest edges) dest
  | call {dest : Var} {callee : String} {args : List (Option Operand)} : Defines (.call (some dest) callee args) dest

inductive LeadsTo : Instr → BlockId → Prop
  | jump {t : BlockId} : LeadsTo (.jump t) t
  | thenTarget {o : Option Operand} {t e : BlockId} : LeadsTo (.branch o t e) t
  | elseTarget {o : Option Operand} {t e : BlockId} : LeadsTo (.branch o t e) e

end Instr

namespace Function

variable {f : Function} {p s b : Block} {i : Instr} {o : Option Operand} {v : Var}

/-- A variable is a parameter of the function or the result of one of its instructions. -/
def Defines (f : Function) (v : Var) : Prop := v ∈ f.params ∨ ∃ b ∈ f.blocks, ∃ i ∈ b.code, i.Defines v

/-- An operand is there, and is a variable that the function defines at this width or a constant of a machine width. -/
def Provides (f : Function) : Option Operand → Prop
  | some (.var v) => f.Defines v
  | some (.imm _ w) => w.isValid
  | none => False

/-- Control may go from the end of the block `p` to the block `s`. -/
structure Edge (f : Function) (p s : Block) : Prop where
  source : p ∈ f.blocks
  target : s ∈ f.blocks
  leads : ∃ t ∈ p.code.getLast?, t.LeadsTo s.id

/-- A function of which the back end can make code. -/
structure Lawful (f : Function) : Prop where
  nonempty : f.blocks ≠ []
  entry : ∃ b ∈ f.blocks, b.id = f.entry
  result : f.result = Width.none ∨ f.result.isValid
  slot : ∀ (k : Nat) (s : Slot), f.slots[k]? = some s → s.id = k ∧ 0 < s.count ∧ s.element.isValid
  block : ∀ (k : Nat) (b : Block), f.blocks[k]? = some b → b.id = k
  labels : (f.blocks.map Block.label).Nodup
  shape : ∀ b ∈ f.blocks, ∃ phis body last, b.Shaped phis body last ∧
    ∀ id, last.LeadsTo id → ∃ c ∈ f.blocks, c.id = id
  width : ∀ v, f.Defines v → v.width.isValid
  nodup : (f.vars.map Var.id).Nodup
  entered : ∀ b ∈ f.blocks, (∃ p, f.Edge p b) ↔ b.id ≠ f.entry
  provides : ∀ b ∈ f.blocks, ∀ i ∈ b.code, ∀ o, i.Reads o → f.Provides o
  rule : ∀ b ∈ f.blocks, ∀ i ∈ b.code, i.isPhi = false → f.Fits b i
  phiEdges : ∀ b ∈ f.blocks, ∀ dest edges, .phi dest edges ∈ b.code → (edges.map PhiEdge.pred).Nodup ∧
    ∀ id, id ∈ edges.map PhiEdge.pred ↔ ∃ p, f.Edge p b ∧ p.id = id
  phiWidth : ∀ b ∈ f.blocks, ∀ dest edges, .phi dest edges ∈ b.code →
    ∀ e ∈ edges, e.value.map Operand.width = some dest.width

end Function

/-! ## The lists of the check -/

theorem MemRef.reads_iff_mem_uses {a : MemRef} {o : Option Operand} : a.Reads o ↔ o ∈ a.uses := by
  constructor
  · rintro (_ | _) <;> simp [uses]
  · intro h
    cases a with
    | pointer base offset =>
      cases mem_singleton.1 h
      exact .base
    | slot ref =>
      obtain ⟨slot, index, scale, offset⟩ := ref
      cases index with
      | none => cases h
      | some x =>
        cases mem_singleton.1 h
        exact .index

namespace Instr

variable {i : Instr} {o : Option Operand} {v : Var} {id : BlockId}

theorem reads_iff : i.Reads o ↔ o ∈ i.uses ∨ ∃ dest edges, i = .phi dest edges ∧ ∃ e ∈ edges, e.value = o := by
  constructor
  · intro h
    cases h with
    | loadFrom h => exact .inl (MemRef.reads_iff_mem_uses.1 h)
    | storeTo h => exact .inl (mem_cons_of_mem _ (MemRef.reads_iff_mem_uses.1 h))
    | slotAddr h => exact .inl (MemRef.reads_iff_mem_uses.1 h)
    | phi he => exact .inr ⟨_, _, rfl, _, he, rfl⟩
    | arg h => exact .inl h
    | _ => exact .inl (by simp [uses])
  · rintro (h | ⟨dest, edges, rfl, e, he, rfl⟩)
    · cases i with
      | binop op dest x y =>
        obtain rfl | rfl := mem_pair.1 h
        · exact .binopLeft
        · exact .binopRight
      | cmp cond dest x y =>
        obtain rfl | rfl := mem_pair.1 h
        · exact .cmpLeft
        · exact .cmpRight
      | cast op dest x =>
        cases mem_singleton.1 h
        exact .cast
      | load dest a =>
        cases a with
        | none => cases h
        | some a => exact .loadFrom (MemRef.reads_iff_mem_uses.2 h)
      | store x a =>
        rcases mem_cons.1 h with rfl | h
        · exact .stored
        · cases a with
          | none => cases h
          | some a => exact .storeTo (MemRef.reads_iff_mem_uses.2 h)
      | slotAddr dest ref => exact .slotAddr (MemRef.reads_iff_mem_uses.2 h)
      | call dest callee args => exact .arg h
      | branch condition t e =>
        cases mem_singleton.1 h
        exact .condition
      | ret value =>
        cases value with
        | none => cases h
        | some x =>
          cases mem_singleton.1 h
          exact .returned
      | phi | jump => cases h
    · exact .phi he

theorem defines_iff : i.Defines v ↔ i.dest? = some v := by
  constructor
  · rintro (_ | _) <;> rfl
  · intro h
    cases i with
    | call dest callee args =>
      cases h
      exact .call
    | store | jump | branch | ret => cases h
    | _ =>
      cases h
      constructor

theorem leadsTo_iff : i.LeadsTo id ↔ id ∈ i.successors := by
  constructor
  · intro h
    cases h with
    | jump => exact mem_singleton_self id
    | thenTarget => exact mem_successors_branch.2 (.inl rfl)
    | elseTarget => exact mem_successors_branch.2 (.inr rfl)
  · intro h
    cases i with
    | jump t =>
      cases mem_singleton.1 h
      exact .jump
    | branch o t e =>
      obtain rfl | rfl := mem_successors_branch.1 h
      · exact .thenTarget
      · exact .elseTarget
    | _ => cases h

theorem isTerminator_of_leadsTo (h : i.LeadsTo id) : i.isTerminator := by
  cases h <;> rfl

end Instr

namespace Function

variable {f : Function} {p s b : Block} {i : Instr} {o : Option Operand} {v : Var}

theorem defines_iff_mem_vars : f.Defines v ↔ v ∈ f.vars := by
  simp only [Defines, vars, mem_append, mem_flatMap, mem_filterMap, Instr.defines_iff]

theorem provides_iff_readable : f.Provides o ↔ f.Readable o := by
  match o with
  | none => rfl
  | some (.imm _ _) => rfl
  | some (.var v) => exact defines_iff_mem_vars

theorem edge_iff : f.Edge p s ↔ p ∈ f.blocks ∧ s ∈ f.blocks ∧ s.id ∈ p.successors := by
  have hleads : (∃ t ∈ p.code.getLast?, t.LeadsTo s.id) ↔ s.id ∈ p.successors := by
    unfold Block.successors Block.terminator?
    cases p.code.getLast? with
    | none => simp
    | some t =>
      cases ht : t.isTerminator with
      | true => simp [Option.filter_some, ht, Instr.leadsTo_iff]
      | false =>
        have : ¬t.LeadsTo s.id := fun h => by simp [Instr.isTerminator_of_leadsTo h] at ht
        simp [Option.filter_some, ht, this]
  rw [← hleads]
  exact ⟨fun h => ⟨h.source, h.target, h.leads⟩, fun ⟨hp, hs, h⟩ => ⟨hp, hs, h⟩⟩

theorem exists_edge_iff (hb : b ∈ f.blocks) {id : BlockId} :
    (∃ p, f.Edge p b ∧ p.id = id) ↔ id ∈ f.predecessors b.id := by
  simp only [edge_iff, mem_predecessors_iff, hb, true_and, and_assoc]

theorem exists_edge_iff_ne_nil (hb : b ∈ f.blocks) : (∃ p, f.Edge p b) ↔ f.predecessors b.id ≠ [] := by
  constructor
  · rintro ⟨p, hp⟩
    exact ne_nil_of_mem ((exists_edge_iff hb).1 ⟨p, hp, rfl⟩)
  · intro h
    obtain ⟨p, hp, -⟩ := (exists_edge_iff hb).2 (head_mem h)
    exact ⟨p, hp⟩

theorem WellFormed.lawful (h : f.WellFormed) : f.Lawful where
  nonempty := by
    intro hnil
    have := h.entry
    simp [block?, hnil] at this
  entry := by
    obtain ⟨b, hb⟩ := Option.isSome_iff_exists.1 h.entry
    exact ⟨b, h.block?_eq_some_iff.1 hb⟩
  result := h.result
  slot := h.slot
  block := h.block
  labels := h.labels
  shape := by
    intro b hb
    obtain ⟨phis, body, last, hshape⟩ := h.shape b hb
    refine ⟨phis, body, last, hshape, fun id hid => ?_⟩
    -- Only the last instruction of a block leads anywhere.
    have hmem : id ∈ b.successors := hshape.successors ▸ Instr.leadsTo_iff.1 hid
    obtain ⟨c, hc⟩ := Option.isSome_iff_exists.1 (h.target b hb id hmem)
    exact ⟨c, h.block?_eq_some_iff.1 hc⟩
  width := fun v hv => h.width v (defines_iff_mem_vars.1 hv)
  nodup := h.nodup
  entered := fun b hb => (exists_edge_iff_ne_nil hb).trans (not_congr (h.entered b hb))
  provides := by
    intro b hb i hi o ho
    rw [provides_iff_readable]
    rcases Instr.reads_iff.1 ho with huse | ⟨dest, edges, rfl, e, he, rfl⟩
    · exact h.readable b hb i hi o huse
    · exact PhiFits.readable (h.fits b hb _ hi) e he
  rule := fun b hb i hi _ => h.fits b hb i hi
  phiEdges := by
    intro b hb dest edges hphi
    have hfits : f.PhiFits b dest edges := h.fits b hb _ hphi
    exact ⟨hfits.nodup, fun id => (hfits.mem_iff id).trans (exists_edge_iff hb).symm⟩
  phiWidth := fun b hb dest edges hphi => PhiFits.width (h.fits b hb _ hphi)

theorem Lawful.wellFormed (h : f.Lawful) : f.WellFormed where
  entry := by
    -- The number of a block is its place in the list.
    obtain ⟨b, hb, hid⟩ := h.entry
    obtain ⟨k, hk⟩ := getElem?_of_mem hb
    have hentry : f.entry = k := hid.symm.trans (h.block k b hk)
    simp [block?, hentry, hk]
  result := h.result
  slot := h.slot
  width := fun v hv => h.width v (defines_iff_mem_vars.2 hv)
  nodup := h.nodup
  block := h.block
  labels := h.labels
  shape := by
    intro b hb
    obtain ⟨phis, body, last, hshape, -⟩ := h.shape b hb
    exact ⟨phis, body, last, hshape⟩
  target := by
    intro b hb id hid
    obtain ⟨phis, body, last, hshape, htarget⟩ := h.shape b hb
    rw [hshape.successors] at hid
    obtain ⟨c, hc, rfl⟩ := htarget id (Instr.leadsTo_iff.2 hid)
    obtain ⟨k, hk⟩ := getElem?_of_mem hc
    simp [block?, h.block k c hk, hk]
  entered := fun b hb => not_iff_not.1 ((exists_edge_iff_ne_nil hb).symm.trans (h.entered b hb))
  readable := fun b hb i hi o ho => provides_iff_readable.1 (h.provides b hb i hi o (Instr.reads_iff.2 (.inl ho)))
  fits := by
    intro b hb i hi
    cases i with
    | phi dest edges =>
      obtain ⟨hnodup, hmem⟩ := h.phiEdges b hb dest edges hi
      exact {
        nodup := hnodup
        mem_iff := fun id => (hmem id).trans (exists_edge_iff hb)
        readable := fun e he => provides_iff_readable.1 (h.provides b hb _ hi _ (.phi he))
        width := h.phiWidth b hb dest edges hi }
    | _ => exact h.rule b hb _ hi rfl

theorem lawful_iff_wellFormed : f.Lawful ↔ f.WellFormed := ⟨Lawful.wellFormed, WellFormed.lawful⟩

/-! ## Moves on the way into a block -/

/-- A move gives a phi the value that the phi has for the block `p`: there is no other, it may be read, and it has the
    width of the phi. -/
structure Supplies (f : Function) (p : BlockId) (phi : Var × List PhiEdge) (m : PhiMove) : Prop where
  dest : m.dest = phi.1
  edge : phi.2.filter (·.pred = p) = [⟨p, m.source⟩]
  provides : f.Provides m.source
  width : m.source.map Operand.width = some phi.1.width

theorem filter_pred_eq_singleton {edges : List PhiEdge} (h : (edges.map PhiEdge.pred).Nodup) {e : PhiEdge}
    (he : e ∈ edges) : edges.filter (·.pred = e.pred) = [e] := by
  induction edges with
  | nil => cases he
  | cons x rest ih =>
    obtain ⟨hx, hrest⟩ := nodup_cons.1 h
    rcases mem_cons.1 he with rfl | he
    · have hnone : rest.filter (·.pred = e.pred) = [] := by
        refine filter_eq_nil_iff.2 fun y hy => ?_
        simpa using fun heq => hx (mem_map.2 ⟨y, hy, heq⟩)
      simp [hnone]
    · have hne : x.pred ≠ e.pred := fun heq => hx (mem_map.2 ⟨e, he, heq.symm⟩)
      simp [hne, ih hrest he]

theorem forall₂_flatMap {α β : Type} {r : α → β → Prop} {g : α → List β} {l : List α}
    (h : ∀ a ∈ l, ∃ b, g a = [b] ∧ r a b) : List.Forall₂ r l (l.flatMap g) := by
  induction l with
  | nil => exact .nil
  | cons a l ih =>
    obtain ⟨b, hb, hr⟩ := h a mem_cons_self
    rw [flatMap_cons, hb]
    exact .cons hr (ih fun x hx => h x (mem_cons_of_mem a hx))

theorem Lawful.supplies (h : f.Lawful) (hedge : f.Edge p s) :
    List.Forall₂ (f.Supplies p.id) s.phis (s.phiMoves p.id) := by
  refine forall₂_flatMap ?_
  rintro ⟨dest, edges⟩ hphi
  have hmem : .phi dest edges ∈ s.code := takeWhile_subset _ (Block.mem_phis.1 hphi)
  obtain ⟨hnodup, hpreds⟩ := h.phiEdges s hedge.target dest edges hmem
  obtain ⟨e, he, hpred⟩ := mem_map.1 ((hpreds p.id).2 ⟨p, hedge, rfl⟩)
  have hsingle : edges.filter (·.pred = p.id) = [⟨p.id, e.value⟩] := by
    rw [← hpred]
    exact filter_pred_eq_singleton hnodup he
  refine ⟨⟨dest, e.value⟩, by simp [hsingle], rfl, hsingle, ?_, ?_⟩
  · exact h.provides s hedge.target _ hmem _ (.phi he)
  · exact h.phiWidth s hedge.target dest edges hmem e he

/-- The check accepts exactly the lawful functions. In a function that it accepts, the moves on a way into a block are
    one for each phi of the block, in the order of the phis. -/
theorem verify_eq_ok_iff_lawful (f : Function) :
    (f.verify = .ok () ↔ f.Lawful) ∧
      (f.verify = .ok () → ∀ p s, f.Edge p s → List.Forall₂ (f.Supplies p.id) s.phis (s.phiMoves p.id)) := by
  have hiff : f.verify = .ok () ↔ f.Lawful := verify_eq_ok.trans lawful_iff_wellFormed.symm
  exact ⟨hiff, fun h p s hedge => (hiff.1 h).supplies hedge⟩

end Function

theorem supplies_countdown :
    ∃ p s, Allocation.countdown.verify = .ok () ∧ Allocation.countdown.Edge p s ∧ s.phis.length = 2 ∧
      List.Forall₂ (Allocation.countdown.Supplies p.id) s.phis (s.phiMoves p.id) := by
  have hblock : Allocation.countdown.blocks[1] ∈ Allocation.countdown.blocks := getElem_mem _
  have hedge : Allocation.countdown.Edge Allocation.countdown.blocks[1] Allocation.countdown.blocks[1] :=
    ⟨hblock, hblock, _, rfl, .thenTarget⟩
  exact ⟨_, _, rfl, hedge, rfl, (Function.verify_eq_ok_iff_lawful _).2 rfl _ _ hedge⟩

end RegisterCompiler.IR
