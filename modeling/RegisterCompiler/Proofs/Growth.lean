import RegisterCompiler.Llvm.Lowering
import RegisterCompiler.Proofs.Reading

/-!
# Code that helps

Before the code of an instruction there may be code that helps to get at its operands: it computes fresh variables, and
nothing that is there already changes.
-/

namespace RegisterCompiler

open Success List

/-- The operator or comparison of an instruction is among those that have names. -/
def IR.Instr.Named : IR.Instr → Prop
  | binop op _ _ _ => op ∈ BinOp.all
  | cmp c _ _ _ => c ∈ Cond.all
  | _ => True

/-- The instruction computes a variable numbered from `n` on. -/
inductive IR.Instr.Helps (n : IR.VarId) : IR.Instr → Prop
  | binop {op : BinOp} {v : IR.Var} {x y : Option IR.Operand} : op ∈ BinOp.all → n ≤ v.id → Helps n (.binop op v x y)
  | cast {op : CastOp} {v : IR.Var} {x : Option IR.Operand} : n ≤ v.id → Helps n (.cast op v x)
  | slotAddr {v : IR.Var} {ref : IR.SlotRef} : n ≤ v.id → Helps n (.slotAddr v ref)

namespace IR.Instr.Helps

variable {n n' : IR.VarId} {i : IR.Instr}

theorem mono (h : i.Helps n) (hn : n' ≤ n) : i.Helps n' := by
  cases h with
  | binop hop hv => exact .binop hop (Int.le_trans hn hv)
  | cast hv => exact .cast (Int.le_trans hn hv)
  | slotAddr hv => exact .slotAddr (Int.le_trans hn hv)

theorem named (h : i.Helps n) : i.Named := by
  cases h with
  | binop hop => exact hop
  | cast | slotAddr => exact trivial

theorem le_id (h : i.Helps n) {u : IR.Var} (hu : i.dest? = some u) : n ≤ u.id := by
  cases h with
  | binop _ hv | cast hv | slotAddr hv => exact Option.some.inj hu ▸ hv

theorem isPhi (h : i.Helps n) : i.isPhi = false := by
  cases h <;> rfl

end IR.Instr.Helps

namespace Llvm

/-! ## Scopes -/

/-- What stands for a name in the code: an address in the frame, or a variable. -/
inductive Carrier where
  | slot (ref : IR.SlotRef)
  | var (v : IR.Var)
  deriving DecidableEq

namespace Scope

def vars (s : Scope) : List IR.Var := s.values.map Prod.snd

/-- What stands for a name. An address in the frame hides a value. -/
def carrier? (s : Scope) (name : String) : Option Carrier :=
  match s.addresses.lookup name with
  | some ref => some (.slot ref)
  | none => (s.values.lookup name).map .var

/-- Only code comes to the scope `s` until it is `s'`. -/
structure Emits (s s' : Scope) : Prop where
  values : s'.values = s.values
  nextVar : s.nextVar ≤ s'.nextVar
  slots : s'.slots = s.slots
  addresses : s'.addresses = s.addresses

/-- The code `aux`, which only helps, is all that comes to the scope `s` until it is `s'`. -/
structure Adds (s s' : Scope) (aux : List IR.Instr) : Prop where
  eq : s' = { s with code := s.code ++ aux, nextVar := s'.nextVar }
  nextVar : s.nextVar ≤ s'.nextVar
  helps : ∀ i ∈ aux, i.Helps s.nextVar

/-- The scope with one more instruction, which gives a fresh variable a value. -/
def adding (s : Scope) (w : Width) (make : IR.Var → IR.Instr) : Scope :=
  { s with nextVar := s.nextVar + 1, code := s.code ++ [make ⟨s.nextVar, w⟩] }

/-- What becomes of an operand. -/
inductive Resolves (s : Scope) : Value → Ty → IR.Operand → Scope → Prop
  | const {type : Ty} {w : Width} (c : Int64) : type.width? = some w → Resolves s (.const c) type (.const c w) s
  | slot {type : Ty} {name : String} {ref : IR.SlotRef} : s.carrier? name = some (.slot ref) →
      Resolves s (.localName name) type (.var ⟨s.nextVar, .w64⟩) (s.adding .w64 (.slotAddr · ref))
  | var {type : Ty} {name : String} {v : IR.Var} : s.carrier? name = some (.var v) → type.width? = some v.width →
      Resolves s (.localName name) type (.var v) s

end Scope

/-- A step of lowering that adds only code that helps. -/
def Adding {α : Type} (x : Lowering α) : Prop := ∀ s a s', x.run s = .ok (a, s') → ∃ aux, Scope.Adds s s' aux

variable {α β : Type} {s s' s'' : Scope} {aux aux' : List IR.Instr} {pos : Pos} {name : String} {ref : IR.SlotRef} {v : IR.Var}
  {type : Ty} {value : Value} {o : IR.Operand}

namespace Scope

theorem carrier?_eq_slot : s.carrier? name = some (.slot ref) ↔ s.addresses.lookup name = some ref := by
  unfold carrier?
  cases s.addresses.lookup name with
  | none | some => simp

theorem carrier?_eq_var :
    s.carrier? name = some (.var v) ↔ s.addresses.lookup name = none ∧ s.values.lookup name = some v := by
  unfold carrier?
  cases s.addresses.lookup name with
  | none | some => simp

theorem mem_vars_of_lookup (h : s.values.lookup name = some v) : v ∈ s.vars := by
  obtain ⟨l, l', heq, -⟩ := lookup_eq_some_iff.1 h
  exact mem_map.2 ⟨(name, v), by simp [heq], rfl⟩

namespace Emits

theorem refl (s : Scope) : s.Emits s := ⟨rfl, Int.le_refl _, rfl, rfl⟩

theorem trans (h : s.Emits s') (h' : s'.Emits s'') : s.Emits s'' where
  values := h'.values.trans h.values
  nextVar := Int.le_trans h.nextVar h'.nextVar
  slots := h'.slots.trans h.slots
  addresses := h'.addresses.trans h.addresses

end Emits

namespace Adds

theorem refl (s : Scope) : s.Adds s [] := ⟨by simp, Int.le_refl _, forall_mem_nil _⟩

theorem trans (h : s.Adds s' aux) (h' : s'.Adds s'' aux') : s.Adds s'' (aux ++ aux') where
  eq := by
    rw [h'.eq, h.eq, append_assoc]
  nextVar := Int.le_trans h.nextVar h'.nextVar
  helps := forall_mem_append.2 ⟨h.helps, fun i hi => (h'.helps i hi).mono h.nextVar⟩

theorem adding {w : Width} {make : IR.Var → IR.Instr} (hmake : (make ⟨s.nextVar, w⟩).Helps s.nextVar) :
    s.Adds (s.adding w make) [make ⟨s.nextVar, w⟩] :=
  ⟨rfl, Int.le_of_lt (Int.lt_succ _), forall_mem_singleton.2 hmake⟩

theorem emits (h : s.Adds s' aux) : s.Emits s' := by
  refine ⟨?_, h.nextVar, ?_, ?_⟩ <;> rw [h.eq]

end Adds

end Scope

/-! ## Steps -/

theorem run_ite_obstruct_eq_ok {c : Prop} [Decidable c] {o : Obstacle} {k : Unit → Lowering α} {a : α} :
    (if c then obstruct pos o >>= k else k ()).run s = .ok (a, s') ↔ ¬c ∧ (k ()).run s = .ok (a, s') := by
  split
  · next hc =>
    refine iff_of_false (fun h => ?_) fun h => h.1 hc
    obtain ⟨_, _, ⟨⟩, _⟩ := run_bind_eq_ok.1 h
  · next hc => exact ⟨fun h => ⟨hc, h⟩, And.right⟩

theorem run_widthOf_eq_ok {w : Width} : (widthOf pos type).run s = .ok (w, s') ↔ type.width? = some w ∧ s = s' := by
  unfold widthOf
  split
  · next w' hw =>
    rw [hw, Option.some.injEq]
    constructor
    · rintro ⟨⟩
      exact ⟨rfl, rfl⟩
    · rintro ⟨rfl, rfl⟩
      rfl
  · next hw =>
    rw [hw]
    constructor
    · rintro ⟨⟩
    · rintro ⟨⟨⟩, -⟩

theorem run_blockOf_eq_ok {label : String} {id : IR.BlockId} :
    (blockOf pos label).run s = .ok (id, s') ↔ s.labels.lookup label = some id ∧ s = s' := by
  rw [blockOf, run_bind_eq_ok]
  constructor
  · rintro ⟨_, _, ⟨⟩, h⟩
    split at h
    · next heq =>
      cases h
      exact ⟨heq, rfl⟩
    · cases h
  · rintro ⟨heq, rfl⟩
    refine ⟨s, s, rfl, ?_⟩
    rw [heq]
    rfl

theorem eq_of_frameAddress? {found : Option IR.SlotRef} (h : (frameAddress? value).run s = .ok (found, s')) :
    s = s' ∧ ∀ ref, found = some ref → ∃ name, value = .localName name ∧ s.addresses.lookup name = some ref := by
  cases value with
  | localName name =>
    cases h
    exact ⟨rfl, fun ref href => ⟨name, rfl, href⟩⟩
  | const c | globalName name =>
    cases h
    exact ⟨rfl, fun ref href => by cases href⟩

theorem resolves_of_operand (h : (operand pos value type).run s = .ok (o, s')) : s.Resolves value type o s' := by
  obtain ⟨w, _, hwidth, hrun⟩ := run_bind_eq_ok.1 h
  obtain ⟨hw, rfl⟩ := run_widthOf_eq_ok.1 hwidth
  cases value with
  | const c =>
    cases hrun
    exact .const c hw
  | globalName name => cases hrun
  | localName name =>
    obtain ⟨_, _, ⟨⟩, hrun⟩ := run_bind_eq_ok.1 hrun
    dsimp only at hrun
    split at hrun
    · next ref href =>
      cases hrun
      exact .slot (Scope.carrier?_eq_slot.2 href)
    · next hnone =>
      obtain ⟨_, _, ⟨⟩, hrun⟩ := run_bind_eq_ok.1 hrun
      split at hrun
      · cases hrun
      · next v hv =>
        obtain ⟨hsame, hrun⟩ := run_ite_obstruct_eq_ok.1 hrun
        cases hrun
        exact .var (Scope.carrier?_eq_var.2 ⟨Option.eq_none_iff_forall_ne_some.2 hnone, hv⟩) (by rw [hw, not_not.1 hsame])

theorem run_operand_var (hv : s.carrier? name = some (.var v)) (hw : type.width? = some v.width) :
    (operand pos (.localName name) type).run s = .ok (.var v, s) := by
  obtain ⟨hnone, hv⟩ := Scope.carrier?_eq_var.1 hv
  refine run_bind_eq_ok.2 ⟨v.width, s, run_widthOf_eq_ok.2 ⟨hw, rfl⟩, run_bind_eq_ok.2 ⟨s, s, rfl, ?_⟩⟩
  dsimp only
  rw [hnone]
  refine run_bind_eq_ok.2 ⟨s, s, rfl, ?_⟩
  rw [hv]
  exact run_ite_obstruct_eq_ok.2 ⟨not_not.2 rfl, rfl⟩

namespace Adding

variable {x : Lowering α} {k : α → Lowering β}

theorem emits {a : α} (h : Adding x) (hrun : x.run s = .ok (a, s')) : s.Emits s' :=
  (h s a s' hrun).elim fun _ haux => haux.emits

theorem pure (a : α) : Adding (Pure.pure a) := by
  rintro s _ _ ⟨⟩
  exact ⟨[], .refl s⟩

theorem obstruct {o : Obstacle} : Adding (Llvm.obstruct pos o : Lowering α) := by
  rintro s a s' ⟨⟩

theorem bind (h : Adding x) (hk : ∀ a, Adding (k a)) : Adding (x >>= k) := by
  intro s b s'' hrun
  obtain ⟨a, s', hx, hrun⟩ := run_bind_eq_ok.1 hrun
  obtain ⟨aux, haux⟩ := h s a s' hx
  obtain ⟨aux', haux'⟩ := hk a s' b s'' hrun
  exact ⟨aux ++ aux', haux.trans haux'⟩

theorem ite_obstruct {c : Prop} [Decidable c] {o : Obstacle} {k : Unit → Lowering α} (h : Adding (k ())) :
    Adding (if c then Llvm.obstruct pos o >>= k else k ()) :=
  fun s a s' hrun => h s a s' (run_ite_obstruct_eq_ok.1 hrun).2

theorem fresh {w : Width} (make : IR.Var → IR.Instr) {k : IR.Var → Lowering β}
    (hmake : ∀ (n : IR.VarId) (v : IR.Var), n ≤ v.id → (make v).Helps n) (hk : ∀ v, Adding (k v)) :
    Adding (do
      let v ← Llvm.fresh w
      emit (make v)
      k v) := by
  intro s b s' hrun
  obtain ⟨_, _, ⟨⟩, hrun⟩ := run_bind_eq_ok.1 hrun
  obtain ⟨_, _, ⟨⟩, hrun⟩ := run_bind_eq_ok.1 hrun
  obtain ⟨aux, haux⟩ := hk _ _ b s' hrun
  exact ⟨_, Scope.Adds.trans (.adding (hmake _ _ (Int.le_refl _))) haux⟩

end Adding

theorem adding_operand (pos : Pos) (value : Value) (type : Ty) : Adding (operand pos value type) := by
  intro s o s' hrun
  cases resolves_of_operand hrun with
  | const c => exact ⟨[], .refl s⟩
  | slot href => exact ⟨_, .adding (.slotAddr (Int.le_refl _))⟩
  | var hv => exact ⟨[], .refl s⟩

theorem adding_emitWide {op : BinOp} (hop : op ∈ BinOp.all) (x y : IR.Operand) : Adding (emitWide op x y) :=
  .fresh (fun v => .binop op v (some x) (some y)) (fun _ _ hv => .binop hop hv) fun _ => .pure _

theorem adding_termValue (t : Term) : Adding (termValue t) := by
  have hscaled : ∀ v : IR.Operand, Adding (do
      let mut v := v
      if t.scale ≠ 1 then v ← emitWide .mul v (.const t.scale Width.w64)
      return v) := fun v => by
    dsimp only
    split
    · exact (adding_emitWide (by decide) _ _).bind fun _ => .pure _
    · exact .pure _
  unfold termValue
  dsimp only
  split
  · exact .fresh (fun v => .cast .sext v (some t.index)) (fun _ _ hv => .cast hv) fun _ => hscaled _
  · exact hscaled _

theorem adding_addTerms (sum : IR.Operand) (terms : List Term) : Adding (addTerms sum terms) := by
  induction terms generalizing sum with
  | nil => exact .pure _
  | cons t rest ih => exact (adding_termValue t).bind fun v => (adding_emitWide (by decide) _ _).bind fun sum => ih sum

theorem adding_addressParts (pos : Pos) (type : Ty) (indices : List TypedValue) : Adding (addressParts pos type indices) := by
  induction indices generalizing type with
  | nil =>
    unfold addressParts
    exact .pure _
  | cons index rest ih =>
    unfold addressParts
    refine .ite_obstruct ?_
    dsimp only
    split
    on_goal 1 => refine (Adding.pure _).bind fun part => ?_
    on_goal 2 => refine (adding_operand _ _ _).bind fun x => (Adding.pure _).bind fun part => ?_
    all_goals
      split
      · exact .pure _
      · split
        · exact (ih _).bind fun _ => .pure _
        · exact .obstruct

/-- The first index is split by itself, and the others follow in the elements of an array. -/
theorem run_addressParts_cons {type : Ty} {index next : TypedValue} {rest : List TypedValue} {part : Int64 × List Term} :
    (addressParts pos type (index :: next :: rest)).run s = .ok (part, s') ↔
      ∃ length element part₁ s₁ part₂, type = .array length element ∧
        (addressParts pos type [index]).run s = .ok (part₁, s₁) ∧
        (addressParts pos element (next :: rest)).run s₁ = .ok (part₂, s') ∧
        part = (part₁.1 + part₂.1, part₁.2 ++ part₂.2) := by
  have heq : ∀ length element, addressParts pos (.array length element) (index :: next :: rest) = do
      let part ← addressParts pos (.array length element) [index]
      let others ← addressParts pos element (next :: rest)
      return (part.1 + others.1, part.2 ++ others.2) := fun length element => by
    rw [addressParts, addressParts]
    dsimp only
    split
    · rfl
    · split <;> simp
  cases type with
  | array length element =>
    rw [heq, run_bind_eq_ok]
    simp only [run_bind_eq_ok]
    constructor
    · rintro ⟨part₁, s₁, h₁, part₂, _, h₂, ⟨⟩⟩
      exact ⟨length, element, part₁, s₁, part₂, rfl, h₁, h₂, rfl⟩
    · rintro ⟨_, _, part₁, s₁, part₂, ⟨⟩, h₁, h₂, rfl⟩
      exact ⟨part₁, s₁, h₁, part₂, s', h₂, rfl⟩
  | _ =>
    refine ⟨fun h => ?_, by rintro ⟨_, _, _, _, _, ⟨⟩, -⟩⟩
    rw [addressParts] at h
    have h := (run_ite_obstruct_eq_ok.1 h).2
    dsimp only at h
    split at h
    · cases h
    · obtain ⟨_, _, -, ⟨⟩⟩ := run_bind_eq_ok.1 h

/-! ## Address computations -/

/-- The variable part of an address in the frame. -/
def termsOf (ref : IR.SlotRef) : List Term := (ref.index.map fun x => (⟨x, ref.scale⟩ : Term)).toList

/-- The address in the frame that an offset and variable parts lead to from another one. -/
def foldRef (ref : IR.SlotRef) (offset : Int64) (terms : List Term) : Lowering IR.SlotRef :=
  match termsOf ref ++ terms with
  | [] => pure { ref with offset := ref.offset + offset }
  | [t] => pure { ref with offset := ref.offset + offset, index := some t.index, scale := t.scale }
  | t :: others => do
    let sum ← addTerms (← termValue t) others
    pure { ref with offset := ref.offset + offset, index := some sum, scale := 1 }

/-- The two operands of which an address with an offset and variable parts is the sum. -/
def totalParts (x : IR.Operand) (offset : Int64) : List Term → Lowering (IR.Operand × IR.Operand)
  | [] => pure (x, .const offset Width.w64)
  | t :: others => do
    let delta ← addTerms (← termValue t) others
    let x ← if offset ≠ 0 then emitWide .add x (.const offset Width.w64) else pure x
    pure (x, delta)

theorem adding_foldRef (ref : IR.SlotRef) (offset : Int64) (terms : List Term) : Adding (foldRef ref offset terms) := by
  unfold foldRef
  split
  · exact .pure _
  · exact .pure _
  · exact (adding_termValue _).bind fun v => (adding_addTerms _ _).bind fun _ => .pure _

theorem adding_totalParts (x : IR.Operand) (offset : Int64) (terms : List Term) : Adding (totalParts x offset terms) := by
  unfold totalParts
  split
  · exact .pure _
  · refine (adding_termValue _).bind fun v => (adding_addTerms _ _).bind fun delta => ?_
    dsimp only
    split
    · exact (adding_emitWide (by decide) _ _).bind fun _ => .pure _
    · exact (Adding.pure _).bind fun _ => .pure _

/-- An address computation splits its indices, and goes on from there in the frame or outside of it. -/
theorem exists_of_lowerGep {result : String} {element : Ty} {base : Value} {indices : List TypedValue}
    (h : (lowerGep pos result element base indices).run s = .ok ((), s')) :
    ∃ offset terms s₁, (addressParts pos element indices).run s = .ok ((offset, terms), s₁) ∧
      ((∃ name ref folded s₂, base = .localName name ∧ s₁.addresses.lookup name = some ref ∧
          (foldRef ref offset terms).run s₁ = .ok (folded, s₂) ∧
          s' = { s₂ with addresses := (result, folded) :: s₂.addresses }) ∨
        ∃ x y z s₂ s₃, (∀ name, base = .localName name → s₁.addresses.lookup name = none) ∧
          (operand pos base .ptr).run s₁ = .ok (x, s₂) ∧ (totalParts x offset terms).run s₂ = .ok ((y, z), s₃) ∧
          s' = { s₃ with
            code := s₃.code ++ [.binop .add ((s₃.values.lookup result).getD ⟨0, .none⟩) (some y) (some z)] }) := by
  obtain ⟨⟨offset, terms⟩, s₁, hparts, h⟩ := run_bind_eq_ok.1 h
  refine ⟨offset, terms, s₁, hparts, ?_⟩
  obtain ⟨found, _, hframe, h⟩ := run_bind_eq_ok.1 h
  obtain ⟨rfl, hfound⟩ := eq_of_frameAddress? hframe
  cases found with
  | some ref =>
    obtain ⟨name, rfl, href⟩ := hfound ref rfl
    have hrun : (foldRef ref offset terms >>= fun folded =>
        modify fun s => { s with addresses := (result, folded) :: s.addresses }).run s₁ = .ok ((), s') := by
      unfold foldRef termsOf
      dsimp only at h
      split at h <;> next heq => simpa only [heq, bind_assoc] using h
    obtain ⟨folded, s₂, hfold, ⟨⟩⟩ := run_bind_eq_ok.1 hrun
    exact .inl ⟨name, ref, folded, s₂, rfl, href, hfold, rfl⟩
  | none =>
    obtain ⟨x, s₂, hx, h⟩ := run_bind_eq_ok.1 h
    obtain ⟨_, _, ⟨⟩, h⟩ := run_bind_eq_ok.1 h
    have hrun : (totalParts x offset terms >>= fun parts =>
        emit (.binop .add ((s₂.values.lookup result).getD ⟨0, .none⟩) (some parts.1) (some parts.2))).run s₂ = .ok ((), s') := by
      unfold totalParts
      split at h
      · exact h
      · by_cases hoffset : offset = 0 <;> simpa [hoffset] using h
    obtain ⟨⟨y, z⟩, s₃, htotal, ⟨⟩⟩ := run_bind_eq_ok.1 hrun
    refine .inr ⟨x, y, z, s₂, s₃, ?_, hx, htotal, ?_⟩
    · rintro name rfl
      exact (Prod.mk.inj (Except.ok.inj hframe)).1
    · simp only [((adding_totalParts _ _ _).emits htotal).values]

end Llvm

end RegisterCompiler
