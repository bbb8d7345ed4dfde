import RegisterCompiler.Proofs.Straight
import RegisterCompiler.Proofs.TwosComplement

/-!
# Conversions

A truth value is carried in eight bits as 0 or 1, any other integer as the sign extension of its bits. Conversions from
and to truth values are therefore computed by other operators than the rest.
-/

namespace RegisterCompiler

open Success List

/-- What a conversion makes of the bits of a value. -/
def CastOp.onBits {n : Nat} (op : CastOp) (k : Nat) (v : BitVec n) : BitVec k :=
  match op with
  | sext => v.signExtend k
  | zext | trunc | other _ => v.setWidth k

namespace Llvm

/-- The word that carries a value of type `iN`. -/
def carried {n : Nat} (v : BitVec n) : Int64 := if n = 1 then .ofNat v.toNat else .ofBitVec (v.signExtend 64)

/-- The code between two scopes gives `dest` the value that the conversion makes of the operand's. -/
def Scope.Converts (s s' : Scope) (op : CastOp) (n k : Nat) (x : IR.Operand) (dest : IR.Var) : Prop :=
  ∃ code, s'.code = s.code ++ code ∧ ∀ (a : IR.Activation) (v : BitVec n), a.read x = carried v →
    ∃ a', a.Performs code a' ∧ a'.read (.var dest) = carried (op.onBits k v)

variable {s s' : Scope} {x : IR.Operand} {dest : IR.Var} {pos : Pos} {value : Value} {source target : Ty}
  {result : String} {op : CastOp} {n k : Nat} {w w' : Width}

/-! ## What the words are -/

theorem carried_eq_word (hw : w.isValid) (v : BitVec w.bits.toNat) : carried v = w.word v := by
  have := Width.size_of_isValid hw
  exact if_neg (by omega)

theorem eval_carried (hop : op ∈ CastOp.all) (hw : w.isValid) (hw' : w'.isValid)
    (htrunc : op = .trunc → w'.bits ≤ w.bits) (v : BitVec w.bits.toNat) :
    op.eval w w' (carried v) = carried (op.onBits w'.bits.toNat v) := by
  rw [carried_eq_word hw, carried_eq_word hw']
  cases op with
  | sext => rw [CastOp.eval_sext_eq_word hw hw', Width.pattern_word hw, CastOp.onBits]
  | zext => rw [CastOp.eval_zext_eq_word hw hw', Width.pattern_word hw, CastOp.onBits]
  | trunc => rw [CastOp.eval_trunc_eq_word hw' (htrunc rfl), Width.pattern_word hw, CastOp.onBits]
  | other code => simp [CastOp.all] at hop

theorem and_carried : ∀ b : BitVec 8, BinOp.and.eval .w8 (carried b) 1 = .ok (carried (b.setWidth 1)) := by
  decide +kernel

theorem and_trunc_carried (hw : w.isValid) (v : BitVec w.bits.toNat) :
    BinOp.and.eval .w8 (CastOp.trunc.eval w .w8 (carried v)) 1 = .ok (carried (v.setWidth 1)) := by
  have hbits : Width.w8.bits ≤ w.bits := by rcases Width.isValid_iff.1 hw with rfl | rfl | rfl | rfl <;> decide
  have hlow : (v.setWidth 8).setWidth 1 = v.setWidth 1 := BitVec.setWidth_setWidth_of_le v (by decide)
  rw [eval_carried (by decide) hw (by decide) fun _ => hbits, ← hlow]
  exact and_carried _

theorem sub_carried : ∀ v : BitVec 1, BinOp.sub.eval .w8 0 (carried v) = .ok (carried (v.signExtend 8)) := by
  decide

theorem sub_zext_carried (hw : w.isValid) (v : BitVec 1) :
    BinOp.sub.eval w 0 (CastOp.zext.eval .w8 w (carried v)) = .ok (carried (v.signExtend w.bits.toNat)) := by
  rcases Width.isValid_iff.1 hw with rfl | rfl | rfl | rfl <;> revert v <;> decide

theorem or_carried : ∀ v : BitVec 1, BinOp.or.eval .w8 (carried v) 0 = .ok (carried (v.setWidth 8)) := by
  decide

theorem zext_carried (hw : w.isValid) (v : BitVec 1) :
    CastOp.zext.eval .w8 w (carried v) = carried (v.setWidth w.bits.toNat) := by
  rcases Width.isValid_iff.1 hw with rfl | rfl | rfl | rfl <;> revert v <;> decide

/-! ## Code -/

namespace Scope.Converts

theorem cast (h : ∀ v : BitVec n, op.eval x.width dest.width (carried v) = carried (op.onBits k v)) :
    s.Converts { s with code := s.code ++ [.cast op dest (some x)] } op n k x dest := by
  refine ⟨_, rfl, fun a v hv => ⟨_, .cast, ?_⟩⟩
  rw [IR.Activation.read_assign_self, hv, h]

theorem binop (bop : BinOp) (y z : IR.Operand) (h : ∀ (a : IR.Activation) (v : BitVec n), a.read x = carried v →
    bop.eval dest.width (a.read y) (a.read z) = .ok (carried (op.onBits k v))) :
    s.Converts { s with code := s.code ++ [.binop bop dest (some y) (some z)] } op n k x dest :=
  ⟨_, rfl, fun a v hv => ⟨_, .binop (h a v hv), IR.Activation.read_assign_self ..⟩⟩

theorem cast_binop (cop : CastOp) (w : Width) (bop : BinOp) (y z : IR.Operand) (h : ∀ (a : IR.Activation) (v : BitVec n),
    a.read (.var ⟨s.nextVar, w⟩) = cop.eval x.width w (carried v) →
      bop.eval dest.width (a.read y) (a.read z) = .ok (carried (op.onBits k v))) :
    s.Converts { s.adding w (.cast cop · (some x)) with
      code := (s.adding w (.cast cop · (some x))).code ++ [.binop bop dest (some y) (some z)] } op n k x dest := by
  refine ⟨_, append_assoc .., fun a v hv => ⟨_, .append .cast (.binop (h _ v ?_)), IR.Activation.read_assign_self ..⟩⟩
  rw [IR.Activation.read_assign_self, hv]

end Scope.Converts

section

variable {s₀ : Scope} (hx : (operand pos value source).run s = .ok (x, s₀)) (hdest : s.values.lookup result = some dest)

include hx hdest

theorem run_operand_result {rest : IR.Operand → IR.Var → Lowering Unit} (h : (rest x dest).run s₀ = .ok ((), s')) :
    (do let x ← operand pos value source; let dest ← resultVar result; rest x dest).run s = .ok ((), s') := by
  obtain ⟨_, hadds⟩ := adding_operand pos value source s x s₀ hx
  have hresult : (resultVar result).run s₀ = .ok (dest, s₀) := by
    show Except.ok ((s₀.values.lookup result).getD _, s₀) = _
    rw [hadds.eq, hdest, Option.getD_some]
  exact run_bind_eq_ok.2 ⟨x, s₀, hx, run_bind_eq_ok.2 ⟨dest, s₀, hresult, h⟩⟩

theorem converts_to_bool (hw : w.isValid) (hxw : x.width = w) (hwidth : dest.width = .w8) :
    ∃ s', (lowerCast pos result .trunc source value .bool).run s = .ok ((), s') ∧
      s₀.Converts s' .trunc w.bits.toNat 1 x dest := by
  by_cases hw8 : w = .w8
  · refine ⟨_, run_operand_result hx hdest ?_, .binop .and x (.const 1 .w8) fun a v hv => ?_⟩
    · rw [if_pos rfl, if_neg (not_not_intro rfl), if_pos (hxw.trans hw8)]
      rfl
    · subst hw8
      rw [hwidth, hv]
      exact and_carried v
  · refine ⟨_, run_operand_result hx hdest ?_,
      .cast_binop .trunc .w8 .and (.var ⟨s₀.nextVar, .w8⟩) (.const 1 .w8) fun a v hv => ?_⟩
    · rw [if_pos rfl, if_neg (not_not_intro rfl), if_neg fun h => hw8 (hxw.symm.trans h)]
      rfl
    · rw [hwidth, hv, hxw]
      exact and_trunc_carried hw v

theorem converts_sext_bool (hsource : source = .bool) (hxw : x.width = .w8) (htarget : target ≠ .bool)
    (hw : w.isValid) (hwidth : dest.width = w) :
    ∃ s', (lowerCast pos result .sext source value target).run s = .ok ((), s') ∧
      s₀.Converts s' .sext 1 w.bits.toNat x dest := by
  have hzero : w.canonical (w.canonical 0) = 0 := by rcases Width.isValid_iff.1 hw with rfl | rfl | rfl | rfl <;> decide
  by_cases hw8 : w = .w8
  · refine ⟨_, run_operand_result hx hdest ?_, .binop .sub (.const 0 dest.width) x fun a v hv => ?_⟩
    · rw [if_neg htarget, if_pos ⟨hsource, rfl⟩, if_pos (hwidth.trans hw8)]
      rfl
    · subst hw8
      rw [hwidth, hv]
      exact sub_carried v
  · refine ⟨_, run_operand_result hx hdest ?_,
      .cast_binop .zext dest.width .sub (.const 0 dest.width) (.var ⟨s₀.nextVar, dest.width⟩) fun a v hv => ?_⟩
    · rw [if_neg htarget, if_pos ⟨hsource, rfl⟩, if_neg fun h => hw8 (hwidth.symm.trans h)]
      rfl
    · rw [hv, hxw, hwidth]
      show BinOp.sub.eval w (w.canonical (w.canonical 0)) _ = _
      rw [hzero]
      exact sub_zext_carried hw v

theorem converts_zext_bool (hsource : source = .bool) (htarget : target ≠ .bool) (hwidth : dest.width = .w8) :
    ∃ s', (lowerCast pos result .zext source value target).run s = .ok ((), s') ∧ s₀.Converts s' .zext 1 8 x dest := by
  refine ⟨_, run_operand_result hx hdest ?_, .binop .or x (.const 0 .w8) fun a v hv => ?_⟩
  · rw [if_neg htarget, if_neg (fun h => nomatch h.2), if_pos ⟨hsource, hwidth⟩]
    rfl
  · rw [hwidth, hv]
    exact or_carried v

/-- All other conversions are instructions by themselves. -/
theorem converts_cast (htarget : target ≠ .bool) (hsource : source = .bool → op ≠ .sext ∧ dest.width ≠ .w8)
    (hbits : ¬if op = .trunc then x.width.bits ≤ dest.width.bits else dest.width.bits ≤ x.width.bits)
    (h : ∀ v : BitVec n, op.eval x.width dest.width (carried v) = carried (op.onBits k v)) :
    ∃ s', (lowerCast pos result op source value target).run s = .ok ((), s') ∧ s₀.Converts s' op n k x dest := by
  refine ⟨_, run_operand_result hx hdest ?_, .cast h⟩
  rw [if_neg htarget, if_neg fun h => (hsource h.1).1 h.2, if_neg fun h => (hsource h.1).2 h.2, if_neg hbits]
  rfl

end

theorem width_int (hn : n ∈ [1, 8, 16, 32, 64]) (h : (Ty.int (.ofNat n)).width? = some w) :
    n = 1 ∧ w = .w8 ∨ Ty.int (.ofNat n) ≠ .bool ∧ w.isValid ∧ n = w.bits.toNat := by
  fin_cases hn <;> cases h
  · exact .inl ⟨rfl, rfl⟩
  all_goals exact .inr (by decide)

/-- A conversion between integer types, in the direction it has, is lowered to code that computes what it means: whatever
    the value of the operand, its result has the value that carries the converted bits. -/
theorem lowerInstr_cast {s₀ : Scope} (hop : op ∈ CastOp.all) (hn : n ∈ [1, 8, 16, 32, 64]) (hk : k ∈ [1, 8, 16, 32, 64])
    (hdirection : if op = .trunc then k < n else n < k)
    (hx : (operand pos value (.int (.ofNat n))).run s = .ok (x, s₀)) (hxw : (Ty.int (.ofNat n)).width? = some x.width)
    (hdest : s.values.lookup result = some dest) (hwidth : (Ty.int (.ofNat k)).width? = some dest.width) :
    ∃ s', (lowerInstr ⟨pos, .cast result op (.int (.ofNat n)) value (.int (.ofNat k))⟩).run s = .ok ((), s') ∧
      s₀.Converts s' op n k x dest := by
  rcases width_int hn hxw with ⟨rfl, hx8⟩ | ⟨hsource, hw, rfl⟩ <;>
    rcases width_int hk hwidth with ⟨rfl, hdest8⟩ | ⟨htarget, hw', rfl⟩
  · simp at hdirection
  · have hsize := Width.size_of_isValid hw'
    cases op with
    | sext => exact converts_sext_bool hx hdest rfl hx8 htarget hw' rfl
    | zext =>
      by_cases hdest8 : dest.width = .w8
      · rw [show dest.width.bits.toNat = 8 by rw [hdest8]; rfl] at htarget ⊢
        exact converts_zext_bool hx hdest rfl htarget hdest8
      · refine converts_cast hx hdest htarget (fun _ => ⟨nofun, hdest8⟩) ?_ fun v => ?_
        · rw [if_neg nofun, hx8]
          rcases Width.isValid_iff.1 hw' with h | h | h | h
          · exact absurd h hdest8
          all_goals
            rw [h]
            decide
        · rw [hx8]
          exact zext_carried hw' v
    | trunc =>
      rw [if_pos rfl] at hdirection
      omega
    | other code => simp [CastOp.all] at hop
  · have hsize := Width.size_of_isValid hw
    have htrunc : op = .trunc := by
      by_contra hne
      rw [if_neg hne] at hdirection
      omega
    subst htrunc
    exact converts_to_bool hx hdest hw rfl hdest8
  · have hbits : ¬if op = .trunc then x.width.bits ≤ dest.width.bits else dest.width.bits ≤ x.width.bits := by
      split at hdirection <;> rename_i h <;> simp only [h, if_true, if_false]
      · exact UInt8.not_le.2 hdirection
      · exact UInt8.not_le.2 hdirection
    refine converts_cast hx hdest htarget (fun h => absurd h hsource) hbits (eval_carried hop hw hw' fun htrunc => ?_)
    rw [if_pos htrunc] at hdirection
    exact UInt8.le_of_lt hdirection

/-- A truth value is sign-extended by way of a fresh variable, and true becomes minus one. -/
theorem lowerInstr_cast_truth :
    let s : Scope := ⟨"m.ll", "f", [("x", ⟨0, .w8⟩), ("y", ⟨1, .w32⟩)], [], [("entry", 0)], [], 2, [], []⟩
    (∃ s', (lowerInstr ⟨⟨2, 3⟩, .cast "y" .sext (.int 1) (.localName "x") (.int 32)⟩).run s = .ok ((), s') ∧
      s.Converts s' .sext 1 32 (.var ⟨0, .w8⟩) ⟨1, .w32⟩) ∧
    carried 1#1 = 1 ∧ carried (CastOp.sext.onBits 32 1#1) = -1 :=
  ⟨lowerInstr_cast (n := 1) (k := 32) (by decide) (by decide) (by decide) (by decide) rfl rfl rfl rfl, by decide, by decide⟩

end Llvm

end RegisterCompiler
