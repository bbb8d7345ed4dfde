import Mathlib
import RegisterCompiler.Scalar

/-!
# Words and their canonical forms

A value of a width is held as a word that equals its own canonical form. In these terms the operators are
closed: whatever they compute at a machine width is canonical.
-/

namespace RegisterCompiler

variable {a b : Int64} {n : Nat} {source target w : Width}

/-! ## Sums within the range of words -/

theorem toInt_eight : (8 : Int64).toInt = 8 := rfl

theorem toInt_add_of_bounds (hlow : -2 ^ 63 ≤ a.toInt + b.toInt) (hhigh : a.toInt + b.toInt < 2 ^ 63) :
    (a + b).toInt = a.toInt + b.toInt := by
  rw [Int64.toInt_add, Int.bmod_eq_of_le] <;> omega

theorem toInt_sub_of_bounds (hlow : -2 ^ 63 ≤ a.toInt - b.toInt) (hhigh : a.toInt - b.toInt < 2 ^ 63) :
    (a - b).toInt = a.toInt - b.toInt := by
  rw [Int64.toInt_sub, Int.bmod_eq_of_le] <;> omega

theorem toInt_neg_of_bounds {a : Int64} (h : -2 ^ 63 < a.toInt) : (-a).toInt = -a.toInt := by
  have := a.toInt_lt
  rw [Int64.toInt_neg, Int.bmod_eq_of_le] <;> omega

theorem toInt_mul_of_bounds (hlow : -2 ^ 63 ≤ a.toInt * b.toInt) (hhigh : a.toInt * b.toInt < 2 ^ 63) :
    (a * b).toInt = a.toInt * b.toInt := by
  rw [Int64.toInt_mul, Int.bmod_eq_of_le] <;> omega

theorem toInt_ofNat_of_bounds (h : n < 2 ^ 63) : (Int64.ofNat n).toInt = n :=
  Int64.toInt_ofNat_of_lt h

/-! ## Canonical forms -/

/-- Shifting a word up and back down, with its sign, keeps its low `n` bits as a signed number. -/
theorem toInt_shiftLeft_sshiftRight (x : BitVec 64) (hn : n ≤ 64) (hpos : 0 < n) :
    ((x <<< (64 - n)).sshiftRight (64 - n)).toInt = x.toInt.bmod (2 ^ n) := by
  have hpow : 2 ^ 64 = 2 ^ (64 - n) * 2 ^ n := by rw [← Nat.pow_add]; congr 1; omega
  have heven : 2 ∣ 2 ^ n := ⟨2 ^ (n - 1), by rw [← Nat.pow_succ']; congr 1; omega⟩
  have hdown : ((2 ^ (64 - n) : Nat) : Int) ≠ 0 := by exact_mod_cast Nat.ne_of_gt (Nat.two_pow_pos _)
  have hlift : (x.toNat : Int).bmod (2 ^ n) = x.toInt.bmod (2 ^ n) := by
    rw [BitVec.toInt_eq_toNat_bmod, Int.bmod_bmod_of_dvd (Nat.pow_dvd_pow 2 hn)]
  rw [BitVec.toInt_sshiftRight, BitVec.toInt_shiftLeft, Nat.shiftLeft_eq, hpow, Nat.mul_comm,
    Int.natCast_mul, Int.mod_bmod_mul_of_pos _ _ (Nat.two_pow_pos _) heven, Int.shiftRight_eq_div_pow,
    Int.natCast_pow, Int.mul_ediv_cancel_left, hlift]
  simpa using hdown

namespace Width

theorem isValid_iff : w.isValid ↔ w = w8 ∨ w = w16 ∨ w = w32 ∨ w = w64 := by
  simp [isValid, all]

theorem isValid_w64 : w64.isValid := rfl

theorem size_w64 : w64.size = 8 := rfl

theorem size_of_isValid (hw : w.isValid) : w.bits.toNat = 8 * w.size ∧ 1 ≤ w.size ∧ w.size ≤ 8 := by
  rcases isValid_iff.1 hw with rfl | rfl | rfl | rfl <;> decide

theorem toInt_bytes (w : Width) : w.bytes.toInt = w.size := by
  have : w.size < 2 ^ 63 := by
    have := w.bits.toNat_lt
    unfold size
    omega
  exact Int64.toInt_ofNat_of_lt this

theorem smod_ofNat : ∀ n < 64, (BitVec.ofNat 64 n).smod 64 = BitVec.ofNat 64 n := by decide +kernel

/-- The canonical form of a word is its low bits, read as a signed number, at every width that a word has. -/
theorem toInt_canonical_of_le (hpos : 0 < w.bits.toNat) (hle : w.bits.toNat ≤ 64) (v : Int64) :
    (w.canonical v).toInt = v.toInt.bmod (2 ^ w.bits.toNat) := by
  have hbits : ¬(w.bits = 0 ∨ 64 < w.bits) := by
    rintro (hzero | hgt)
    · rw [hzero] at hpos
      exact absurd hpos (by decide)
    · exact absurd (show 64 < w.bits.toNat from hgt) (by omega)
  have hunused : (BitVec.ofNat 64 (64 - w.bits.toNat)).smod 64 = BitVec.ofNat 64 (64 - w.bits.toNat) :=
    smod_ofNat _ (by omega)
  have hnat : (BitVec.ofNat 64 (64 - w.bits.toNat)).toNat = 64 - w.bits.toNat := by
    rw [BitVec.toNat_ofNat, Nat.mod_eq_of_lt (by omega)]
  refine Eq.trans ?_ (toInt_shiftLeft_sshiftRight v.toBitVec hle hpos)
  rw [canonical, if_neg hbits]
  dsimp only
  rw [← Int64.toInt_toBitVec, Int64.toBitVec_shiftRight, Int64.toBitVec_shiftLeft]
  dsimp only [Int64.toBitVec]
  rw [hunused, BitVec.shiftLeft_eq', hnat, BitVec.sshiftRight_eq', hnat]

theorem toInt_canonical (hw : w.isValid) (v : Int64) : (w.canonical v).toInt = v.toInt.bmod (2 ^ w.bits.toNat) := by
  have := size_of_isValid hw
  exact toInt_canonical_of_le (by omega) (by omega) v

/-- A word is canonical at a width if it is the sign extension of its own low bits. -/
def IsCanonical (w : Width) (v : Int64) : Prop := w.canonical v = v

instance (w : Width) (v : Int64) : Decidable (w.IsCanonical v) :=
  inferInstanceAs (Decidable (w.canonical v = v))

theorem canonical_congr (hw : w.isValid) {u v : Int64}
    (h : u.toInt.bmod (2 ^ w.bits.toNat) = v.toInt.bmod (2 ^ w.bits.toNat)) : w.canonical u = w.canonical v :=
  Int64.toInt_inj.1 (by rw [toInt_canonical hw, toInt_canonical hw, h])

theorem isCanonical_canonical_of_le {w w' : Width} (hw : w.isValid) (hw' : w'.isValid)
    (h : w'.bits ≤ w.bits) (v : Int64) : w.IsCanonical (w'.canonical v) := by
  refine Int64.toInt_inj.1 ?_
  have hpow : 2 ^ w'.bits.toNat ≤ 2 ^ w.bits.toNat := Nat.pow_le_pow_right (by decide) h
  have hpos : 0 < 2 ^ w'.bits.toNat := Nat.two_pow_pos _
  rw [toInt_canonical hw, toInt_canonical hw']
  have hlow := Int.le_bmod (x := v.toInt) hpos
  have hhigh := Int.bmod_lt (x := v.toInt) hpos
  exact Int.bmod_eq_of_le (by omega) (by omega)

@[simp]
theorem canonical_canonical (w : Width) (v : Int64) : w.canonical (w.canonical v) = w.canonical v := by
  by_cases hbits : 0 < w.bits.toNat ∧ w.bits.toNat ≤ 64
  · refine Int64.toInt_inj.1 ?_
    rw [toInt_canonical_of_le hbits.1 hbits.2, toInt_canonical_of_le hbits.1 hbits.2, Int.bmod_bmod]
  · -- A width beyond those of a word keeps nothing.
    have hnone : w.bits = 0 ∨ 64 < w.bits := by
      rw [← UInt8.toNat_inj, UInt8.lt_iff_toNat_lt]
      change w.bits.toNat = 0 ∨ 64 < w.bits.toNat
      omega
    rw [canonical, if_pos hnone, canonical, if_pos hnone]

theorem canonical_w64 (v : Int64) : w64.canonical v = v := by
  refine Int64.toInt_inj.1 ?_
  rw [toInt_canonical isValid_w64]
  exact v.toInt_bmod

theorem toNat_low (hw : w.isValid) (v : Int64) : (w.low v).toNat = v.toUInt64.toNat % 2 ^ w.bits.toNat := by
  rcases isValid_iff.1 hw with rfl | rfl | rfl | rfl
  · exact Nat.and_two_pow_sub_one_eq_mod v.toUInt64.toNat 8
  · exact Nat.and_two_pow_sub_one_eq_mod v.toUInt64.toNat 16
  · exact Nat.and_two_pow_sub_one_eq_mod v.toUInt64.toNat 32
  · exact (Nat.mod_eq_of_lt v.toUInt64.toNat_lt).symm

theorem isCanonical_low_of_lt {w w' : Width} (hw : w.isValid) (hw' : w'.isValid)
    (h : w'.bits < w.bits) (v : Int64) : w.IsCanonical (w'.low v).toInt64 := by
  refine Int64.toInt_inj.1 ?_
  rw [toInt_canonical hw]
  have hbits : w'.bits.toNat + 1 ≤ w.bits.toNat := h
  have hpow : 2 ^ w'.bits.toNat * 2 ≤ 2 ^ w.bits.toNat := by
    rw [← Nat.pow_succ]
    exact Nat.pow_le_pow_right (by decide) hbits
  have hword : 2 ^ w.bits.toNat ≤ 2 ^ 64 := by
    have := size_of_isValid hw
    exact Nat.pow_le_pow_right (by decide) (by omega)
  have hlow : (w'.low v).toNat < 2 ^ w'.bits.toNat := by
    rw [toNat_low hw']
    exact Nat.mod_lt _ (Nat.two_pow_pos _)
  have hint : (w'.low v).toInt64.toInt = (w'.low v).toNat := by
    rw [← Int64.toInt_toBitVec, BitVec.toInt_eq_toNat_of_lt]
    · rfl
    · change 2 * (w'.low v).toNat < 2 ^ 64
      omega
  rw [hint]
  exact Int.bmod_eq_of_le (by omega) (by omega)

end Width

/-! ## Results of operators -/

theorem BinOp.eval_isCanonical {op : BinOp} {x y r : Int64} (h : op.eval w x y = .ok r) : w.IsCanonical r := by
  have hform : ∃ v, r = w.canonical v := by
    unfold BinOp.eval at h
    cases op <;> simp only at h <;> (try split at h) <;> cases h <;> exact ⟨_, rfl⟩
  obtain ⟨v, rfl⟩ := hform
  exact Width.canonical_canonical _ v

/-- An operator looks at its second operand at its own width only. -/
theorem BinOp.eval_canonical_right (op : BinOp) (w : Width) (x y : Int64) :
    op.eval w x (w.canonical y) = op.eval w x y := by
  simp [BinOp.eval]

theorem Cond.eval_canonical_right (c : Cond) (w : Width) (x y : Int64) : c.eval w x (w.canonical y) = c.eval w x y := by
  simp [Cond.eval]

theorem isCanonical_ite_one_zero (hw : w.isValid) (b : Bool) : w.IsCanonical (if b then 1 else 0) := by
  rcases Width.isValid_iff.1 hw with rfl | rfl | rfl | rfl <;> cases b <;> decide

theorem CastOp.eval_isCanonical {op : CastOp} (v : Int64) : target.IsCanonical (op.eval source target v) := by
  cases op <;> exact Width.canonical_canonical _ _

theorem CastOp.eval_sext (hs : source.isValid) (ht : target.isValid) (h : source.bits < target.bits) (v : Int64) :
    CastOp.sext.eval source target v = source.canonical v :=
  Width.isCanonical_canonical_of_le ht hs (UInt8.le_of_lt h) v

theorem CastOp.eval_zext (hs : source.isValid) (ht : target.isValid) (h : source.bits < target.bits) (v : Int64) :
    CastOp.zext.eval source target v = (source.low v).toInt64 :=
  Width.isCanonical_low_of_lt ht hs h v

end RegisterCompiler
