import Mathlib
import RegisterCompiler.Proofs.Scalar

/-!
# Scalar operators are two's-complement arithmetic

A word counts at a width by the bit vector of its low bits (`Width.pattern`), and a bit vector is held in a
word by its sign extension (`Width.word`). Between the two, every scalar operator is the operation of
bit vectors that bears its name: `BinOp.onBits` and `Cond.onBits` list them.
-/

namespace RegisterCompiler

/-! ## Words and bit vectors -/

namespace Width

variable {w : Width} {v : Int64} {a : UInt64}

/-- The low bits of a word, as a bit vector of the width. -/
def pattern (w : Width) (v : Int64) : BitVec w.bits.toNat := v.toBitVec.setWidth w.bits.toNat

/-- The word that holds a bit vector: its sign extension. -/
def word (w : Width) (b : BitVec w.bits.toNat) : Int64 := .ofBitVec (b.signExtend 64)

section

variable (hw : w.isValid)
include hw

theorem bits_le : w.bits.toNat ≤ 64 := by
  have := size_of_isValid hw
  omega

theorem toNat_pattern (v : Int64) : (w.pattern v).toNat = (w.low v).toNat := by
  rw [toNat_low hw, pattern, BitVec.toNat_setWidth]
  rfl

theorem toInt_pattern (v : Int64) : (w.pattern v).toInt = (w.canonical v).toInt := by
  rw [toInt_canonical hw, pattern, BitVec.toInt_setWidth, ← Int64.toInt_toBitVec, BitVec.toInt_eq_toNat_bmod,
    Int.bmod_bmod_of_dvd (Nat.pow_dvd_pow 2 (bits_le hw))]

theorem toInt_word (b : BitVec w.bits.toNat) : (w.word b).toInt = b.toInt := by
  rw [word, ← Int64.toInt_toBitVec, Int64.toBitVec_ofBitVec, BitVec.toInt_signExtend_of_le (bits_le hw)]

theorem word_zero : w.word 0 = 0 :=
  Int64.toInt_inj.1 (by rw [toInt_word hw]; exact BitVec.toInt_zero)

/-- To make a word canonical is to take its low bits and hold them again. -/
theorem canonical_eq_word (v : Int64) : w.canonical v = w.word (w.pattern v) :=
  Int64.toInt_inj.1 (by rw [toInt_word hw, toInt_pattern hw])

theorem pattern_word (b : BitVec w.bits.toNat) : w.pattern (w.word b) = b := by
  refine BitVec.eq_of_toInt_eq ?_
  rw [toInt_pattern hw, toInt_canonical hw, toInt_word hw, BitVec.toInt_bmod_cancel]

theorem pattern_canonical (v : Int64) : w.pattern (w.canonical v) = w.pattern v := by
  rw [canonical_eq_word hw, pattern_word hw]

theorem pattern_eq_iff {u v : Int64} : w.pattern u = w.pattern v ↔ w.canonical u = w.canonical v := by
  rw [← BitVec.toInt_inj, toInt_pattern hw, toInt_pattern hw, Int64.toInt_inj]

theorem canonical_eq_of_pattern {b : BitVec w.bits.toNat} (h : w.pattern v = b) : w.canonical v = w.word b := by
  rw [canonical_eq_word hw, h]

end

/-! ## The operations on patterns -/

theorem pattern_zero (w : Width) : w.pattern 0 = 0 := BitVec.setWidth_zero _ _

theorem pattern_add (hw : w.isValid) (x y : Int64) : w.pattern (x + y) = w.pattern x + w.pattern y :=
  BitVec.setWidth_add _ _ (bits_le hw)

theorem pattern_sub (hw : w.isValid) (x y : Int64) : w.pattern (x - y) = w.pattern x - w.pattern y := by
  rw [pattern, Int64.toBitVec_sub, BitVec.sub_eq_add_neg, BitVec.setWidth_add _ _ (bits_le hw),
    BitVec.setWidth_neg_of_le (bits_le hw), ← BitVec.sub_eq_add_neg]
  rfl

theorem pattern_mul (hw : w.isValid) (x y : Int64) : w.pattern (x * y) = w.pattern x * w.pattern y :=
  BitVec.setWidth_mul _ _ (bits_le hw)

theorem pattern_and (w : Width) (x y : Int64) : w.pattern (x &&& y) = w.pattern x &&& w.pattern y :=
  BitVec.setWidth_and

theorem pattern_or (w : Width) (x y : Int64) : w.pattern (x ||| y) = w.pattern x ||| w.pattern y :=
  BitVec.setWidth_or

theorem pattern_xor (w : Width) (x y : Int64) : w.pattern (x ^^^ y) = w.pattern x ^^^ w.pattern y :=
  BitVec.setWidth_xor

theorem pattern_sdiv (hw : w.isValid) (x y : Int64) :
    w.pattern (w.canonical x / w.canonical y) = (w.pattern x).sdiv (w.pattern y) := by
  refine BitVec.eq_of_toInt_eq ?_
  rw [BitVec.toInt_sdiv, toInt_pattern hw, toInt_pattern hw, toInt_pattern hw, toInt_canonical hw,
    Int64.toInt_div, Int.bmod_bmod_of_dvd (Nat.pow_dvd_pow 2 (bits_le hw))]

theorem pattern_srem (hw : w.isValid) (x y : Int64) :
    w.pattern (w.canonical x % w.canonical y) = (w.pattern x).srem (w.pattern y) := by
  refine BitVec.eq_of_toInt_eq ?_
  rw [toInt_pattern hw, toInt_canonical hw, Int64.toInt_mod, ← toInt_pattern hw, ← toInt_pattern hw,
    ← BitVec.toInt_srem, BitVec.toInt_bmod_cancel]

/-- An unsigned result that fits the width is held as it is. -/
theorem toNat_pattern_toInt64 {u : UInt64} (h : u.toNat < 2 ^ w.bits.toNat) :
    (w.pattern u.toInt64).toNat = u.toNat := by
  rw [pattern, BitVec.toNat_setWidth]
  exact Nat.mod_eq_of_lt h

section

variable (hw : w.isValid)
include hw

theorem low_canonical (v : Int64) : w.low (w.canonical v) = w.low v :=
  UInt64.toNat_inj.1 (by rw [← toNat_pattern hw, pattern_canonical hw, toNat_pattern hw])

theorem low_lt (v : Int64) : (w.low v).toNat < 2 ^ w.bits.toNat := by
  rw [← toNat_pattern hw]
  exact BitVec.isLt _

theorem low_eq_zero_iff : w.low v = 0 ↔ w.pattern v = 0 := by
  rw [← UInt64.toNat_inj, ← toNat_pattern hw, ← BitVec.toNat_inj]
  rfl

theorem pattern_udiv (x y : Int64) : w.pattern (w.low x / w.low y).toInt64 = w.pattern x / w.pattern y := by
  refine BitVec.eq_of_toNat_eq ?_
  have hfits : (w.low x / w.low y).toNat < 2 ^ w.bits.toNat := by
    rw [UInt64.toNat_div]
    exact lt_of_le_of_lt (Nat.div_le_self _ _) (low_lt hw x)
  rw [toNat_pattern_toInt64 hfits, UInt64.toNat_div, BitVec.toNat_udiv, toNat_pattern hw, toNat_pattern hw]

theorem pattern_urem (x y : Int64) : w.pattern (w.low x % w.low y).toInt64 = w.pattern x % w.pattern y := by
  refine BitVec.eq_of_toNat_eq ?_
  have hfits : (w.low x % w.low y).toNat < 2 ^ w.bits.toNat := by
    rw [UInt64.toNat_mod]
    exact lt_of_le_of_lt (Nat.mod_le _ _) (low_lt hw x)
  rw [toNat_pattern_toInt64 hfits, UInt64.toNat_mod, BitVec.toNat_umod, toNat_pattern hw, toNat_pattern hw]

theorem toNat_amount (y : Int64) :
    (y.toUInt64 &&& (w.bits - 1).toUInt64).toNat = (w.pattern y).toNat % w.bits.toNat := by
  have hmask : (y.toUInt64 &&& (w.bits - 1).toUInt64).toNat = y.toUInt64.toNat % w.bits.toNat := by
    rw [UInt64.toNat_and]
    rcases isValid_iff.1 hw with rfl | rfl | rfl | rfl
    · exact Nat.and_two_pow_sub_one_eq_mod _ 3
    · exact Nat.and_two_pow_sub_one_eq_mod _ 4
    · exact Nat.and_two_pow_sub_one_eq_mod _ 5
    · exact Nat.and_two_pow_sub_one_eq_mod _ 6
  have hdvd : w.bits.toNat ∣ 2 ^ w.bits.toNat := by
    rcases isValid_iff.1 hw with rfl | rfl | rfl | rfl <;> decide
  rw [hmask, toNat_pattern hw, toNat_low hw, Nat.mod_mod_of_dvd _ hdvd]

end

theorem toNat_smod (h : a.toNat < 64) : (a.toInt64.toBitVec.smod 64).toNat = a.toNat := by
  have hword : a.toInt64.toBitVec = BitVec.ofNat 64 a.toNat :=
    ((BitVec.ofNat_toNat 64 a.toBitVec).trans (BitVec.setWidth_eq _)).symm
  rw [hword, smod_ofNat _ h, BitVec.toNat_ofNat, Nat.mod_eq_of_lt a.toNat_lt]

theorem pattern_shl (hw : w.isValid) (x : Int64) (h : a.toNat < 64) :
    w.pattern (x <<< a.toInt64) = w.pattern x <<< a.toNat := by
  rw [pattern, Int64.toBitVec_shiftLeft, BitVec.shiftLeft_eq', toNat_smod h,
    BitVec.setWidth_shiftLeft_of_le (bits_le hw)]
  rfl

theorem pattern_lshr (hw : w.isValid) (x : Int64) (h : a.toNat < 64) :
    w.pattern (w.low x >>> a).toInt64 = w.pattern x >>> a.toNat := by
  have hshift : (w.low x >>> a).toNat = (w.low x).toNat >>> a.toNat := by
    rw [UInt64.toNat_shiftRight, Nat.mod_eq_of_lt h]
  have hfits : (w.low x >>> a).toNat < 2 ^ w.bits.toNat := by
    rw [hshift, Nat.shiftRight_eq_div_pow]
    exact lt_of_le_of_lt (Nat.div_le_self _ _) (low_lt hw x)
  refine BitVec.eq_of_toNat_eq ?_
  rw [toNat_pattern_toInt64 hfits, hshift, BitVec.toNat_ushiftRight, toNat_pattern hw]

/-- A shift that copies the sign gives what fits the width if its operand does. -/
theorem pattern_ashr (hw : w.isValid) (x : Int64) (h : a.toNat < 64) :
    w.pattern (w.canonical x >>> a.toInt64) = (w.pattern x).sshiftRight a.toNat := by
  have hshift : (w.canonical x >>> a.toInt64).toInt = (w.canonical x).toInt >>> a.toNat := by
    rw [← Int64.toInt_toBitVec, Int64.toBitVec_shiftRight, BitVec.sshiftRight_eq', toNat_smod h,
      BitVec.toInt_sshiftRight, Int64.toInt_toBitVec]
  refine BitVec.eq_of_toInt_eq ?_
  rw [toInt_pattern hw, toInt_canonical hw, hshift, ← toInt_pattern hw, ← BitVec.toInt_sshiftRight,
    BitVec.toInt_bmod_cancel]

end Width

/-! ## Operators -/

namespace BinOp

/-- The operators that have no value if their second operand is zero. -/
def divisions : List BinOp := [sdiv, udiv, srem, urem]

/-- What an operator does to bit vectors of any width. Signed division truncates towards zero, and the amount
    of a shift is taken modulo the width. -/
def onBits {n : Nat} (op : BinOp) (x y : BitVec n) : BitVec n :=
  match op with
  | add => x + y
  | sub => x - y
  | mul => x * y
  | sdiv => x.sdiv y
  | udiv => x / y
  | srem => x.srem y
  | urem => x % y
  | and => x &&& y
  | or => x ||| y
  | xor => x ^^^ y
  | shl => x <<< (y.toNat % n)
  | lshr => x >>> (y.toNat % n)
  | ashr => x.sshiftRight (y.toNat % n)
  | other _ => 0

variable {w : Width} {op : BinOp} {x y : Int64}

theorem eval_eq_word (hw : w.isValid) (hop : op ∈ all) (x : Int64) {y : Int64}
    (hzero : ¬(op ∈ divisions ∧ w.pattern y = 0)) :
    op.eval w x y = .ok (w.word (op.onBits (w.pattern x) (w.pattern y))) := by
  -- Every operator makes some word canonical; what counts is the pattern of that word.
  suffices h : ∃ v, op.eval w x y = .ok (w.canonical v) ∧ w.pattern v = op.onBits (w.pattern x) (w.pattern y) by
    obtain ⟨v, heval, hv⟩ := h
    rw [heval, Width.canonical_eq_of_pattern hw hv]
  have hcanonical : op ∈ divisions → w.canonical y ≠ 0 := fun h hy =>
    hzero ⟨h, by rw [← Width.pattern_canonical hw, hy, Width.pattern_zero]⟩
  have hlow : op ∈ divisions → w.low (w.canonical y) ≠ 0 := fun h hy =>
    hzero ⟨h, (Width.low_eq_zero_iff hw).1 (Width.low_canonical hw y ▸ hy)⟩
  have hx := Width.pattern_canonical hw x
  have hy := Width.pattern_canonical hw y
  have hamount := Width.toNat_amount hw (w.canonical y)
  rw [hy] at hamount
  have hsmall : ((w.canonical y).toUInt64 &&& (w.bits - 1).toUInt64).toNat < 64 := by
    have := Width.size_of_isValid hw
    exact hamount ▸ lt_of_lt_of_le (Nat.mod_lt _ (by omega)) (Width.bits_le hw)
  cases op with
  | add => exact ⟨_, rfl, by rw [Width.pattern_add hw, hx, hy]; rfl⟩
  | sub => exact ⟨_, rfl, by rw [Width.pattern_sub hw, hx, hy]; rfl⟩
  | mul => exact ⟨_, rfl, by rw [Width.pattern_mul hw, hx, hy]; rfl⟩
  | sdiv => exact ⟨_, if_neg (hcanonical (by decide)), Width.pattern_sdiv hw x y⟩
  | srem => exact ⟨_, if_neg (hcanonical (by decide)), Width.pattern_srem hw x y⟩
  | udiv => exact ⟨_, if_neg (hlow (by decide)), by rw [Width.pattern_udiv hw, hx, hy]; rfl⟩
  | urem => exact ⟨_, if_neg (hlow (by decide)), by rw [Width.pattern_urem hw, hx, hy]; rfl⟩
  | and => exact ⟨_, rfl, by rw [Width.pattern_and, hx, hy]; rfl⟩
  | or => exact ⟨_, rfl, by rw [Width.pattern_or, hx, hy]; rfl⟩
  | xor => exact ⟨_, rfl, by rw [Width.pattern_xor, hx, hy]; rfl⟩
  | shl => exact ⟨_, rfl, by rw [Width.pattern_shl hw _ hsmall, hx, hamount]; rfl⟩
  | lshr => exact ⟨_, rfl, by rw [Width.pattern_lshr hw _ hsmall, hx, hamount]; rfl⟩
  | ashr => exact ⟨_, rfl, by rw [Width.pattern_ashr hw _ hsmall, hamount]; rfl⟩
  | other _ => simp [all] at hop

theorem eval_of_pattern_eq_zero (hw : w.isValid) (hop : op ∈ divisions) (x : Int64) {y : Int64} (hy : w.pattern y = 0) :
    op.eval w x y = .error .divideByZero := by
  have hcanonical : w.canonical y = 0 := by
    rw [Width.canonical_eq_of_pattern hw hy]
    exact Width.word_zero hw
  have hlow : w.low (w.canonical y) = 0 := by rwa [Width.low_canonical hw, Width.low_eq_zero_iff hw]
  cases op with
  | sdiv | srem => exact if_pos hcanonical
  | udiv | urem => exact if_pos hlow
  | _ => simp [divisions] at hop

theorem eval_of_not_mem_all (hop : op ∉ all) (w : Width) (x y : Int64) :
    op.eval w x y = .error (.unknownOperator op) := by
  cases op with
  | other code => rfl
  | _ => simp [all] at hop

/-- The operators fail for want of a divisor only. -/
theorem eval_eq_divideByZero_iff (hw : w.isValid) :
    op.eval w x y = .error .divideByZero ↔ op ∈ divisions ∧ w.pattern y = 0 := by
  refine ⟨fun h => ?_, fun h => eval_of_pattern_eq_zero hw h.1 x h.2⟩
  by_contra hy
  by_cases hop : op ∈ all
  · rw [eval_eq_word hw hop x hy] at h
    cases h
  · rw [eval_of_not_mem_all hop] at h
    cases h

/-- The one quotient that has no place in the width wraps around, and leaves nothing. -/
theorem eval_intMin_neg_one (hw : w.isValid) (hx : w.pattern x = BitVec.intMin _) (hy : w.pattern y = -1#_) :
    sdiv.eval w x y = .ok (w.word (BitVec.intMin _)) ∧ srem.eval w x y = .ok 0 := by
  have hbits : 0 < w.bits.toNat := by
    have := Width.size_of_isValid hw
    omega
  have hone : (w.pattern y).toInt = -1 := by
    rw [hy, BitVec.neg_one_eq_allOnes, BitVec.toInt_allOnes, if_pos hbits]
  have hne : w.pattern y ≠ 0 := fun hzero => by
    rw [hzero, BitVec.ofNat_eq_ofNat, BitVec.toInt_zero] at hone
    cases hone
  have hrem : (w.pattern x).srem (w.pattern y) = 0 := by
    refine BitVec.eq_of_toInt_eq ?_
    rw [BitVec.toInt_srem, hone, Int.tmod_neg, Int.tmod_one, BitVec.ofNat_eq_ofNat, BitVec.toInt_zero]
  constructor
  · rw [eval_eq_word hw (by decide) x (fun h => hne h.2), onBits, hx, hy, BitVec.intMin_sdiv_neg_one]
  · rw [eval_eq_word hw (by decide) x (fun h => hne h.2), onBits, hrem, Width.word_zero hw]

theorem eval_congr (hw : w.isValid) (op : BinOp) {x x' y y' : Int64} (hx : w.pattern x' = w.pattern x)
    (hy : w.pattern y' = w.pattern y) : op.eval w x' y' = op.eval w x y := by
  rw [Width.pattern_eq_iff hw] at hx hy
  simp only [eval, hx, hy]

end BinOp

/-- What a comparison is of bit vectors of any width. -/
def Cond.onBits {n : Nat} (c : Cond) (x y : BitVec n) : Bool :=
  match c with
  | .eq => x == y
  | .ne => x != y
  | .slt => x.slt y
  | .sle => x.sle y
  | .sgt => y.slt x
  | .sge => y.sle x
  | .ult => x.ult y
  | .ule => x.ule y
  | .ugt => y.ult x
  | .uge => y.ule x
  | .other _ => false

theorem Cond.eval_eq_onBits {w : Width} (hw : w.isValid) (c : Cond) (x y : Int64) :
    c.eval w x y = c.onBits (w.pattern x) (w.pattern y) := by
  have heq : (w.canonical x == w.canonical y) = (w.pattern x == w.pattern y) := by
    rw [Bool.eq_iff_iff, beq_iff_eq, beq_iff_eq, Width.pattern_eq_iff hw]
  cases c <;>
    simp only [eval, onBits, bne, heq, Int64.lt_iff_toInt_lt, Int64.le_iff_toInt_le, ← Width.toInt_pattern hw,
      Width.low_canonical hw, UInt64.lt_iff_toNat_lt, UInt64.le_iff_toNat_le, ← Width.toNat_pattern hw,
      BitVec.slt_eq_decide, BitVec.sle_eq_decide, BitVec.ult_eq_decide, BitVec.ule_eq_decide]

namespace CastOp

variable {source target : Width}

theorem eval_sext_eq_word (hs : source.isValid) (ht : target.isValid) (v : Int64) :
    sext.eval source target v = target.word ((source.pattern v).signExtend target.bits.toNat) := by
  refine Width.canonical_eq_of_pattern ht (BitVec.eq_of_toInt_eq ?_)
  rw [Width.toInt_pattern ht, Width.toInt_canonical ht, ← Width.toInt_pattern hs, BitVec.toInt_signExtend]
  rcases Nat.le_total target.bits.toNat source.bits.toNat with hle | hle
  · rw [Nat.min_eq_left hle]
  · rw [Nat.min_eq_right hle, BitVec.toInt_bmod_cancel, ← BitVec.toInt_signExtend_of_le hle,
      BitVec.toInt_bmod_cancel]

theorem eval_zext_eq_word (hs : source.isValid) (ht : target.isValid) (v : Int64) :
    zext.eval source target v = target.word ((source.pattern v).setWidth target.bits.toNat) := by
  refine Width.canonical_eq_of_pattern ht (BitVec.eq_of_toNat_eq ?_)
  rw [Width.pattern, BitVec.toNat_setWidth, BitVec.toNat_setWidth, Width.toNat_pattern hs]
  rfl

/-- Truncation to a width no wider than the source forgets bits of the source. -/
theorem eval_trunc_eq_word (ht : target.isValid) (h : target.bits ≤ source.bits) (v : Int64) :
    trunc.eval source target v = target.word ((source.pattern v).setWidth target.bits.toNat) :=
  Width.canonical_eq_of_pattern ht (BitVec.setWidth_setWidth_of_le _ h).symm

end CastOp

/-- Scalar evaluation is two's-complement arithmetic at the stated width. An operator depends on the low bits of
    its operands only; it fails for want of a divisor exactly if it divides and the low bits of its second
    operand are zero, and otherwise it holds, sign-extended, the result of its operation on bit vectors. The
    quotient of the least value by `-1` wraps around to the least value, with the remainder zero. Comparisons
    are those of bit vectors, with or without a sign, conversions hold the extended or truncated bits, and
    every result is canonical. -/
theorem Width.eval_twosComplement {w : Width} (hw : w.isValid) :
    (∀ (op : BinOp) (x y : Int64),
      (∀ x' y', w.pattern x' = w.pattern x → w.pattern y' = w.pattern y → op.eval w x' y' = op.eval w x y) ∧
      (op.eval w x y = .error .divideByZero ↔ op ∈ BinOp.divisions ∧ w.pattern y = 0) ∧
      (op ∈ BinOp.all → ¬(op ∈ BinOp.divisions ∧ w.pattern y = 0) →
        op.eval w x y = .ok (w.word (op.onBits (w.pattern x) (w.pattern y)))) ∧
      (op ∉ BinOp.all → op.eval w x y = .error (.unknownOperator op)) ∧
      ∀ r, op.eval w x y = .ok r → w.IsCanonical r) ∧
    (∀ x y, w.pattern x = BitVec.intMin _ → w.pattern y = -1#_ →
      BinOp.sdiv.eval w x y = .ok (w.word (BitVec.intMin _)) ∧ BinOp.srem.eval w x y = .ok 0) ∧
    (∀ (c : Cond) (x y : Int64), c.eval w x y = c.onBits (w.pattern x) (w.pattern y)) ∧
    ∀ (source : Width), source.isValid → ∀ v,
      CastOp.sext.eval source w v = w.word ((source.pattern v).signExtend w.bits.toNat) ∧
      CastOp.zext.eval source w v = w.word ((source.pattern v).setWidth w.bits.toNat) ∧
      CastOp.trunc.eval source w v = w.word (w.pattern v) ∧
      (w.bits ≤ source.bits →
        CastOp.trunc.eval source w v = w.word ((source.pattern v).setWidth w.bits.toNat)) ∧
      ∀ op : CastOp, w.IsCanonical (op.eval source w v) := by
  refine ⟨fun op x y => ?_, fun x y => BinOp.eval_intMin_neg_one hw, Cond.eval_eq_onBits hw, fun source hs v => ?_⟩
  · exact ⟨fun x' y' => BinOp.eval_congr hw op, BinOp.eval_eq_divideByZero_iff hw,
      fun hop => BinOp.eval_eq_word hw hop x, fun hop => BinOp.eval_of_not_mem_all hop w x y,
      fun r => BinOp.eval_isCanonical⟩
  · exact ⟨CastOp.eval_sext_eq_word hs hw v, CastOp.eval_zext_eq_word hs hw v, Width.canonical_eq_word hw v,
      fun hle => CastOp.eval_trunc_eq_word hw hle v, fun op => CastOp.eval_isCanonical v⟩

/-- At eight bits: the quotient that wraps around, a divisor that is zero only at the width, a shift by more than
    the width, comparisons that differ by the sign, and the conversion of a negative number. -/
theorem Width.eval_twosComplement_w8 : Width.w8.isValid ∧ Width.w32.isValid ∧
    BinOp.sdiv.eval .w8 384 255 = .ok (-128) ∧ BinOp.srem.eval .w8 384 255 = .ok 0 ∧
    BinOp.udiv.eval .w8 1 256 = .error .divideByZero ∧ BinOp.ashr.eval .w8 128 267 = .ok (-16) ∧
    Cond.slt.eval .w8 128 127 = true ∧ Cond.ult.eval .w8 128 127 = false ∧
    CastOp.trunc.eval .w32 .w8 384 = -128 := by
  obtain ⟨hop, hleast, hcond, hcast⟩ := Width.eval_twosComplement (w := .w8) rfl
  have hquotient := hleast 384 255 (by decide) (by decide)
  have hdivisor := (hop .udiv 1 256).2.1.2 ⟨by decide, by decide⟩
  have hshift := (hop .ashr 128 267).2.2.1 (by decide) (by decide)
  exact ⟨rfl, rfl, hquotient.1, hquotient.2, hdivisor, hshift, hcond .slt 128 127, hcond .ult 128 127,
    (hcast .w32 rfl 384).2.2.1⟩

end RegisterCompiler
