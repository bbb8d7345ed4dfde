import Mathlib
import RegisterCompiler.Target.Register

/-!
# Numbers that are written and read

The decimal text of a word is read as that word again, and the name of a register as that register.
-/

namespace RegisterCompiler

namespace Text

variable {c : Char} {n : Nat}

theorem readDigits_eq_ok {cs : List Char} (hdigits : ∀ c ∈ cs, c.isDigit)
    (hlimit : Nat.ofDigitChars 10 cs n < wordLimit) : readDigits cs n = .ok (Nat.ofDigitChars 10 cs n) := by
  induction cs generalizing n with
  | nil => rfl
  | cons c cs ih =>
    obtain ⟨hc, hcs⟩ := List.forall_mem_cons.1 hdigits
    rw [Nat.ofDigitChars_cons, Nat.mul_comm] at hlimit ⊢
    -- the digits read so far are no more than the whole
    have hnext : n * 10 + (c.toNat - '0'.toNat) < wordLimit := by
      rw [Nat.ofDigitChars_eq_ofDigitChars_zero] at hlimit
      have := Nat.le_mul_of_pos_left (n * 10 + (c.toNat - '0'.toNat)) (Nat.pow_pos (n := cs.length) (show 0 < 10 by decide))
      omega
    rw [readDigits, if_pos hc]
    dsimp only
    rw [if_pos hnext, ih hcs hlimit]

theorem readNatural_toDigits (h : n < wordLimit) : readNatural (Nat.toDigits 10 n) = .ok n := by
  have hne : (Nat.toDigits 10 n).isEmpty = false := by simp
  have hdigits : ∀ c ∈ Nat.toDigits 10 n, c.isDigit := fun c => Nat.isDigit_of_mem_toDigits (by decide) (by decide)
  rw [readNatural, hne, if_neg (by decide), readDigits_eq_ok hdigits (by rwa [Nat.ofDigitChars_ten_toDigits]),
    Nat.ofDigitChars_ten_toDigits]

theorem splitSign_of_isDigit (cs : List Char) (h : c.isDigit) : splitSign (c :: cs) = (false, c :: cs) := by
  unfold splitSign
  split
  · next heq =>
    cases heq
    cases h
  · next heq =>
    cases heq
    cases h
  · rfl

theorem splitSign_toDigits (n : Nat) : splitSign (Nat.toDigits 10 n) = (false, Nat.toDigits 10 n) := by
  cases hdigits : Nat.toDigits 10 n with
  | nil => rfl
  | cons c cs => exact splitSign_of_isDigit cs (Nat.isDigit_of_mem_toDigits (by decide) (by decide) (hdigits ▸ List.mem_cons_self))

theorem toList_decimal (v : Int64) : (decimal v).toList =
    if 0 ≤ v.toInt then Nat.toDigits 10 v.toInt.toNat else '-' :: Nat.toDigits 10 (-v.toInt).toNat := by
  rw [decimal, Int.toString_eq_repr, Int.repr_eq_if]
  split <;> simp [Nat.repr_eq_ofList_toDigits]

theorem readSigned_decimal (v : Int64) : readSigned (decimal v) = .ok v := by
  have hlow := v.le_toInt
  have hhigh := v.toInt_lt
  by_cases hpos : 0 ≤ v.toInt
  · rw [readSigned, toList_decimal, if_pos hpos, splitSign_toDigits]
    dsimp only
    rw [readNatural_toDigits (by unfold wordLimit; omega)]
    have hlimit : v.toInt.toNat < signedLimit := by
      unfold signedLimit
      omega
    simp only [Bool.false_eq_true, if_false, hlimit, if_true]
    rw [← Int64.ofInt_eq_ofNat, Int.toNat_of_nonneg hpos, Int64.ofInt_toInt]
  · rw [readSigned, toList_decimal, if_neg hpos, splitSign]
    dsimp only
    rw [readNatural_toDigits (by unfold wordLimit; omega)]
    have hlimit : (-v.toInt).toNat ≤ signedLimit := by
      unfold signedLimit
      omega
    simp only [if_true, hlimit]
    rw [Int.toNat_of_nonneg (by omega), Int.neg_neg, Int64.ofInt_toInt]

theorem readClamped_decimal (v : Int64) : readClamped (decimal v) = v := by
  rw [readClamped, readSigned_decimal]

theorem mem_decimal {v : Int64} (h : c ∈ (decimal v).toList) : c.isDigit ∨ c = '-' := by
  have hdigit : ∀ n, c ∈ Nat.toDigits 10 n → c.isDigit := fun n => Nat.isDigit_of_mem_toDigits (by decide) (by decide)
  rw [toList_decimal] at h
  split at h
  · exact .inl (hdigit _ h)
  · exact (List.mem_cons.1 h).elim .inr fun h => .inl (hdigit _ h)

theorem decimal_ne_nil (v : Int64) : (decimal v).toList ≠ [] := by
  rw [toList_decimal]
  split <;> simp

end Text

theorem Reg.ofName?_name {r : Reg} (h : r.num < 18) : Reg.ofName? r.name = some r := by
  have hall : ∀ n < 18, Reg.ofName? (Reg.name ⟨UInt8.ofNat n⟩) = some ⟨UInt8.ofNat n⟩ := by decide +kernel
  have := hall r.num.toNat (UInt8.lt_iff_toNat_lt.1 h)
  rwa [UInt8.ofNat_toNat] at this

end RegisterCompiler
