import RegisterCompiler.Memory
import RegisterCompiler.Proofs.Scalar

/-!
# Laws of the memory

A word in memory is its bytes, the lowest first. Storing a word and loading it again at a width that is no wider
gives its canonical form, and bytes outside of the stored range stay as they are.
-/

namespace RegisterCompiler.Memory

variable (m : Memory) {address bytes : Int64} {a k n : Nat} {w : Width}

@[simp]
theorem size_set (a : Nat) (b : UInt8) : (m.set a b).size = m.size := rfl

theorem get_set (a x : Nat) (b : UInt8) : (m.set a b).get x = if a = x then b else m.get x := by
  unfold get set
  rw [Std.ExtTreeMap.getD_insert]
  by_cases h : a = x <;> simp [h]

@[simp]
theorem size_store (a : Nat) (v : UInt64) (n : Nat) : (m.store a v n).size = m.size := by
  induction n generalizing m a v with
  | zero => rfl
  | succ n ih => exact (ih (m.set a v.toUInt8) (a + 1) (v >>> 8)).trans (m.size_set a v.toUInt8)

theorem get_store_of_outside {a x n : Nat} (h : x < a ∨ a + n ≤ x) (v : UInt64) :
    (m.store a v n).get x = m.get x := by
  induction n generalizing m a v with
  | zero => rfl
  | succ n ih =>
    rw [store, ih _ (by omega), get_set, if_neg (by omega)]

theorem toNat_get_store (h : k < n) (v : UInt64) : ((m.store a v n).get (a + k)).toNat = v.toNat / 256 ^ k % 256 := by
  induction n generalizing m a v k with
  | zero => exact absurd h (Nat.not_lt_zero _)
  | succ n ih =>
    rw [store]
    cases k with
    | zero =>
      rw [get_store_of_outside _ (by omega), get_set, if_pos (Nat.add_zero a).symm]
      simp [UInt64.toNat_toUInt8]
    | succ k =>
      have hshift : (v >>> 8).toNat = v.toNat / 256 := by
        rw [UInt64.toNat_shiftRight]
        simp [Nat.shiftRight_eq_div_pow]
      rw [show a + (k + 1) = a + 1 + k by omega, ih _ (by omega), hshift, Nat.div_div_eq_div_mul,
        Nat.pow_succ, Nat.mul_comm]

theorem get_store_congr {m m' : Memory} (h : ∀ x, m.get x = m'.get x) (a n : Nat) (v : UInt64) (x : Nat) :
    (m.store a v n).get x = (m'.store a v n).get x := by
  induction n generalizing m m' a v with
  | zero => exact h x
  | succ n ih =>
    refine ih (fun y => ?_) (a + 1) (v >>> 8)
    rw [get_set, get_set, h y]

theorem load_congr {m m' : Memory} {a b n : Nat} (h : ∀ k < n, m.get (a + k) = m'.get (b + k)) :
    m.load a n = m'.load b n := by
  induction n generalizing a b with
  | zero => rfl
  | succ n ih =>
    have hrest : m.load (a + 1) n = m'.load (b + 1) n := ih fun k hk => by
      rw [show a + 1 + k = a + (k + 1) by omega, show b + 1 + k = b + (k + 1) by omega]
      exact h (k + 1) (by omega)
    rw [load, load, hrest, show m.get a = m'.get b from h 0 (by omega)]

theorem toNat_load {a n : Nat} (hn : n + 1 ≤ 8) :
    (m.load a n).toNat < 256 ^ n ∧
      (m.load a (n + 1)).toNat = (m.get a).toNat + 256 * (m.load (a + 1) n).toNat := by
  have hstep : ∀ {a n : Nat}, n + 1 ≤ 8 → (m.load (a + 1) n).toNat < 256 ^ n →
      (m.load a (n + 1)).toNat = (m.get a).toNat + 256 * (m.load (a + 1) n).toNat := by
    intro a n hn hlt
    have hpow : 256 ^ n ≤ 256 ^ 7 := Nat.pow_le_pow_right (by decide) (by omega)
    have hget : (m.get a).toNat < 2 ^ 8 := (m.get a).toNat_lt
    have hshift : (m.load (a + 1) n <<< 8).toNat = (m.load (a + 1) n).toNat <<< 8 := by
      rw [UInt64.toNat_shiftLeft]
      exact Nat.mod_eq_of_lt (by rw [Nat.shiftLeft_eq]; simp; omega)
    rw [load, UInt64.toNat_or, hshift, UInt8.toNat_toUInt64, Nat.or_comm,
      ← Nat.shiftLeft_add_eq_or_of_lt hget, Nat.shiftLeft_eq]
    omega
  have hlt : ∀ {n a : Nat}, n ≤ 8 → (m.load a n).toNat < 256 ^ n := by
    intro n
    induction n with
    | zero => intro a _; exact Nat.one_pos
    | succ n ih =>
      intro a hn
      have hget : (m.get a).toNat < 2 ^ 8 := (m.get a).toNat_lt
      have hrest := ih (a := a + 1) (by omega)
      rw [hstep hn hrest, Nat.pow_succ]
      omega
  exact ⟨hlt (by omega), hstep hn (hlt (by omega))⟩

theorem toNat_load_store (hk : k ≤ n) (hn : n ≤ 8) (v : UInt64) :
    ((m.store a v n).load a k).toNat = v.toNat % 256 ^ k := by
  have hmain : ∀ j i, i + j = k → ((m.store a v n).load (a + i) j).toNat = v.toNat / 256 ^ i % 256 ^ j := by
    intro j
    induction j with
    | zero => intro i _; simp [load, Nat.mod_one]
    | succ j ih =>
      intro i hi
      rw [(toNat_load _ (by omega)).2, toNat_get_store _ (by omega), show a + i + 1 = a + (i + 1) by omega,
        ih (i + 1) (by omega), Nat.pow_succ 256 i, ← Nat.div_div_eq_div_mul, Nat.pow_succ', Nat.mod_mul]
  simpa using hmain k 0 (by omega)

/-! ## Values -/

def value (w : Width) (a : Nat) : Int64 := w.canonical (m.load a w.size).toInt64

theorem value_isCanonical (w : Width) (a : Nat) : w.IsCanonical (m.value w a) :=
  Width.canonical_canonical w _

theorem value_congr {m m' : Memory} {a b : Nat} (h : ∀ k < w.size, m.get (a + k) = m'.get (b + k)) :
    m.value w a = m'.value w b := by
  rw [value, value, load_congr h]

/-- A value that is stored can be read back at every width that is no wider. -/
theorem value_store_of_le (hw : w.isValid) {n : Nat} (hle : w.size ≤ n) (hn : n ≤ 8) (a : Nat) (v : Int64) :
    (m.store a v.toUInt64 n).value w a = w.canonical v := by
  have hsize := Width.size_of_isValid hw
  have hpow : 256 ^ w.size = 2 ^ w.bits.toNat := by
    rw [hsize.1, Nat.pow_mul]
  have hdvd : 2 ^ w.bits.toNat ∣ 2 ^ 64 := Nat.pow_dvd_pow 2 (by omega)
  have hcast : ∀ u : UInt64, u.toInt64.toInt.bmod (2 ^ w.bits.toNat) = (u.toNat : Int).bmod (2 ^ w.bits.toNat) := by
    intro u
    rw [show u.toInt64.toInt = (u.toNat : Int).bmod (2 ^ 64) from BitVec.toInt_eq_toNat_bmod _,
      Int.bmod_bmod_of_dvd hdvd]
  refine Width.canonical_congr hw ?_
  rw [hcast, toNat_load_store m hle hn, hpow, Int.natCast_emod, Int.emod_bmod, ← hcast]
  rfl

theorem value_store_of_outside {a b n : Nat} (h : b + w.size ≤ a ∨ a + n ≤ b) (v : UInt64) :
    (m.store a v n).value w b = m.value w b :=
  value_congr fun k hk => m.get_store_of_outside (by omega) v

/-! ## Places -/

theorem locate_of_bounds {n : Nat} (hbytes : bytes.toInt = n) (hsize : m.size < 2 ^ 63) (hlow : 0 ≤ address.toInt)
    (hhigh : address.toInt + n ≤ m.size) : m.locate address bytes n = .ok address.toInt.toNat := by
  have hsum : (address + bytes).toInt = address.toInt + n := by
    rw [toInt_add_of_bounds] <;> omega
  have hadmits : m.admits address bytes = true := by
    simp only [admits, Bool.and_eq_true, decide_eq_true_eq, Int64.le_iff_toInt_le, hsum,
      Int64.toInt_ofNat_of_lt hsize]
    exact ⟨hlow, hhigh⟩
  rw [locate, if_pos hadmits]
  exact if_pos (by omega)

theorem locate_congr {m m' : Memory} (h : m'.size = m.size) (address bytes : Int64) (n : Nat) :
    m'.locate address bytes n = m.locate address bytes n := by
  unfold locate admits
  rw [h]

theorem bounds_of_locate {n a : Nat} (h : m.locate address bytes n = .ok a) :
    0 ≤ address.toInt ∧ a = address.toInt.toNat ∧ a + n ≤ m.size := by
  unfold locate at h
  split at h
  · rename_i hadmits
    have hlow : 0 ≤ address.toInt := by
      simp only [admits, Bool.and_eq_true, decide_eq_true_eq, Int64.le_iff_toInt_le] at hadmits
      exact hadmits.1
    simp only at h
    split at h
    · cases h
      exact ⟨hlow, rfl, by assumption⟩
    · cases h
  · cases h

/-- An access of a machine width fails because its address is out of bounds; or its end lies beyond the largest
    address. -/
theorem locate_eq_error {w : Width} {e : AccessError} (hsize : m.size < 2 ^ 63)
    (h : m.locate address w.bytes w.size = .error e) :
    e = .outOfBounds address ∨ e = .wild ∧ 2 ^ 63 ≤ address.toInt + w.size := by
  unfold locate at h
  split at h
  · next hadmits =>
    dsimp only at h
    split at h
    · cases h
    · next hbeyond =>
      cases h
      -- If the end of the access did not wrap around, the second test would be the first.
      refine .inr ⟨rfl, Int.not_lt.1 fun hlt => hbeyond ?_⟩
      simp only [admits, Bool.and_eq_true, decide_eq_true_eq, Int64.le_iff_toInt_le,
        Int64.toInt_ofNat_of_lt hsize] at hadmits
      have hlow : 0 ≤ address.toInt := hadmits.1
      have hsum : (address + w.bytes).toInt = address.toInt + w.size := by
        rw [toInt_add_of_bounds] <;> rw [Width.toInt_bytes] <;> omega
      have := hadmits.2
      omega
  · cases h
    exact .inl rfl

end RegisterCompiler.Memory
