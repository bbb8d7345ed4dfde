import RegisterCompiler.Proofs.Success
import RegisterCompiler.Target.Descriptor

/-!
# What the check of a description establishes

The registers of an accepted description are general registers, and those of different classes keep out of each
other's way: no variable lives in a scratch register, the result register holds nothing else, and the registers
that a function gives back as it found them carry no arguments.
-/

namespace RegisterCompiler

open Success List

structure Descriptor.WellFormed (d : Descriptor) : Prop where
  allocatable_general : ∀ r ∈ d.allocatable, r.num < 16
  scratch_general : ∀ r ∈ d.scratch, r.num < 16
  args_general : ∀ r ∈ d.args, r.num < 16
  result_general : d.result.num < 16
  allocatable_nodup : d.allocatable.Nodup
  scratch_nodup : d.scratch.Nodup
  args_nodup : d.args.Nodup
  result_not_allocatable : d.result ∉ d.allocatable
  result_not_scratch : d.result ∉ d.scratch
  result_not_arg : d.result ∉ d.args
  allocatable_not_scratch : ∀ r ∈ d.allocatable, r ∉ d.scratch
  args_not_scratch : ∀ r ∈ d.args, r ∉ d.scratch
  saved_allocatable : ∀ r ∈ d.calleeSaved, r ∈ d.allocatable
  saved_not_arg : ∀ r ∈ d.calleeSaved, r ∉ d.args
  stackAlign : ∃ k, 3 ≤ k ∧ k < 63 ∧ d.stackAlign.toInt = 2 ^ k
  slotAlign : ∃ k, k < 63 ∧ d.slotAlign.toInt = 2 ^ k
  maxFrame : 0 < d.maxFrame
  stackArgSize : d.stackArgSize = 8

theorem toNat_toUInt64_of_nonneg {n : Int64} (h : 0 ≤ n) : (n.toUInt64.toNat : Int) = n.toInt := by
  have h0 : 0 ≤ n.toInt := by simpa using Int64.le_iff_toInt_le.1 h
  rw [show n.toUInt64.toNat = n.toBitVec.toNat from rfl]
  rw [← Int64.toInt_toBitVec, BitVec.toInt_eq_toNat_bmod] at h0 ⊢
  have := n.toBitVec.isLt
  simp only [Int.bmod] at h0 ⊢
  omega

theorem Reg.ofName?_general {s : String} {r : Reg} (h : Reg.ofName? s = some r) :
    r.num < 16 ∨ r = Reg.fp ∨ r = Reg.sp := by
  unfold Reg.ofName? at h
  split at h
  · exact .inr (.inl (Option.some.inj h).symm)
  split at h
  · exact .inr (.inr (Option.some.inj h).symm)
  split at h
  · split at h
    · split at h
      · next n _ hbound =>
        left
        cases h
        have hnat := toNat_toUInt64_of_nonneg hbound.1
        have hlt : n.toInt < 16 := by simpa using Int64.lt_iff_toInt_lt.1 hbound.2
        have h16 : (16 : UInt8).toNat = 16 := rfl
        rw [UInt8.lt_iff_toNat_lt, UInt64.toNat_toUInt8]
        omega
      · cases h
    · cases h
  · cases h

namespace Config

variable {n : Int64}

theorem registers_eq_ok {field : String} {seen : List Reg} {names : List String} {regs : List Reg}
    (h : registers field seen names = .ok regs) :
    regs.Nodup ∧ (∀ r ∈ regs, r ∉ seen) ∧ ∀ r ∈ regs, r.num < 16 ∨ r = Reg.fp ∨ r = Reg.sp := by
  induction names generalizing seen regs with
  | nil => cases h; simp
  | cons name rest ih =>
    unfold registers at h
    split at h
    · cases h
    · next r hr =>
      split at h
      · cases h
      · next hseen =>
        obtain ⟨others, hothers, hregs⟩ := bind_eq_ok.1 h
        cases pure_eq_ok.1 hregs
        obtain ⟨hnodup, hnew, hgen⟩ := ih hothers
        refine ⟨nodup_cons.2 ⟨fun hmem => hnew r hmem mem_cons_self, hnodup⟩, ?_, ?_⟩
        · exact forall_mem_cons.2 ⟨hseen, fun s hs hmem => hnew s hs (mem_cons_of_mem r hmem)⟩
        · exact forall_mem_cons.2 ⟨Reg.ofName?_general hr, hgen⟩

theorem refuse_eq_ok {α : Type} {test : α → Option ConfigError} {items : List α} {u : Unit} :
    refuse test items = .ok u ↔ ∀ a ∈ items, test a = none := by
  unfold refuse
  cases h : items.findSome? test with
  | none => simpa using findSome?_eq_none_iff.1 h
  | some e =>
    obtain ⟨a, ha, he⟩ := exists_of_findSome?_eq_some h
    simp only [reduceCtorEq, false_iff, not_forall]
    exact ⟨a, ha, by simp [he]⟩

theorem exists_of_isPowerOfTwo (h : isPowerOfTwo n) : ∃ k, k < 63 ∧ n.toInt = 2 ^ k := by
  simp only [isPowerOfTwo, Bool.and_eq_true, decide_eq_true_eq, beq_iff_eq] at h
  obtain ⟨hpos, hand⟩ := h
  have hpos' : 0 < n.toInt := by simpa using Int64.lt_iff_toInt_lt.1 hpos
  have hnat := toNat_toUInt64_of_nonneg (Int64.le_of_lt hpos)
  have hone : n.toUInt64 &&& (n.toUInt64 - 1) = 0 := congrArg Int64.toUInt64 hand
  have hnatAnd : n.toUInt64.toNat &&& (n.toUInt64.toNat - 1) = 0 := by
    have := congrArg UInt64.toNat hone
    rwa [UInt64.toNat_and, UInt64.toNat_sub_of_le] at this
    rw [UInt64.le_iff_toNat_le]
    have : (1 : UInt64).toNat = 1 := rfl
    omega
  obtain ⟨k, hk⟩ := (Nat.and_sub_one_eq_zero_iff_isPowerOfTwo (by omega)).1 hnatAnd
  have hlt : n.toInt < 2 ^ 63 := n.toInt_lt
  refine ⟨k, ?_, by rw [← hnat, hk]; simp⟩
  rw [← hnat, hk] at hlt
  have : 2 ^ k < 2 ^ 63 := by exact_mod_cast hlt
  exact (Nat.pow_lt_pow_iff_right (by decide)).1 this

theorem three_le_of_pow {k : Nat} (hpow : n.toInt = 2 ^ k) (hle : ¬n < 8) : 3 ≤ k := by
  rw [Int64.not_lt, Int64.le_iff_toInt_le, hpow] at hle
  have : (2 : Nat) ^ 3 ≤ 2 ^ k := by exact_mod_cast show (8 : Int) ≤ 2 ^ k from hle
  exact (Nat.pow_le_pow_iff_right (by decide)).1 this

theorem wellFormed_of_descriptor {c : Config} {d : Descriptor} (h : c.descriptor = .ok d) : d.WellFormed := by
  unfold descriptor at h
  obtain ⟨allocatable, hallocatable, h⟩ := bind_eq_ok.1 h
  obtain ⟨-, h⟩ := ite_throw_bind_eq_ok.1 h
  cases hname : Reg.ofName? c.result with
  | none => rw [hname] at h; cases h
  | some result =>
    rw [hname] at h
    obtain ⟨_, hpure, h⟩ := bind_eq_ok.1 h
    cases pure_eq_ok.1 hpure
    obtain ⟨scratch, hscratch, h⟩ := bind_eq_ok.1 h
    obtain ⟨args, hargs, h⟩ := bind_eq_ok.1 h
    obtain ⟨saved, hsaved, h⟩ := bind_eq_ok.1 h
    obtain ⟨hresult, h⟩ := ite_throw_bind_eq_ok.1 h
    obtain ⟨_, hrefuseAlloc, h⟩ := bind_eq_ok.1 h
    obtain ⟨_, hrefuseScratch, h⟩ := bind_eq_ok.1 h
    obtain ⟨_, hrefuseArgs, h⟩ := bind_eq_ok.1 h
    obtain ⟨_, hrefuseSaved, h⟩ := bind_eq_ok.1 h
    obtain ⟨-, h⟩ := ite_throw_bind_eq_ok.1 h
    obtain ⟨hstackAlign, h⟩ := ite_throw_bind_eq_ok.1 h
    obtain ⟨hslotAlign, h⟩ := ite_throw_bind_eq_ok.1 h
    obtain ⟨hmaxFrame, h⟩ := ite_throw_bind_eq_ok.1 h
    obtain ⟨hargSize, h⟩ := ite_throw_bind_eq_ok.1 h
    obtain ⟨_, -, h⟩ := bind_eq_ok.1 h
    cases pure_eq_ok.1 h
    rw [not_or] at hresult hstackAlign
    have hallocatable' : ∀ r ∈ allocatable, (r ≠ Reg.fp ∧ r ≠ Reg.sp ∧ r ≠ result) ∧ r ∉ scratch := by
      intro r hr
      have := refuse_eq_ok.1 hrefuseAlloc r hr
      clear * - this
      grind
    have hscratch' : ∀ r ∈ scratch, r ≠ Reg.fp ∧ r ≠ Reg.sp ∧ r ≠ result := by
      intro r hr
      have := refuse_eq_ok.1 hrefuseScratch r hr
      clear * - this
      grind
    have hargs' : ∀ r ∈ args, (r ≠ Reg.fp ∧ r ≠ Reg.sp ∧ r ≠ result) ∧ r ∉ scratch := by
      intro r hr
      have := refuse_eq_ok.1 hrefuseArgs r hr
      clear * - this
      grind
    have hsaved' : ∀ r ∈ saved, r ∈ allocatable ∧ r ∉ args := by
      intro r hr
      have := refuse_eq_ok.1 hrefuseSaved r hr
      clear * - this
      grind
    obtain ⟨hnodupAlloc, -, hgenAlloc⟩ := registers_eq_ok hallocatable
    obtain ⟨hnodupScratch, -, hgenScratch⟩ := registers_eq_ok hscratch
    obtain ⟨hnodupArgs, -, hgenArgs⟩ := registers_eq_ok hargs
    obtain ⟨k, hk, hpow⟩ := exists_of_isPowerOfTwo (by simpa using hstackAlign.1)
    exact {
      allocatable_general := fun r hr => (hgenAlloc r hr).resolve_right (by simp [hallocatable' r hr])
      scratch_general := fun r hr => (hgenScratch r hr).resolve_right (by simp [hscratch' r hr])
      args_general := fun r hr => (hgenArgs r hr).resolve_right (by simp [hargs' r hr])
      result_general := (Reg.ofName?_general hname).resolve_right (by simp [hresult])
      allocatable_nodup := hnodupAlloc
      scratch_nodup := hnodupScratch
      args_nodup := hnodupArgs
      result_not_allocatable := fun hr => (hallocatable' _ hr).1.2.2 rfl
      result_not_scratch := fun hr => (hscratch' _ hr).2.2 rfl
      result_not_arg := fun hr => (hargs' _ hr).1.2.2 rfl
      allocatable_not_scratch := fun r hr => (hallocatable' r hr).2
      args_not_scratch := fun r hr => (hargs' r hr).2
      saved_allocatable := fun r hr => (hsaved' r hr).1
      saved_not_arg := fun r hr => (hsaved' r hr).2
      stackAlign := ⟨k, three_le_of_pow hpow hstackAlign.2, hk, hpow⟩
      slotAlign := exists_of_isPowerOfTwo (by simpa using hslotAlign)
      maxFrame := Int64.not_le.1 hmaxFrame
      stackArgSize := not_not.1 hargSize }

end Config

end RegisterCompiler
