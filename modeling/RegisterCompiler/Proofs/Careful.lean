import RegisterCompiler.Interpreter.Run
import RegisterCompiler.Proofs.Area

/-!
# Regular code and careful runs

The check of a function leaves some things open that are known only for a module as a whole or for a run. Code is
*regular* if its constants have the form of their widths, its calls fit the functions that they call, and it gets at
memory through its frame variables only, whose addresses it does not compute with.

The interpreter gives every variable a value and lets an address reach anywhere in the memory. A run is *careful* if it
makes no use of that: it reads no variable before it is assigned, its accesses stay within the bytes of the frame
variable that they are made through, and it loads only bytes that were stored earlier in the same activation.
-/

namespace RegisterCompiler.IR

/-! ## Regular code -/

/-- A constant has the form of its width. -/
def Operand.IsRegular : Option Operand → Prop
  | some (.imm c w) => w.IsCanonical c
  | _ => True

namespace Instr

/-- The operands of an instruction, with those that a phi reads on the ways into its block. -/
def operands : Instr → List (Option Operand)
  | .phi _ edges => edges.map PhiEdge.value
  | i => i.uses

/-- The rule for an instruction of the module `m`, by its kind. -/
def FollowsRule (m : Module) : Instr → Prop
  | .cast op _ _ => op ∈ CastOp.all
  | .load _ (some (.slot _)) | .store _ (some (.slot _)) => True
  | .load .. | .store .. | .slotAddr .. => False
  | .call dest callee args => ∀ g ∈ m.function? callee,
      args.map (·.map Operand.width) = g.params.map (some ·.width) ∧ ∀ d ∈ dest, d.width = g.result
  | _ => True

end Instr

def Module.Regular (m : Module) : Prop :=
  ∀ f ∈ m.functions, ∀ b ∈ f.blocks, ∀ i ∈ b.code, (∀ o ∈ i.operands, Operand.IsRegular o) ∧ i.FollowsRule m

instance : (o : Option Operand) → Decidable (Operand.IsRegular o)
  | some (.imm c w) => inferInstanceAs (Decidable (w.canonical c = c))
  | some (.var _) | none => .isTrue trivial

instance (m : Module) : (i : Instr) → Decidable (i.FollowsRule m)
  | .cast op _ _ => inferInstanceAs (Decidable (op ∈ CastOp.all))
  | .call dest callee args => inferInstanceAs (Decidable (∀ g ∈ m.function? callee,
      args.map (·.map Operand.width) = g.params.map (some ·.width) ∧ ∀ d ∈ dest, d.width = g.result))
  | .load _ (some (.pointer ..)) | .load _ none | .store _ (some (.pointer ..)) | .store _ none | .slotAddr .. => .isFalse id
  | .load _ (some (.slot _)) | .store _ (some (.slot _)) | .binop .. | .cmp .. | .phi .. | .jump _ | .branch .. | .ret _ =>
    .isTrue trivial

instance (m : Module) : Decidable m.Regular :=
  inferInstanceAs (Decidable (∀ f ∈ m.functions, ∀ b ∈ f.blocks, ∀ i ∈ b.code,
    (∀ o ∈ i.operands, Operand.IsRegular o) ∧ i.FollowsRule m))

/-! ## Careful runs -/

namespace Activation

variable (a : Activation)

/-- The block that control goes on with after an instruction. -/
def next? : Instr → Option BlockId
  | .jump target => some target
  | .branch condition t f => (a.value condition).toOption.map fun v => if v ≠ 0 then t else f
  | _ => none

/-- The variables that phis read when control goes on after an instruction. -/
def phiReads (i : Instr) : List Var :=
  match (a.next? i).bind a.function.block? with
  | some b => (b.phiMoves a.blockId).filterMap fun m =>
    match m.source with
    | some (.var v) => some v
    | _ => none
  | none => []

/-- The addresses of the bytes of an access, if they lie within the frame variable that it is made through. -/
def bytes? (ref : SlotRef) (w : Width) : Option (List Nat) := do
  let s ← a.function.slots[ref.slot.toNat]?
  let base ← (a.slotBase ref.slot).toOption
  let address ← (a.slotAddress ref).toOption
  if base.toInt ≤ address.toInt ∧ address.toInt + w.size ≤ base.toInt + s.extent then
    some ((List.range w.size).map (address.toInt.toNat + ·))
  else none

/-- An access stays within its frame variable, and loads only bytes that are `stored`. -/
def AccessMindful (stored : List Nat) : Instr → Prop
  | .load dest (some (.slot ref)) => ∃ xs ∈ a.bytes? ref dest.width, ∀ x ∈ xs, x ∈ stored
  | .store (some source) (some (.slot ref)) => ∃ xs ∈ a.bytes? ref source.width, True
  | _ => True

/-- An instruction reads only variables that have a value, and its access is mindful. -/
def Mindful (stored : List Nat) (i : Instr) : Prop :=
  (∀ v ∈ i.usedVars ++ a.phiReads i, v.id ∈ a.env) ∧ a.AccessMindful stored i

instance (stored : List Nat) : (i : Instr) → Decidable (a.AccessMindful stored i)
  | .load dest (some (.slot ref)) =>
    inferInstanceAs (Decidable (∃ xs ∈ a.bytes? ref dest.width, ∀ x ∈ xs, x ∈ stored))
  | .store (some source) (some (.slot ref)) =>
    inferInstanceAs (Decidable (∃ xs ∈ a.bytes? ref source.width, True))
  | .load _ (some (.pointer ..)) | .load _ none | .store none _ | .store (some _) (some (.pointer ..))
  | .store (some _) none | .binop .. | .cmp .. | .cast .. | .slotAddr .. | .phi .. | .call .. | .jump _ | .branch ..
  | .ret _ => .isTrue trivial

instance (stored : List Nat) (i : Instr) : Decidable (a.Mindful stored i) :=
  inferInstanceAs (Decidable (_ ∧ _))

end Activation

namespace Config

/-- What is stored after an instruction, by activation, the innermost first. -/
def storedAfter (c : Config) (stored : List (List Nat)) : Instr → List (List Nat)
  | .store (some source) (some (.slot ref)) =>
    ((c.active.bytes? ref source.width).getD [] ++ stored.headD []) :: stored.tail
  | .call .. => [] :: stored
  | .ret _ => stored.tail
  | _ => stored

/-- At most `n` instructions are executed mindfully, where the activations have stored the bytes `stored`. -/
def Careful (m : Module) (maxDepth : Int) : (n : Nat) → (stored : List (List Nat)) → Config → Prop
  | 0, _, _ => True
  | n + 1, stored, c =>
    match c.active.rest with
    | [] => True
    | i :: rest =>
      (c.advance rest).active.Mindful (stored.headD []) i ∧
        match (c.advance rest).step m maxDepth i with
        | .ok (.next c') => Careful m maxDepth n ((c.advance rest).storedAfter stored i) c'
        | _ => True

instance decidableCareful (m : Module) (maxDepth : Int) :
    (n : Nat) → (stored : List (List Nat)) → (c : Config) → Decidable (c.Careful m maxDepth n stored)
  | 0, _, _ => .isTrue trivial
  | n + 1, stored, c =>
    match hrest : c.active.rest with
    | [] => .isTrue (by rw [Careful, hrest]; trivial)
    | i :: rest =>
      match hstep : (c.advance rest).step m maxDepth i with
      | .ok (.next c') =>
        have := decidableCareful m maxDepth n ((c.advance rest).storedAfter stored i) c'
        decidable_of_iff ((c.advance rest).active.Mindful (stored.headD []) i ∧
          Careful m maxDepth n ((c.advance rest).storedAfter stored i) c') (by simp only [Careful, hrest, hstep])
      | .ok (.finished ..) | .error _ =>
        decidable_of_iff ((c.advance rest).active.Mindful (stored.headD []) i)
          (by simp only [Careful, hrest, hstep, and_true])

end Config

def Module.Careful (m : Module) (limits : Limits) (memory : Memory) (name : String) (args : List Int64) : Prop :=
  match m.enter limits.maxDepth 0 (Int64.ofNat memory.size) name args with
  | .error _ => True
  | .ok active => Config.Careful m limits.maxDepth limits.maxSteps.toNat [[]] ⟨active, [], memory, 0⟩

instance (m : Module) (limits : Limits) (memory : Memory) (name : String) (args : List Int64) :
    Decidable (m.Careful limits memory name args) :=
  match h : m.enter limits.maxDepth 0 (Int64.ofNat memory.size) name args with
  | .error _ => .isTrue (by rw [Module.Careful, h]; trivial)
  | .ok active =>
    decidable_of_iff (Config.Careful m limits.maxDepth limits.maxSteps.toNat [[]] ⟨active, [], memory, 0⟩)
      (by rw [Module.Careful, h])

/-! ## Frame variables on the stack -/

/-- Frame variables lie below `sp` at the addresses `bases`, down to `last`, and have no byte in common. -/
structure Reserved (slots : List Slot) (sp : Int) (bases : List Int64) (last : Int64) : Prop where
  length : bases.length = slots.length
  bounds : ∀ (k : Nat) s b, slots[k]? = some s → bases[k]? = some b →
    0 ≤ b.toInt ∧ last.toInt ≤ b.toInt ∧ b.toInt + s.extent ≤ sp
  disjoint : ∀ (j k : Nat) s t b c, j ≠ k → slots[j]? = some s → slots[k]? = some t → bases[j]? = some b →
    bases[k]? = some c → b.toInt + s.extent ≤ c.toInt ∨ c.toInt + t.extent ≤ b.toInt
  aligned : ∀ b ∈ bases, 8 ∣ b.toInt
  last_le : last.toInt ≤ sp
  low : 0 ≤ last.toInt ∨ last.toInt = sp

theorem toInt_and_not_seven (x : Int64) : 8 ∣ (x &&& ~~~7).toInt ∧ (x &&& ~~~7).toInt ≤ x.toInt := by
  have hshift : (x &&& ~~~7).toBitVec = x.toBitVec >>> 3 <<< 3 := by
    rw [BitVec.shiftLeft_ushiftRight]
    rfl
  have hnat : (x &&& ~~~7).toBitVec.toNat = x.toBitVec.toNat / 8 * 8 := by
    rw [hshift, BitVec.toNat_shiftLeft, BitVec.toNat_ushiftRight, Nat.shiftLeft_eq, Nat.shiftRight_eq_div_pow]
    have := x.toBitVec.isLt
    omega
  rw [← Int64.toInt_toBitVec, ← Int64.toInt_toBitVec, BitVec.toInt_eq_toNat_cond, BitVec.toInt_eq_toNat_cond, hnat]
  have := x.toBitVec.isLt
  split <;> split <;> omega

/-- Frame variables that are taken from the stack have no byte in common. -/
theorem reserve_eq_ok {name : String} {slots : List Slot} {sp last : Int64} {bases : List Int64}
    (h : reserve name sp slots = .ok (bases, last))
    (hslots : ∀ s ∈ slots, s.size.toInt = s.extent ∧ -2 ^ 63 ≤ sp.toInt - s.extent) :
    Reserved slots sp.toInt bases last := by
  induction slots generalizing sp bases with
  | nil =>
    cases h
    exact ⟨rfl, nofun, nofun, nofun, Int.le_refl _, .inr rfl⟩
  | cons s rest ih =>
    obtain ⟨⟨hsize, hroom⟩, hrest⟩ := List.forall_mem_cons.1 hslots
    unfold reserve at h
    obtain ⟨hnonneg, h⟩ := Success.ite_throw_bind_eq_ok.1 h
    obtain ⟨⟨others, last'⟩, hothers, hpair⟩ := Success.bind_eq_ok.1 h
    cases hpair
    have hdiff : (sp - s.size).toInt = sp.toInt - s.extent := by
      have := sp.toInt_lt
      rw [toInt_sub_of_bounds] <;> rw [hsize] <;> omega
    obtain ⟨haligned, hdown⟩ := toInt_and_not_seven (sp - s.size)
    generalize hb : (sp - s.size) &&& ~~~7 = b at *
    have hb0 : 0 ≤ b.toInt := by
      have := mt Int64.lt_iff_toInt_lt.2 hnonneg
      simpa using this
    have hrec := ih hothers fun t ht => by
      have := t.size.toInt_lt
      have := (hrest t ht).1
      exact ⟨(hrest t ht).1, by omega⟩
    have hlast := hrec.last_le
    refine ⟨congrArg (· + 1) hrec.length, ?_, ?_, List.forall_mem_cons.2 ⟨haligned, hrec.aligned⟩, by omega, ?_⟩
    · rintro (_ | k) t c ht hc
      · cases ht
        cases hc
        omega
      · have := hrec.bounds k t c ht hc
        omega
    · rintro (_ | j) (_ | k) t t' c c' hne ht ht' hc hc'
      · exact absurd rfl hne
      · cases ht
        cases hc
        exact .inr (hrec.bounds k t' c' ht' hc').2.2
      · cases ht'
        cases hc'
        exact .inl (hrec.bounds j t c ht hc).2.2
      · exact hrec.disjoint j k t t' c c' (fun hjk => hne (congrArg (· + 1) hjk)) ht ht' hc hc'
    · rcases hrec.low with hlow | hlow
      · exact .inl hlow
      · exact .inl (by omega)

end RegisterCompiler.IR
