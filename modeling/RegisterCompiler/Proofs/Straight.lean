import RegisterCompiler.Proofs.Growth
import RegisterCompiler.Proofs.Values

/-!
# Straight code

Code that lowering adds to compute a value goes straight on: it gives values to fresh variables, one after the other,
and everything else stays as it is.
-/

namespace RegisterCompiler

open List

namespace IR

/-- An instruction of a run, after which the run goes on. -/
def Module.Step (m : Module) (maxDepth : Int) (c c' : Config) : Prop :=
  ∃ i rest, c.active.rest = i :: rest ∧ (c.advance rest).step m maxDepth i = .ok (.next c')

namespace Activation

/-- The value of an operand that is there. -/
def read (a : Activation) : Operand → Int64
  | .imm c w => w.canonical c
  | .var v => a.env.getD v.id 0

/-- The code takes the activation to `a'`, whatever state it is executed in and whatever code follows. There are no phis
    in it. -/
structure Performs (a : Activation) (code : List Instr) (a' : Activation) : Prop where
  steps : ∀ (m : Module) (maxDepth : Int) (c : Config) (rest : List Instr), c.active = { a with rest := code ++ rest } →
    Relation.ReflTransGen (m.Step maxDepth) c { c with active := { a' with rest }, steps := c.steps + code.length }
  isPhi : ∀ i ∈ code, i.isPhi = false

/-- Apart from variables numbered from `n` on, everything is as it was. -/
structure Agrees (n : VarId) (a a' : Activation) : Prop where
  eq : a' = { a with env := a'.env }
  env : ∀ id < n, a'.env.getD id 0 = a.env.getD id 0

variable {a a' a'' : Activation} {code code' : List Instr} {d : Var} {n n' : VarId} {x : Int64}

theorem value_some (a : Activation) (o : Operand) : a.value (some o) = .ok (a.read o) := by
  cases o <;> rfl

theorem read_assign_self (a : Activation) (d : Var) (x : Int64) : (a.assign d x).read (.var d) = x :=
  Std.ExtTreeMap.getD_insert_self

theorem getD_assign_of_ne {id : VarId} (h : d.id ≠ id) : (a.assign d x).env.getD id 0 = a.env.getD id 0 :=
  (Std.ExtTreeMap.getD_insert ..).trans (if_neg fun heq => h (Std.LawfulEqCmp.eq_of_compare heq))

namespace Performs

theorem nil (a : Activation) : a.Performs [] a := by
  refine ⟨?_, forall_mem_nil _⟩
  rintro m maxDepth ⟨_, callers, memory, steps⟩ rest rfl
  exact .refl

theorem append (h : a.Performs code a') (h' : a'.Performs code' a'') : a.Performs (code ++ code') a'' := by
  refine ⟨fun m maxDepth c rest hc => ?_, forall_mem_append.2 ⟨h.isPhi, h'.isPhi⟩⟩
  rw [append_assoc] at hc
  have hrest := h'.steps m maxDepth { c with active := { a' with rest := code' ++ rest }, steps := c.steps + code.length }
    rest rfl
  rw [length_append, ← Nat.add_assoc]
  exact (h.steps m maxDepth c (code' ++ rest) hc).trans hrest

theorem assign {i : Instr} (hi : i.isPhi = false) (h : ∀ (m : Module) (maxDepth : Int) (c : Config) (rest : List Instr),
    c.active = { a with rest } → c.step m maxDepth i = .ok (.next (c.assign d x))) : a.Performs [i] (a.assign d x) := by
  refine ⟨?_, forall_mem_singleton.2 hi⟩
  rintro m maxDepth ⟨_, callers, memory, steps⟩ rest rfl
  exact .single ⟨i, rest, rfl, h m maxDepth _ rest rfl⟩

theorem binop {op : BinOp} {y z : Operand} (h : op.eval d.width (a.read y) (a.read z) = .ok x) :
    a.Performs [.binop op d (some y) (some z)] (a.assign d x) := by
  refine assign rfl fun m maxDepth c rest hc => ?_
  rw [Config.step, hc, value_some, value_some]
  exact congrArg (fun r => Except.mapError EvalCause.scalar r >>= fun v => pure (Progress.next (c.assign d v))) h

theorem cast {op : CastOp} {y : Operand} :
    a.Performs [.cast op d (some y)] (a.assign d (op.eval y.width d.width (a.read y))) := by
  refine assign rfl fun m maxDepth c rest hc => ?_
  rw [Config.step, hc, value_some]
  rfl

theorem slotAddr {ref : SlotRef} (h : a.slotAddress ref = .ok x) : a.Performs [.slotAddr d ref] (a.assign d x) := by
  refine assign rfl fun m maxDepth c rest hc => ?_
  rw [Config.step, hc]
  exact congrArg (fun r => r >>= fun v => pure (Progress.next (c.assign d v))) h

end Performs

namespace Agrees

theorem refl (n : VarId) (a : Activation) : a.Agrees n a := ⟨rfl, fun _ _ => rfl⟩

theorem trans (h : a.Agrees n a') (h' : a'.Agrees n' a'') (hn : n ≤ n') : a.Agrees n a'' := by
  refine ⟨h'.eq.trans ?_, fun id hid => (h'.env id (Int.lt_of_lt_of_le hid hn)).trans (h.env id hid)⟩
  rw [h.eq]

theorem assign (hd : n ≤ d.id) : a.Agrees n (a.assign d x) := by
  exact ⟨rfl, fun id hid => getD_assign_of_ne (Int.ne_of_gt (Int.lt_of_lt_of_le hid hd))⟩

theorem slots (h : a.Agrees n a') : a'.slots = a.slots := by rw [h.eq]

end Agrees

end Activation

end IR

namespace Llvm

/-- The code that is added to `s` until it is `s'` takes `a` to `a'`, and changes nothing that was there. -/
def Scope.Runs (s s' : Scope) (a a' : IR.Activation) : Prop :=
  ∃ added, s'.code = s.code ++ added ∧ a.Performs added a' ∧ a.Agrees s.nextVar a'

namespace Scope.Runs

variable {s s' s'' : Scope} {a a' a'' : IR.Activation}

theorem refl (s : Scope) (a : IR.Activation) : s.Runs s a a := ⟨[], (append_nil _).symm, .nil a, .refl _ a⟩

theorem agrees (h : s.Runs s' a a') : a.Agrees s.nextVar a' := h.elim fun _ hadded => hadded.2.2

theorem trans (h : s.Runs s' a a') (h' : s'.Runs s'' a' a'') (hnext : s.nextVar ≤ s'.nextVar) : s.Runs s'' a a'' := by
  obtain ⟨added, hcode, hperforms, hagrees⟩ := h
  obtain ⟨added', hcode', hperforms', hagrees'⟩ := h'
  exact ⟨added ++ added', by rw [hcode', hcode, append_assoc], hperforms.append hperforms', hagrees.trans hagrees' hnext⟩

theorem adding {w : Width} {make : IR.Var → IR.Instr} {x : Int64}
    (h : a.Performs [make ⟨s.nextVar, w⟩] (a.assign ⟨s.nextVar, w⟩ x)) :
    s.Runs (s.adding w make) a (a.assign ⟨s.nextVar, w⟩ x) :=
  ⟨[_], rfl, h, .assign (Int.le_refl _)⟩

end Scope.Runs

end Llvm

end RegisterCompiler
