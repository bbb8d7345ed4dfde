import RegisterCompiler.Interpreter.Run
import RegisterCompiler.Proofs.Success

/-!
# What an instruction does

The interpreter gives a variable a value, changes the memory, goes to a block, enters a function or leaves one. What
holds in all states of a run is proved from these cases.
-/

namespace RegisterCompiler.IR

open Success

/-- The instruction gives the variable `d` the value `v`. -/
inductive Activation.Computes (a : Activation) (memory : Memory) : Instr → Var → Int64 → Prop
  | binop {op : BinOp} {d : Var} {x y : Option Operand} {vx vy v : Int64} : a.value x = .ok vx → a.value y = .ok vy →
      op.eval d.width vx vy = .ok v → Computes a memory (.binop op d x y) d v
  | cmp {cond : Cond} {d : Var} {x y : Option Operand} {b : Bool} :
      Computes a memory (.cmp cond d x y) d (if b then 1 else 0)
  | cast {op : CastOp} {d : Var} {x : Option Operand} {w : Width} {v : Int64} :
      Computes a memory (.cast op d x) d (op.eval w d.width v)
  | load {d : Var} {r : Option MemRef} {address v : Int64} : readValue memory d.width address = .ok v →
      Computes a memory (.load d r) d v
  | slotAddr {d : Var} {ref : SlotRef} {v : Int64} : a.slotAddress ref = .ok v → Computes a memory (.slotAddr d ref) d v

/-- The state `c'` is what an instruction leads to that is executed in the state `c`. -/
inductive Config.Moves (m : Module) (maxDepth : Int) (c : Config) : Instr → Config → Prop
  | phi {d : Var} {edges : List PhiEdge} : Moves m maxDepth c (.phi d edges) c
  | assign {i : Instr} {d : Var} {v : Int64} : c.active.Computes c.memory i d v → Moves m maxDepth c i (c.assign d v)
  | store {x : Option Operand} {r : Option MemRef} {w : Width} {address v : Int64} {memory : Memory} :
      writeValue c.memory w address v = .ok memory → Moves m maxDepth c (.store x r) { c with memory }
  | call {dest : Option Var} {callee : String} {args : List (Option Operand)} {values : List Int64} {a : Activation} :
      args.mapM c.active.value = .ok values → m.enter maxDepth (c.callers.length + 1) c.active.sp callee values = .ok a →
      Moves m maxDepth c (.call dest callee args) { c with active := a, callers := ⟨c.active, dest⟩ :: c.callers }
  | goTo {i : Instr} {id : BlockId} {a : Activation} : i.isTerminator → c.active.goTo c.active.blockId id = .ok a →
      Moves m maxDepth c i { c with active := a }
  | leave {o : Option Operand} {v : Int64} {a : Activation} {dest : Option Var} {callers : List Caller} :
      (∀ x, o = some x → c.active.value o = .ok v) → (o = none → v = 0) → c.callers = ⟨a, dest⟩ :: callers →
      Moves m maxDepth c (.ret o)
        { c with active := dest.elim a fun d => a.assign d (d.width.canonical v), callers }

theorem Activation.Computes.dest?_eq {a : Activation} {memory : Memory} {i : Instr} {d : Var} {v : Int64}
    (h : a.Computes memory i d v) : i.dest? = some d := by
  cases h <;> rfl

namespace Config

variable {m : Module} {maxDepth : Int} {c c' : Config} {i : Instr}

theorem exists_of_leave {v : Int64} (h : c.leave v = .next c') : ∃ a dest callers, c.callers = ⟨a, dest⟩ :: callers ∧
    c' = { c with active := dest.elim a fun d => a.assign d (d.width.canonical v), callers } := by
  unfold leave at h
  split at h
  · cases h
  · next a dest callers hcallers =>
    cases h
    refine ⟨a, dest, callers, hcallers, ?_⟩
    cases dest <;> rfl

/-- An instruction after which the run goes on does one of these things. -/
theorem moves_of_step (h : c.step m maxDepth i = .ok (.next c')) : c.Moves m maxDepth i c' := by
  unfold step at h
  cases i with
  | phi dest edges =>
    cases h
    exact .phi
  | binop op dest x y =>
    obtain ⟨vx, hx, h⟩ := bind_eq_ok.1 h
    obtain ⟨vy, hy, h⟩ := bind_eq_ok.1 h
    obtain ⟨v, hv, ⟨⟩⟩ := bind_eq_ok.1 h
    exact .assign (.binop hx hy (mapError_eq_ok.1 hv))
  | cmp cond dest x y =>
    obtain ⟨w, -, h⟩ := bind_eq_ok.1 h
    obtain ⟨vx, -, h⟩ := bind_eq_ok.1 h
    obtain ⟨vy, -, ⟨⟩⟩ := bind_eq_ok.1 h
    exact .assign .cmp
  | cast op dest x =>
    obtain ⟨w, -, h⟩ := bind_eq_ok.1 h
    obtain ⟨v, -, ⟨⟩⟩ := bind_eq_ok.1 h
    exact .assign .cast
  | load dest r =>
    obtain ⟨address, -, h⟩ := bind_eq_ok.1 h
    obtain ⟨v, hv, ⟨⟩⟩ := bind_eq_ok.1 h
    exact .assign (.load hv)
  | store x r =>
    obtain ⟨w, -, h⟩ := bind_eq_ok.1 h
    obtain ⟨address, -, h⟩ := bind_eq_ok.1 h
    obtain ⟨v, -, h⟩ := bind_eq_ok.1 h
    obtain ⟨memory, hmemory, ⟨⟩⟩ := bind_eq_ok.1 h
    exact .store hmemory
  | slotAddr dest ref =>
    obtain ⟨address, haddress, ⟨⟩⟩ := bind_eq_ok.1 h
    exact .assign (.slotAddr haddress)
  | call dest callee args =>
    obtain ⟨values, hvalues, h⟩ := bind_eq_ok.1 h
    obtain ⟨a, ha, ⟨⟩⟩ := bind_eq_ok.1 h
    exact .call hvalues ha
  | jump target =>
    obtain ⟨a, ha, ⟨⟩⟩ := bind_eq_ok.1 h
    exact .goTo rfl ha
  | branch condition t e =>
    obtain ⟨v, -, h⟩ := bind_eq_ok.1 h
    obtain ⟨a, ha, ⟨⟩⟩ := bind_eq_ok.1 h
    exact .goTo rfl ha
  | ret value =>
    cases value with
    | none =>
      obtain ⟨a, dest, callers, hcallers, rfl⟩ := exists_of_leave (Except.ok.inj h)
      exact .leave nofun (fun _ => rfl) hcallers
    | some o =>
      obtain ⟨v, hv, h⟩ := bind_eq_ok.1 h
      obtain ⟨a, dest, callers, hcallers, rfl⟩ := exists_of_leave (Except.ok.inj h)
      exact .leave (fun _ _ => hv) nofun hcallers

end Config

end RegisterCompiler.IR
