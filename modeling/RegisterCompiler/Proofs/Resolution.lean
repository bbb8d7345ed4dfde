import RegisterCompiler.Proofs.Labels

/-!
# Labels at run time

The check of a program looks at one function after the other and keeps a table of labels; the machine looks a label up
in the whole listing, when a jump gets to it. Both come to the same. What the check accepts is said here about the
listing alone (`Asm.Program.Consistent`), and of a listing of this kind every jump finds its label, wherever a return
may have led the machine before.
-/

namespace RegisterCompiler

open Success List

/-! ## What the check accepts -/

theorem Width.isValid_iff_bits {w : Width} : w.isValid ↔ w.bits = 8 ∨ w.bits = 16 ∨ w.bits = 32 ∨ w.bits = 64 := by
  obtain ⟨bits⟩ := w
  simp [isValid_iff, w8, w16, w32, w64]

namespace Asm

/-- An instruction may go to a label. -/
inductive Instr.GoesTo : Instr → Label → Prop where
  | jump (l : Label) : GoesTo (.jump l) l
  | jumpZero (r : Reg) (l : Label) : GoesTo (.jumpZero r l) l
  | jumpNonzero (r : Reg) (l : Label) : GoesTo (.jumpNonzero r l) l
  | call (l : Label) : GoesTo (.call l) l

/-- An instruction works at a width. -/
inductive Instr.WorksAt : Instr → Width → Prop where
  | mov (w : Width) (dest source : Reg) : WorksAt (.mov w dest source) w
  | movImm (w : Width) (dest : Reg) (value : Int64) : WorksAt (.movImm w dest value) w
  | sext (w : Width) (dest source : Reg) : WorksAt (.sext w dest source) w
  | zext (w : Width) (dest source : Reg) : WorksAt (.zext w dest source) w
  | alu (op : BinOp) (w : Width) (dest x y : Reg) : WorksAt (.alu op w dest x y) w
  | aluImm (op : BinOp) (w : Width) (dest x : Reg) (y : Int64) : WorksAt (.aluImm op w dest x y) w
  | cmp (cond : Cond) (w : Width) (dest x y : Reg) : WorksAt (.cmp cond w dest x y) w
  | cmpImm (cond : Cond) (w : Width) (dest x : Reg) (y : Int64) : WorksAt (.cmpImm cond w dest x y) w
  | load (w : Width) (dest : Reg) (address : Addr) : WorksAt (.load w dest address) w
  | store (w : Width) (source : Reg) (address : Addr) : WorksAt (.store w source address) w

/-- What the listing of a program has to be: no label stands in it twice, the labels that it mentions stand in it, and
    its instructions work at machine widths. -/
structure Program.Consistent (p : Program) : Prop where
  once : ∀ (j k : Nat) l, p.flatten[j]? = some (.label l) → p.flatten[k]? = some (.label l) → j = k
  entry : p.entry ≠ "" → .label p.entry ∈ p.flatten
  target : ∀ i ∈ p.flatten, ∀ l, i.GoesTo l → .label l ∈ p.flatten
  width : ∀ i ∈ p.flatten, ∀ w, i.WorksAt w → w.bits = 8 ∨ w.bits = 16 ∨ w.bits = 32 ∨ w.bits = 64

namespace Instr

variable {i : Instr} {l : Label} {w : Width}

theorem label?_eq_some : i.label? = some l ↔ i = .label l := by
  cases i <;> simp [label?]

theorem target?_eq_some : i.target? = some l ↔ i.GoesTo l := by
  constructor
  · intro h
    cases i <;> cases h <;> constructor
  · rintro (_ | _ | _ | _) <;> rfl

theorem width?_eq_some : i.width? = some w ↔ i.WorksAt w := by
  constructor
  · intro h
    cases i <;> cases h <;> constructor
  · rintro (_ | _ | _ | _ | _ | _ | _ | _ | _ | _) <;> rfl

end Instr

namespace Program

variable {p : Program} {i : Instr} {l : Label}

theorem mem_labels : l ∈ p.labels ↔ .label l ∈ p.flatten := by
  rw [labels, ← labels_flatten, mem_filterMap]
  simp only [Instr.label?_eq_some, exists_eq_right]

theorem nodup_labels_iff :
    p.labels.Nodup ↔ ∀ (j k : Nat) l, p.flatten[j]? = some (.label l) → p.flatten[k]? = some (.label l) → j = k := by
  rw [labels, ← labels_flatten, List.Nodup, pairwise_filterMap, pairwise_iff_getElem]
  simp only [Instr.label?_eq_some]
  constructor
  · intro h j k l hj hk
    obtain ⟨hjlt, hj⟩ := List.getElem?_eq_some_iff.1 hj
    obtain ⟨hklt, hk⟩ := List.getElem?_eq_some_iff.1 hk
    rcases Nat.lt_trichotomy j k with hlt | heq | hlt
    · exact absurd rfl (h j k hjlt hklt hlt l hj l hk)
    · exact heq
    · exact absurd rfl (h k j hklt hjlt hlt l hk l hj)
  · rintro h j k hjlt hklt hlt l hj l' hk rfl
    exact Nat.ne_of_lt hlt (h j k l (List.getElem?_eq_some_iff.2 ⟨hjlt, hj⟩) (List.getElem?_eq_some_iff.2 ⟨hklt, hk⟩))

theorem mem_flatten : i ∈ p.flatten ↔
    i ∈ p.start ∨ (∃ f ∈ p.functions, i = .label f.name) ∨ ∃ f ∈ p.functions, i ∈ f.code := by
  simp only [flatten, mem_append, mem_flatMap, mem_cons, and_or_left, exists_or]

theorem goesTo_of_mem_start (hi : i ∈ p.start) :
    (∀ l, i.GoesTo l → p.entry ≠ "" ∧ l = p.entry) ∧ ∀ w, ¬i.WorksAt w := by
  unfold start at hi
  split at hi
  · cases hi
  · next hentry =>
    simp only [mem_cons, not_mem_nil, or_false] at hi
    rcases hi with rfl | rfl | rfl
    · refine ⟨fun _ h => ?_, fun _ h => ?_⟩ <;> cases h
    · refine ⟨fun _ h => ?_, fun _ h => ?_⟩
      · cases h
        exact ⟨hentry, rfl⟩
      · cases h
    · refine ⟨fun _ h => ?_, fun _ h => ?_⟩ <;> cases h

theorem consistent_iff_valid : p.Consistent ↔ p.Valid := by
  have hcode : ∀ f ∈ p.functions, ∀ i ∈ f.code, i ∈ p.flatten := fun f hf i hi => mem_flatten.2 (.inr (.inr ⟨f, hf, hi⟩))
  constructor
  · intro h
    refine ⟨nodup_labels_iff.2 h.once, ?_, fun f hf i hi l hl => ?_, fun f hf i hi w hw => ?_⟩
    · rw [or_iff_not_imp_left, mem_labels]
      exact h.entry
    · exact mem_labels.2 (h.target i (hcode f hf i hi) l (Instr.target?_eq_some.1 hl))
    · exact Width.isValid_iff_bits.2 (h.width i (hcode f hf i hi) w (Instr.width?_eq_some.1 hw))
  · intro h
    have hentry : p.entry ≠ "" → .label p.entry ∈ p.flatten := fun hne => mem_labels.1 (h.entry.resolve_left hne)
    refine ⟨nodup_labels_iff.1 h.nodup, hentry, fun i hi l hl => ?_, fun i hi w hw => ?_⟩
    · rcases mem_flatten.1 hi with hstart | ⟨f, hf, rfl⟩ | ⟨f, hf, hi⟩
      · obtain ⟨hne, rfl⟩ := (goesTo_of_mem_start hstart).1 l hl
        exact hentry hne
      · cases hl
      · exact mem_labels.1 (h.target f hf i hi l (Instr.target?_eq_some.2 hl))
    · rcases mem_flatten.1 hi with hstart | ⟨f, hf, rfl⟩ | ⟨f, hf, hi⟩
      · exact absurd hw ((goesTo_of_mem_start hstart).2 w)
      · cases hw
      · exact Width.isValid_iff_bits.1 (h.width f hf i hi w (Instr.width?_eq_some.2 hw))

end Program

end Asm

/-! ## What the machine does -/

namespace Machine

open Asm (Instr Label)

/-- A part of the work of an instruction never fails for want of a label. -/
def Exec.Resolved {α : Type} (x : Exec α) : Prop := ∀ s l, (x.run s).1 ≠ .error (.unknownLabel l)

namespace Exec

variable {α β : Type} {x : Exec α}

theorem resolved_pure (a : α) : Resolved (pure a) := by
  intro _ _ h
  cases h

theorem resolved_get : Resolved (MonadState.get : Exec State) := by
  intro _ _ h
  cases h

theorem resolved_modify (g : State → State) : Resolved (modify g) := by
  intro _ _ h
  cases h

theorem resolved_throw {c : Cause} (hc : ∀ l, c ≠ .unknownLabel l) : Resolved (throw c : Exec α) :=
  fun _ l h => hc l (Except.error.inj h)

theorem Resolved.bind {k : α → Exec β} (hx : x.Resolved) (hk : ∀ a, (k a).Resolved) : (x >>= k).Resolved := by
  intro s l
  rw [View.run_bind]
  have hs := hx s l
  rcases hrun : x.run s with ⟨c | a, t⟩
  · rw [hrun] at hs
    exact fun h => hs (congrArg Except.error (Except.error.inj h))
  · exact hk a t l

/-- A computation on the state whose failures are known. -/
theorem resolved_of_gives {g : View → Except Cause α} (hx : View.Gives x g) (hg : ∀ v l, g v ≠ .error (.unknownLabel l)) :
    x.Resolved := fun s l => by
  rw [hx s]
  exact hg s.view l

theorem resolved_ite {p : Prop} [Decidable p] {x y : Exec α} (hx : x.Resolved) (hy : y.Resolved) :
    (if p then x else y).Resolved := by
  split
  · exact hx
  · exact hy

theorem resolved_reg (r : Reg) : (reg r).Resolved := resolved_of_gives (View.gives_reg r) fun v l => by
  unfold View.get
  split <;> simp

theorem resolved_setReg (r : Reg) (x : Int64) : (setReg r x).Resolved := by
  unfold setReg
  split
  · exact resolved_modify _
  · exact resolved_throw fun _ => Cause.noConfusion

theorem ofAccess_ne_unknownLabel (e : AccessError) (l : Label) : Cause.ofAccess e ≠ .unknownLabel l := by
  cases e <;> simp [Cause.ofAccess]

theorem resolved_read (w : Width) (address : Int64) : (read w address).Resolved :=
  resolved_of_gives (View.gives_read w address) fun v l h => by
    rcases bind_eq_error.1 h with h | ⟨_, -, ⟨⟩⟩
    obtain ⟨e, -, he⟩ := mapError_eq_error.1 h
    exact ofAccess_ne_unknownLabel e l he

theorem resolved_write (w : Width) (address x : Int64) : (write w address x).Resolved := by
  refine resolved_get.bind fun s => ?_
  cases hs : s.write w address x with
  | ok t => exact resolved_modify fun _ => t
  | error c =>
    refine resolved_throw fun l hl => ?_
    rcases bind_eq_error.1 hs with hs | ⟨_, -, ⟨⟩⟩
    obtain ⟨e, -, he⟩ := mapError_eq_error.1 hs
    exact ofAccess_ne_unknownLabel e l (he.trans hl)

theorem resolved_push (x : Int64) : (push x).Resolved := by
  refine resolved_get.bind fun s => ?_
  refine resolved_ite ((resolved_throw fun _ => Cause.noConfusion).bind fun _ => ?_) ?_ <;>
    exact (resolved_write _ _ _).bind fun _ => resolved_modify _

theorem resolved_pop : pop.Resolved :=
  resolved_get.bind fun _ => (resolved_read _ _).bind fun _ => (resolved_modify _).bind fun _ => resolved_pure _

theorem resolved_effective (a : Asm.Addr) : (effective a).Resolved := by
  refine (resolved_reg _).bind fun _ => ?_
  cases a.index with
  | none => exact resolved_pure _
  | some i => exact (resolved_reg _).bind fun _ => resolved_pure _

theorem resolved_compute (op : BinOp) (w : Width) (x y : Int64) : (compute op w x y).Resolved := by
  unfold compute
  split
  · exact resolved_pure _
  · exact resolved_throw fun _ => Cause.noConfusion

theorem resolved_checkStack : checkStack.Resolved := by
  refine resolved_get.bind fun s => ?_
  exact resolved_ite ((resolved_throw fun _ => Cause.noConfusion).bind fun _ => resolved_modify _) (resolved_modify _)

theorem resolved_forM {l : List α} {f : α → Exec Unit} (h : ∀ a, (f a).Resolved) : (l.forM f).Resolved := by
  induction l with
  | nil => exact resolved_pure ()
  | cons a l ih => exact (h a).bind fun _ => ih

variable {img : Image} {i : Instr}

theorem resolved_jump {l : Label} (h : (img.labels.lookup l).isSome) : (jump img l).Resolved := by
  obtain ⟨n, hn⟩ := Option.isSome_iff_exists.1 h
  unfold jump
  rw [hn]
  exact resolved_modify _

theorem resolved_instr (h : ∀ l, i.GoesTo l → (img.labels.lookup l).isSome) : (instr img i).Resolved := by
  cases i with
  | movImm w d v => exact resolved_setReg _ _
  | mov | sext | zext | cmpImm => exact (resolved_reg _).bind fun _ => resolved_setReg _ _
  | alu op w d x y =>
    exact (resolved_reg _).bind fun _ => (resolved_reg _).bind fun _ => (resolved_compute _ _ _ _).bind fun _ =>
      resolved_setReg _ _
  | aluImm op w d x v =>
    refine (resolved_reg _).bind fun _ => (resolved_compute _ _ _ _).bind fun _ => (resolved_setReg _ _).bind fun _ => ?_
    exact resolved_ite resolved_checkStack (resolved_pure _)
  | cmp c w d x y =>
    exact (resolved_reg _).bind fun _ => (resolved_reg _).bind fun _ => resolved_setReg _ _
  | load w d a =>
    exact (resolved_effective _).bind fun _ => (resolved_read _ _).bind fun _ => resolved_setReg _ _
  | store w r a =>
    exact (resolved_effective _).bind fun _ => (resolved_reg _).bind fun _ => resolved_write _ _ _
  | lea d a => exact (resolved_effective _).bind fun _ => resolved_setReg _ _
  | push r => exact (resolved_reg _).bind fun _ => resolved_push _
  | pop d => exact resolved_pop.bind fun _ => resolved_setReg _ _
  | jump l => exact resolved_jump (h l (.jump l))
  | jumpZero r l =>
    exact (resolved_reg _).bind fun _ => resolved_ite (resolved_jump (h l (.jumpZero r l))) (resolved_pure _)
  | jumpNonzero r l =>
    exact (resolved_reg _).bind fun _ => resolved_ite (resolved_jump (h l (.jumpNonzero r l))) (resolved_pure _)
  | call l =>
    exact resolved_get.bind fun _ => (resolved_push _).bind fun _ => resolved_jump (h l (.call l))
  | ret => exact resolved_pop.bind fun _ => resolved_modify _
  | halt => exact resolved_modify _
  | label | comment => exact resolved_pure _

end Exec

/-- A fault that is not for want of a label. -/
def Fault.Resolved (f : Fault) : Prop := ∀ l, f.cause ≠ .unknownLabel l

namespace Image

variable {img : Image} {f : Fault}

/-- Every label that the code may go to is in the image. -/
def Closed (img : Image) : Prop := ∀ (p : Nat) i, img.code[p]? = some i → ∀ l, i.GoesTo l → (img.labels.lookup l).isSome

theorem Closed.step_resolved (h : img.Closed) {pc : Int} {i : Instr} (hi : img.instr? pc = some i) (s : State) (l : Label) :
    (step img i s).1 ≠ .error (.unknownLabel l) := by
  have hcode : ∃ p : Nat, img.code[p]? = some i := by
    unfold instr? at hi
    split at hi
    · cases hi
    · exact ⟨_, hi⟩
  obtain ⟨p, hp⟩ := hcode
  exact Exec.resolved_instr (h p i hp) _ l

/-- No run fails for want of a label, wherever it begins and wherever returns lead it. -/
theorem Closed.loop_resolved (h : img.Closed) (n : Nat) (s : State) (hf : (img.loop n s).1 = .error f) :
    f.Resolved := by
  induction n generalizing s with
  | zero =>
    rw [loop] at hf
    split at hf <;> cases hf <;> exact fun _ => Cause.noConfusion
  | succ n ih =>
    rw [loop] at hf
    cases hinstr : img.instr? (img.passSilent s).pc with
    | none =>
      rw [hinstr] at hf
      cases hf
      exact fun _ => Cause.noConfusion
    | some i =>
      have hstep := h.step_resolved hinstr { img.passSilent s with pc := (img.passSilent s).pc + 1 }
      rw [hinstr] at hf
      rcases hrun : step img i { img.passSilent s with pc := (img.passSilent s).pc + 1 } with ⟨c | _, t⟩
      · simp only [hrun] at hf hstep
        cases hf
        exact fun l hl => hstep l (congrArg _ hl)
      · simp only [hrun] at hf
        split at hf
        · cases hf
        · exact ih t hf

theorem Closed.runFrom_resolved (h : img.Closed) {l : Label} (hl : (img.labels.lookup l).isSome) (maxSteps : Int)
    (s : State) (hf : (img.runFrom maxSteps l s).1 = .error f) : f.Resolved := by
  have hjump := Exec.resolved_jump hl s
  unfold runFrom at hf
  rcases hrun : (Exec.jump img l).run s with ⟨c | _, t⟩
  · simp only [hrun] at hf hjump
    cases hf
    exact fun l' hl' => hjump l' (congrArg _ hl')
  · simp only [hrun] at hf
    exact h.loop_resolved _ t hf

theorem resultIn_resolved {r : Reg} {o : Except Fault Unit × State} (ho : ∀ f, o.1 = .error f → f.Resolved)
    (hf : (resultIn r o).1 = .error f) : f.Resolved := by
  obtain ⟨c | _, s⟩ := o
  · cases hf
    exact ho _ rfl
  · have hreg := Exec.resolved_reg r s
    unfold resultIn at hf
    rcases hrun : (Exec.reg r).run s with ⟨c | x, t⟩
    · simp only [hrun] at hf hreg
      cases hf
      exact fun l hl => hreg l (congrArg _ hl)
    · simp only [hrun] at hf
      cases hf

theorem Closed.start_resolved (h : img.Closed) {l : Label} (hl : (img.labels.lookup l).isSome) (maxSteps : Int)
    (s : State) (hf : (img.start maxSteps l s).1 = .error f) : f.Resolved :=
  resultIn_resolved (fun _ => h.runFrom_resolved hl maxSteps s.reset) hf

theorem Closed.call_resolved (h : img.Closed) {l : Label} (hl : (img.labels.lookup l).isSome) (maxSteps : Int)
    (d : Descriptor) (args : List Int64) (s : State) (hf : (img.call maxSteps d l args s).1 = .error f) :
    f.Resolved := by
  have hpass : (passArgs d args).Resolved := (Exec.resolved_forM Exec.resolved_push).bind fun _ =>
    (Exec.resolved_forM fun x : Int64 × Reg => Exec.resolved_setReg x.2 x.1).bind fun _ => Exec.resolved_push _
  have hs := hpass s.reset
  unfold call at hf
  rcases hrun : (passArgs d args).run s.reset with ⟨c | _, t⟩
  · simp only [hrun] at hf hs
    cases hf
    exact fun l' hl' => hs l' (congrArg _ hl')
  · simp only [hrun] at hf
    exact resultIn_resolved (fun _ => h.runFrom_resolved hl maxSteps t) hf

theorem exists_closed {p : Asm.Program} (h : p.validate = .ok ()) :
    ∃ img, load p.flatten = .ok img ∧ img.Closed ∧ ∀ l, .label l ∈ p.flatten → (img.labels.lookup l).isSome := by
  obtain ⟨img, hload, hcode, hresolves⟩ := exists_load h
  have hlabel : ∀ l, .label l ∈ p.flatten → (img.labels.lookup l).isSome := fun l hl => by
    obtain ⟨n, hn⟩ := mem_iff_getElem?.1 hl
    exact Option.isSome_iff_exists.2 ⟨n, hresolves n l (by simpa [hcode] using hn)⟩
  refine ⟨img, hload, fun n i hi l hl => hlabel l ?_, hlabel⟩
  have hmem : i ∈ p.flatten := mem_of_getElem? (by simpa [hcode] using hi)
  exact (Asm.Program.consistent_iff_valid.2 (Asm.Program.validate_eq_ok.1 h)).target i hmem l hl

end Image

end Machine

/-- The check of a program accepts exactly the consistent listings. These can be loaded, and neither a run from one of
    their labels nor a call of one ever fails for want of a label. -/
theorem Asm.Program.validate_settles_labels (p : Program) :
    (p.validate = .ok () ↔ p.Consistent) ∧
      (p.validate = .ok () → ∃ img, Machine.Image.load p.flatten = .ok img ∧
        ∀ l, .label l ∈ p.flatten → ∀ (maxSteps : Int) (s : Machine.State) (f : Machine.Fault),
          ((img.start maxSteps l s).1 = .error f → ∀ l', f.cause ≠ .unknownLabel l') ∧
          ∀ (d : Descriptor) (args : List Int64), (img.call maxSteps d l args s).1 = .error f →
            ∀ l', f.cause ≠ .unknownLabel l') := by
  refine ⟨validate_eq_ok.trans consistent_iff_valid.symm, fun h => ?_⟩
  obtain ⟨img, hload, hclosed, hlabels⟩ := Machine.Image.exists_closed h
  refine ⟨img, hload, fun l hl maxSteps s f => ⟨fun hf => ?_, fun d args hf => ?_⟩⟩
  · exact hclosed.start_resolved (hlabels l hl) maxSteps s hf
  · exact hclosed.call_resolved (hlabels l hl) maxSteps d args s hf

/-- A program with a start, a loop that jumps back, and a call from one function to the other. -/
def Asm.Program.waiting : Program :=
  ⟨"main",
    [⟨"main", 0, [.movImm .w64 ⟨1⟩ 3, .label ".Lmain.loop", .aluImm .sub .w64 ⟨1⟩ ⟨1⟩ 1, .call "idle",
      .jumpNonzero ⟨1⟩ ".Lmain.loop", .ret]⟩, ⟨"idle", 0, [.ret]⟩]⟩

theorem Asm.Program.validate_settles_labels_waiting :
    waiting.validate = .ok () ∧ ∃ img, Machine.Image.load waiting.flatten = .ok img ∧
      ∀ (maxSteps : Int) (s : Machine.State) (f : Machine.Fault), (img.start maxSteps startLabel s).1 = .error f →
        ∀ l, f.cause ≠ .unknownLabel l := by
  have hvalid : waiting.validate = .ok () := rfl
  have hlabel : .label startLabel ∈ waiting.flatten := mem_cons_self
  obtain ⟨img, hload, hruns⟩ := (validate_settles_labels waiting).2 hvalid
  exact ⟨hvalid, img, hload, fun maxSteps s f => (hruns startLabel hlabel maxSteps s f).1⟩

end RegisterCompiler
