import RegisterCompiler.Proofs.Control

/-!
# The machine does what the interpreter does

An activation is followed from its beginning to its return. Where it calls a function, the activation of the callee is
followed first, and then what is left of the caller; since both execute fewer instructions than the whole, the
induction is on the number of instructions that the interpreter may execute.
-/

namespace RegisterCompiler

open List
open IR (Activation Block EvalCause Function Operand Progress Var)
open Machine (Cause Image View)
open Success

/-! ## Runs of the interpreter -/

namespace IR

variable {m : Module} {maxDepth : Int} {n : Nat} {stored : List (List Nat)} {c : Config} {i : Instr} {rest : List Instr}
  {cause : EvalCause}

/-- How a run ends that goes on from where an instruction led. -/
def Progress.resume (m : Module) (maxDepth : Int) (n : Nat) : Progress → Outcome
  | .next c => c.run m maxDepth n
  | .finished result c => ⟨.ok result, c.steps, c.memory⟩

/-- A run is careful that goes on from where an instruction led. -/
def Progress.Careful (m : Module) (maxDepth : Int) (n : Nat) (stored : List (List Nat)) : Progress → Prop
  | .next c => c.Careful m maxDepth n stored
  | .finished .. => True

section

variable (hrest : c.active.rest = i :: rest)
include hrest

theorem Config.run_zero : c.run m maxDepth 0 = (c.advance rest).fail .stepLimit := by
  rw [run, hrest]

theorem Config.run_of_error (hstep : (c.advance rest).step m maxDepth i = .error cause) (n : Nat) :
    c.run m maxDepth (n + 1) = (c.advance rest).fail cause := by
  rw [run, hrest]
  dsimp only
  rw [hstep]

theorem Config.run_of_ok {progress : Progress} (hstep : (c.advance rest).step m maxDepth i = .ok progress) (n : Nat) :
    c.run m maxDepth (n + 1) = progress.resume m maxDepth n := by
  rw [run, hrest]
  dsimp only
  rw [hstep]
  cases progress <;> rfl

end

/-- The next instruction of a careful run is mindful, and so is what follows. -/
theorem Config.Careful.succ (h : c.Careful m maxDepth (n + 1) stored) (hrest : c.active.rest = i :: rest) :
    (c.advance rest).active.Mindful (stored.headD []) i ∧ ∀ progress, (c.advance rest).step m maxDepth i = .ok progress →
      progress.Careful m maxDepth n ((c.advance rest).storedAfter stored i) := by
  rw [Careful, hrest] at h
  refine ⟨h.1, fun progress hstep => ?_⟩
  have hnext := h.2
  rw [hstep] at hnext
  cases progress with
  | next c' => exact hnext
  | finished result c' => trivial

theorem reserve_eq_error {name : String} {sp : Int64} {slots : List Slot} (h : reserve name sp slots = .error cause) :
    cause = .stackOverflow name := by
  induction slots generalizing sp with
  | nil => cases h
  | cons s rest ih =>
    unfold reserve at h
    dsimp only at h
    split at h
    · cases h
      rfl
    · cases hrest : reserve name ((sp - s.size) &&& ~~~7) rest with
      | error cause' =>
        rw [hrest] at h
        cases h
        exact ih hrest
      | ok r =>
        rw [hrest] at h
        cases h

end IR

/-! ## Ends of activations -/

namespace Emission

variable {e e' : Emission} {img : Image} {d : Descriptor} {m : IR.Module} {o : Origin} {c c' : IR.Config} {n n' p q : Nat}
  {v w : View} {stored : List Nat} {outer : List (List Nat)} {maxDepth : Int} {i : IR.Instr} {rest : List IR.Instr}
  {b : Block} {cause : EvalCause} {xs : List Int64} {ms : List Move} {os : List Operand} {depth r : Nat}
  {name : String}

/-- What becomes of an activation: the machine is out of stack, or both fail, or both return. A failure of the
    interpreter that is no division by zero binds the machine to nothing. -/
def Ends (e : Emission) (img : Image) (o : Origin) (m : IR.Module) (maxDepth : Int) (n : Nat) (outer : List (List Nat))
    (c : IR.Config) (p : Nat) (v : View) : Prop :=
  img.Fails p v .stackOverflow ∨
    (∃ err, (c.run m maxDepth n).result = .error err ∧
      (err.cause = .scalar .divideByZero → img.Fails p v (.scalar .divideByZero))) ∨
    ∃ (n' : Nat) (c' : IR.Config) (x : Int64) (q : Nat) (w : View), n' < n ∧ c.run m maxDepth n = (c'.leave x).resume m maxDepth n' ∧
      (c'.leave x).Careful m maxDepth n' outer ∧ c'.callers = c.callers ∧
      (∀ y : Nat, o.top ≤ y → c'.memory.get y = o.memory.get y) ∧ img.Goes p v q w ∧ e.Returns img o x q w

theorem Ends.of_goes (h : e.Ends img o m maxDepth n' outer c' q w) (hlt : n' ≤ n)
    (hrun : c.run m maxDepth n = c'.run m maxDepth n') (hcallers : c'.callers = c.callers) (hgoes : img.Goes p v q w) :
    e.Ends img o m maxDepth n outer c p v := by
  rcases h with hoverflow | ⟨err, herr, hfails⟩ | ⟨n'', c'', x, r, u, hn, hrun', hcareful, hcallers', hmemory, hgoes', hret⟩
  · exact .inl (hgoes.fails hoverflow)
  · exact .inr (.inl ⟨err, by rw [hrun, herr], fun hcause => hgoes.fails (hfails hcause)⟩)
  · exact .inr (.inr ⟨n'', c'', x, r, u, Nat.lt_of_lt_of_le hn hlt, hrun.trans hrun', hcareful, hcallers'.trans hcallers,
      hmemory, hgoes.trans hgoes', hret⟩)

theorem ends_of_fail (hrun : c.run m maxDepth n = c'.fail cause)
    (hfails : cause = .scalar .divideByZero → img.Fails p v (.scalar .divideByZero)) :
    e.Ends img o m maxDepth n outer c p v :=
  .inr (.inl ⟨_, by rw [hrun]; rfl, hfails⟩)

/-! ## Calls -/

/-- The code before the first block ends with a jump to the entry block, unless that is laid out first. -/
theorem entryCode_eq_ok {code : List Asm.Instr} (h : e.entryCode = .ok code) :
    ∃ ms start, e.paramMoves = .ok ms ∧ code = e.layout.prologue ++ e.moves ms ++ start ∧
      (e.function.blocks.head?.map Block.id = some e.function.entry ∧ start = [] ∨
        ∃ label, e.blockLabel e.function.entry = .ok label ∧ start = [.jump label]) := by
  obtain ⟨ms, hms, h⟩ := bind_eq_ok.1 h
  dsimp only at h
  split at h
  · next hfirst =>
    cases h
    exact ⟨ms, [], hms, rfl, .inl ⟨hfirst, rfl⟩⟩
  · obtain ⟨label, hlabel, ⟨⟩⟩ := bind_eq_ok.1 h
    exact ⟨ms, _, hms, rfl, .inr ⟨label, hlabel, rfl⟩⟩

theorem Linked.goes_start (h : e.Linked img) (hresolves : img.Resolves) (hwell : e.function.WellFormed)
    {code start : List Asm.Instr}
    (hstart : e.function.blocks.head?.map Block.id = some e.function.entry ∧ start = [] ∨
      ∃ label, e.blockLabel e.function.entry = .ok label ∧ start = [.jump label])
    (hat : img.CodeAt (r + code.length) start)
    (hfalls : e.function.blocks.head?.map Block.id = some e.function.entry →
      e.BlockAt img e.function.entry (r + (code ++ start).length))
    (w : View) : ∃ q, img.Goes (r + code.length) w q w ∧ e.BlockAt img e.function.entry q := by
  rcases hstart with ⟨hfirst, rfl⟩ | ⟨label, hlabel, rfl⟩
  · have hfalls := hfalls hfirst
    rw [append_nil] at hfalls
    exact ⟨_, .refl _ w, hfalls⟩
  · obtain ⟨b, hb⟩ := Option.isSome_iff_exists.1 hwell.entry
    obtain ⟨hb, hid⟩ := hwell.block?_eq_some_iff.1 hb
    obtain ⟨s, hs, hblock⟩ := h.lookup_label hresolves hb (hid ▸ hlabel)
    exact ⟨s, Image.goes_jump (Image.codeAt_singleton.1 hat) hs, hid ▸ hblock⟩

section

variable (he : e.Carried img d m) (himg : img.Carries d m) (hname : m.function? name = some e.function)
include he himg hname

theorem Carried.exists_label : ∃ r, img.labels.lookup name = some r := by
  obtain ⟨r, code, hlabel, -⟩ := he.linked.entry
  have hname : e.function.name = name := by simpa using find?_some hname
  exact ⟨r, hname ▸ himg.resolves r _ hlabel⟩

/-- A function that is entered begins with its first block, unless there is no room for its frame. -/
theorem Carried.enters {args : List Int64} {sp address : Int64} {a : Activation}
    (henter : m.enter maxDepth depth sp name args = .ok a)
    (hargs : List.Forall₂ (fun p x => p.width.IsCanonical x) e.function.params args)
    (hpassed : Passed e.target args address v) (hdepth : 8 ≤ 2 * sp.toInt + (v.memory.size - (v.regs .sp).toInt))
    (callers : List IR.Caller) (memory : Memory) (steps : Nat) (hr : img.labels.lookup name = some r) :
    img.Fails r v .stackOverflow ∨ ∃ q w, img.Goes r v q w ∧
      e.Runs img ⟨(v.regs .sp).toInt - 8, v.memory.size, v, sp.toInt - 8, memory⟩ ⟨a, callers, memory, steps⟩ [] q w := by
  obtain ⟨r', code, hlabel, hcode, hat, hfalls⟩ := he.linked.entry
  have hsame : e.function.name = name := by simpa using find?_some hname
  cases (hsame ▸ himg.resolves r' _ hlabel).symm.trans hr
  have hstart := Image.goes_of_exec (v := v) hlabel rfl
  obtain ⟨ms, start, hms, rfl, hjump⟩ := entryCode_eq_ok hcode
  obtain ⟨hat, hjumpAt⟩ := Image.codeAt_append.1 hat
  rcases he.sound.enter memory hname henter hargs hpassed hdepth hms with hoverflow | ⟨w, hrun, hid, htracks⟩
  · exact .inl (hstart.fails (Image.fails_of_run hat hoverflow nofun))
  have hgoes := hstart.trans (Image.goes_of_run hat hrun)
  obtain ⟨hb, hbid⟩ := htracks.mem_blocks he.sound
  have hentry : a.block.id = e.function.entry := hbid.trans hid
  obtain ⟨s, hgo, hblock⟩ := he.linked.goes_start himg.resolves he.sound.ready.wellFormed hjump hjumpAt hfalls w
  obtain ⟨q, hgo', hrest⟩ := he.linked.goes_block himg.resolves hb (hentry ▸ hblock) w
  refine .inr ⟨q, w, hgoes.trans (hgo.trans hgo'), ⟨0, htracks⟩, ?_⟩
  rwa [show a.rest = a.block.code from htracks.rest]

end

theorem Sound.enter_ne_scalar (hsound : e.Sound) {args : List Int64} {sp : Int64}
    (hname : m.function? name = some e.function) (henter : m.enter maxDepth depth sp name args = .error cause)
    (s : ScalarError) : cause ≠ .scalar s := by
  unfold IR.Module.enter at henter
  rw [hname] at henter
  dsimp only at henter
  split at henter
  · cases henter
    exact nofun
  split at henter
  · cases henter
    exact nofun
  cases hreserve : IR.reserve name (sp - 8) e.function.slots with
  | error cause' =>
    rw [hreserve] at henter
    cases henter
    rw [IR.reserve_eq_error hreserve]
    exact nofun
  | ok r =>
    rw [hreserve] at henter
    obtain ⟨b, hb⟩ := Option.isSome_iff_exists.1 hsound.ready.wellFormed.entry
    obtain ⟨hb, hid⟩ := hsound.ready.wellFormed.block?_eq_some_iff.1 hb
    obtain ⟨a, ha⟩ := exists_goTo (a := ⟨e.function, IR.bindParams e.function.params args, r.1, r.2, -1, default, []⟩)
      hsound.ready.wellFormed rfl hb (-1)
    rw [hid] at ha
    cases ha.symm.trans henter

theorem mapM_present (os : List Operand) : (os.map some).mapM present = .ok os := by
  induction os with
  | nil => rfl
  | cons y os ih =>
    rw [map_cons, mapM_cons, ih]
    rfl

theorem RestAt.call {dest : Option Var} {callee : String}
    (h : e.RestAt img b (.call dest callee (os.map some) :: rest) p) :
    ∃ pushes ms result q, (os.drop e.target.args.length).reverse.mapM e.pushArg = .ok pushes ∧ e.argMoves os = .ok ms ∧
      e.resultCode dest = .ok result ∧ img.CodeAt p (pushes.flatten ++ e.moves ms ++ [.call callee]) ∧
      q = p + (pushes.flatten ++ e.moves ms).length + 1 ∧
      img.CodeAt q (clearCode (Int64.ofNat (os.length - e.target.args.length) * e.target.stackArgSize) ++ result) ∧
      e.RestAt img b rest
        (q + (clearCode (Int64.ofNat (os.length - e.target.args.length) * e.target.stackArgSize) ++ result).length) := by
  obtain ⟨site, n, em, -, hem, hat, -, hafter, -⟩ := h.cons
  obtain ⟨os', hos', hem⟩ := bind_eq_ok.1 hem
  cases (mapM_present os).symm.trans hos'
  obtain ⟨code, hcall, ⟨⟩⟩ := bind_eq_ok.1 hem
  obtain ⟨pushes, ms, result, hpushes, hms, hresult, rfl⟩ := callCode_eq_ok hcall
  obtain ⟨hat, hback⟩ := Image.codeAt_append.1 hat
  rw [length_append, length_singleton, ← Nat.add_assoc] at hback
  refine ⟨pushes, ms, result, _, hpushes, hms, hresult, hat, rfl, hback, ?_⟩
  simpa only [length_append, length_singleton, Nat.add_assoc] using hafter

theorem Ready.scratch_args (h : e.Ready) (hb : b ∈ e.function.blocks) {dest : Option Var} {callee : String}
    (hi : .call dest callee (os.map some) ∈ b.code) (hms : e.argMoves os = .ok ms) :
    ∀ m ∈ ms, 2 ≤ e.target.scratch.length ∨ m.isIdentity := by
  have hcost := (Nat.max_le.1 (h.demand b hb _ hi)).2
  exact (@Ready.argMoves e [] True os h (fun y hy => h.wellFormed.readable b hb _ hi _ (mem_map_of_mem hy)) hcost).of_eq hms

theorem canonical_of_widths {base : Int} {g : Function} (h : e.Placed)
    (hwidths : (os.map some).map (·.map Operand.width) = g.params.map (some ·.width))
    (hreads : List.Forall₂ (e.Reads base v) os xs) : List.Forall₂ (fun p x => p.width.IsCanonical x) g.params xs := by
  have hmap : os.map Operand.width = g.params.map Var.width := by
    refine map_injective_iff.2 (fun _ _ => Option.some.inj) ?_
    rw [map_map] at hwidths
    rw [map_map, map_map]
    exact hwidths
  have hcanonical : List.Forall₂ (fun wd x => wd.IsCanonical x) (os.map Operand.width) xs :=
    forall₂_map_left_iff.2 (hreads.imp fun _ _ hy => (hy.canonical h).2)
  rw [hmap] at hcanonical
  exact forall₂_map_left_iff.1 hcanonical

theorem Homed.goes_callee {base top : Int} {size : Nat} (h : e.Homed base size) (habove : e.Above base top)
    (hv : v.Stands base size) (hsp : (v.regs .sp).toInt = top) (hlow : 0 ≤ top) (hhigh : top ≤ size)
    (hreads : List.Forall₂ (e.Reads base v) os xs) {pushes : List (List Asm.Instr)}
    (hpushes : (os.drop e.target.args.length).reverse.mapM e.pushArg = .ok pushes) (hms : e.argMoves os = .ok ms)
    (hscratch : ∀ m ∈ ms, 2 ≤ e.target.scratch.length ∨ m.isIdentity) {callee : String}
    (hat : img.CodeAt p (pushes.flatten ++ e.moves ms ++ [.call callee])) (hr : img.labels.lookup callee = some r) :
    img.Fails p v .stackOverflow ∧ top < 8 * (xs.length - e.target.args.length : Nat) + 8 ∨ ∃ u, img.Goes p v r u ∧
      e.Calls top xs (Int64.ofNat (p + (pushes.flatten ++ e.moves ms).length + 1)) v u := by
  obtain ⟨hat, hcall⟩ := Image.codeAt_append.1 hat
  have hcall := Image.codeAt_singleton.1 hcall
  rcases h.run_args habove hv hsp hlow hhigh hreads hpushes hms hscratch with ⟨hoverflow, hless⟩ | ⟨w, hrun, hpush⟩
  · exact .inl ⟨Image.fails_of_run hat hoverflow Cause.noConfusion, by omega⟩
  have hgoes := Image.goes_of_run hat hrun
  rcases hpush (Int64.ofNat (p + (pushes.flatten ++ e.moves ms).length + 1)) with ⟨hoverflow, hless⟩ | ⟨u, hu, hcalls⟩
  · exact .inl ⟨hgoes.fails (Image.fails_call hcall hoverflow), hless⟩
  · exact .inr ⟨u, hgoes.trans (Image.goes_call hcall hr hu), hcalls⟩

/-- The callee is at its beginning in the machine, and when it has returned, the caller goes on. -/
def Enters (e : Emission) (img : Image) (d : Descriptor) (m : IR.Module) (o : Origin) (c c' : IR.Config)
    (stored : List Nat) (p : Nat) (v : View) : Prop :=
  ∃ (e' : Emission) (o' : Origin) (q : Nat) (w : View), e'.Carried img d m ∧ o'.start.memory.size = o'.size ∧
    img.Goes p v q w ∧ e'.Runs img o' c' [] q w ∧
    ∀ (c'' : IR.Config) (x : Int64) (r : Nat) (u : View), c''.callers = c'.callers →
      (∀ y : Nat, o'.top ≤ y → c''.memory.get y = o'.memory.get y) → e'.Returns img o' x r u →
      ∃ c₂ s t, c''.leave x = .next c₂ ∧ c₂.callers = c.callers ∧ img.Goes r u s t ∧ e.Runs img o c₂ stored s t

namespace Before

variable {k : Nat} {dest : Option Var} {callee : String} {args : List (Option Operand)}

variable (h : e.Before o m c k stored v (.call dest callee args) rest)
include h

theorem arguments (hsound : e.Sound) :
    ∃ os xs, args = os.map some ∧ args.mapM (c.advance rest).active.value = .ok xs ∧
      List.Forall₂ (e.Reads o.base v) os xs := by
  have hreads : ∀ x ∈ args, ∃ y z, x = some y ∧ (c.advance rest).active.value x = .ok z ∧ e.Reads o.base v y z :=
    fun x hx => h.reads hsound rfl hx
  clear h
  induction args with
  | nil => exact ⟨[], [], rfl, rfl, .nil⟩
  | cons x args ih =>
    obtain ⟨hx, hargs⟩ := forall_mem_cons.1 hreads
    obtain ⟨y, z, rfl, hz, hy⟩ := hx
    obtain ⟨os, xs, rfl, hvalues, hall⟩ := ih hargs
    refine ⟨y :: os, z :: xs, rfl, ?_, .cons hy hall⟩
    rw [mapM_cons, hz, hvalues]
    rfl

theorem arguments_canonical (hsound : e.Sound) {g : Function} (hg : m.function? callee = some g)
    (hos : args = os.map some) (hreads : List.Forall₂ (e.Reads o.base v) os xs) :
    List.Forall₂ (fun p x => p.width.IsCanonical x) g.params xs := by
  exact canonical_of_widths hsound.toPlaced (hos ▸ (h.rule g hg).1) hreads

theorem goes_callee (hsound : e.Sound) (hos : args = os.map some) (hreads : List.Forall₂ (e.Reads o.base v) os xs)
    {pushes : List (List Asm.Instr)} (hpushes : (os.drop e.target.args.length).reverse.mapM e.pushArg = .ok pushes)
    {ms : List Move} (hms : e.argMoves os = .ok ms)
    (hat : img.CodeAt p (pushes.flatten ++ e.moves ms ++ [.call callee])) (hr : img.labels.lookup callee = some r) :
    img.Fails p v .stackOverflow ∨ ∃ u, img.Goes p v r u ∧
      e.Calls (o.base - e.layout.size.toInt) xs (Int64.ofNat (p + (pushes.flatten ++ e.moves ms).length + 1)) v u := by
  obtain ⟨hb, -⟩ := h.tracks.mem_blocks hsound
  obtain ⟨hi, -⟩ := h.tracks.next h.next
  subst hos
  have hscratch := hsound.ready.scratch_args hb (mem_of_getElem? hi) hms
  have hframed := h.tracks.framed
  have hroom := hframed.room
  have hframe := hsound.tidy.size
  have hhigh := hroom.high
  exact ((hsound.homed hroom).goes_callee (hsound.above hroom) hframed.stands hframed.sp hroom.low (by omega) hreads hpushes hms
    hscratch hat hr).imp_left And.left

theorem goes_back (he : e.Carried img d m) (he' : e'.Carried img d m) (hg : m.function? callee = some e'.function)
    {u w : View} (hsmall : q < 2 ^ 63) (hcalls : e.Calls (o.base - e.layout.size.toInt) xs (Int64.ofNat q) v u)
    {o' : Origin} (hbase : o'.base = (u.regs .sp).toInt - 8) (hstart : o'.start = u) {x : Int64}
    (hreturns : e'.Returns img o' x r w) {memory : Memory}
    (hmemory : ∀ y : Nat, c.active.sp.toInt - 8 ≤ y → memory.get y = c.memory.get y) {pushed : Int64}
    (hpushed : pushed = Int64.ofNat (xs.length - e.target.args.length) * e.target.stackArgSize)
    {result : List Asm.Instr} (hresult : e.resultCode dest = .ok result)
    (hat : img.CodeAt q (clearCode pushed ++ result)) :
    ∃ t, img.Goes r w (q + (clearCode pushed ++ result).length) t ∧
      e.Tracks o ((c.advance rest).active.receive dest x) (k + 1) stored memory t := by
  obtain ⟨hret, hrestores, hvalue⟩ := hreturns
  rw [hbase, hstart] at hrestores
  have htarget : e'.target = e.target := he'.target.trans he.target.symm
  subst hpushed
  obtain ⟨s, hclear, hcalling, hsame⟩ := h.tracks.framed.run_clear he.sound htarget hcalls hrestores
  have hreg : ∀ d, dest = some d → s.regs e.target.result = x := by
    rintro d rfl
    have hwidth : d.width = e'.function.result := (h.rule _ hg).2 d rfl
    have hvalid := he.sound.width (h.exists_home he.sound rfl).1
    rw [hsame, ← htarget]
    refine hvalue fun hnone => ?_
    rw [hwidth, hnone] at hvalid
    cases hvalid
  obtain ⟨t, hrun, htracks⟩ := h.tracks.returned he.sound h.next hcalling hmemory hreg hresult
  refine ⟨t, (Image.goes_ret hret hsmall (hrestores.read_address hcalls.passed)).trans (Image.goes_of_run hat ?_), htracks⟩
  rw [View.run_append, hclear]
  exact hrun

/-- A call enters the callee, unless there is no room for it on the stack. -/
theorem call (himg : img.Carries d m) (he : e.Carried img d m)
    (hcode : e.RestAt img c.active.block (.call dest callee args :: rest) p) (maxDepth : Int) :
    (∃ cause, (c.advance rest).step m maxDepth (.call dest callee args) = .error cause ∧ ∀ s, cause ≠ .scalar s) ∨
      ∃ c', (c.advance rest).step m maxDepth (.call dest callee args) = .ok (.next c') ∧
        (img.Fails p v .stackOverflow ∨ e.Enters img d m o c c' stored p v) := by
  obtain ⟨hb, -⟩ := h.tracks.mem_blocks he.sound
  obtain ⟨hi, hrest⟩ := h.tracks.next h.next
  obtain ⟨os, xs, hos, hvalues, hreads⟩ := h.arguments he.sound
  obtain ⟨g, hg⟩ := himg.callee _ he.member _ hb _ _ _ (mem_of_getElem? hi)
  obtain ⟨e', rfl, he'⟩ := himg.carried g (mem_of_find?_eq_some hg)
  have hstep : (c.advance rest).step m maxDepth (.call dest callee args) = (do
      let active ← m.enter maxDepth (c.callers.length + 1) c.active.sp callee xs
      pure (.next { c.advance rest with active, callers := ⟨(c.advance rest).active, dest⟩ :: c.callers })) := by
    simp only [IR.Config.step, hvalues]
    rfl
  rw [hstep]
  cases henter : m.enter maxDepth (c.callers.length + 1) c.active.sp callee xs with
  | error cause => exact .inl ⟨cause, rfl, fun s => he'.sound.enter_ne_scalar hg henter s⟩
  | ok active =>
    refine .inr ⟨_, rfl, ?_⟩
    rw [hos] at hcode
    obtain ⟨pushes, ms, result, q', hpushes, hms, hresult, hat, rfl, hback, hafter⟩ := hcode.call
    obtain ⟨r, hr⟩ := he'.exists_label himg hg
    rcases h.goes_callee he.sound hos hreads hpushes hms hat hr with hoverflow | ⟨u, hgoes, hcalls⟩
    · exact .inl hoverflow
    have hpassed := hcalls.passed
    rw [he.target, ← he'.target] at hpassed
    have hdepth : 8 ≤ 2 * c.active.sp.toInt + (u.memory.size - (u.regs .sp).toInt) := by
      have := h.tracks.depth
      have := he.sound.tidy.size
      rw [hcalls.changes.size, h.tracks.framed.stands.memory, hcalls.sp]
      omega
    rcases he'.enters himg hg henter (h.arguments_canonical he.sound hg hos hreads) hpassed hdepth _ c.memory _ hr with
      hoverflow | ⟨q, w, hgoes', hruns⟩
    · exact .inl (hgoes.fails hoverflow)
    refine .inr ⟨e', _, q, w, he', rfl, hgoes.trans hgoes', hruns, fun c'' x s t hcallers hmemory hreturns => ?_⟩
    have hsmall : p + (pushes.flatten ++ e.moves ms).length + 1 < 2 ^ 63 := by
      have hcall := Image.codeAt_singleton.1 (Image.codeAt_append.1 hat).2
      have := (Array.getElem?_eq_some_iff.1 hcall).1
      have := himg.small
      omega
    obtain ⟨t', hgoes'', htracks⟩ := h.goes_back he he' hg hsmall hcalls rfl rfl hreturns hmemory
      (by rw [hreads.length_eq]) hresult hback
    refine ⟨_, _, t', IR.Config.leave_of_callers hcallers x, rfl, hgoes'', ⟨_, htracks⟩, ?_⟩
    dsimp only
    rw [Activation.receive_block, Activation.receive_rest]
    exact hafter

end Before

/-! ## Runs of activations -/

theorem Runs.exists_rest (h : e.Runs img o c stored p v) : ∃ i rest, c.active.rest = i :: rest := by
  obtain ⟨k, htracks⟩ := h.tracks
  refine exists_cons_of_ne_nil fun hnil => ?_
  have := drop_eq_nil_iff.1 (htracks.rest.symm.trans hnil)
  exact absurd htracks.inside (Nat.not_lt.2 this)

/-- What becomes of an activation in a careful run of the interpreter becomes of it in the machine. -/
theorem Runs.ends (h : e.Runs img o c stored p v) (himg : img.Carries d m) (he : e.Carried img d m)
    (hsize : o.start.memory.size = o.size) (hcareful : c.Careful m maxDepth n (stored :: outer)) :
    e.Ends img o m maxDepth n outer c p v := by
  induction n using Nat.strongRecOn generalizing e o c stored outer p v with
  | ind n ih =>
  obtain ⟨i, rest, hrest⟩ := h.exists_rest
  cases n with
  | zero => exact ends_of_fail (IR.Config.run_zero hrest) nofun
  | succ n =>
    obtain ⟨hmindful, hnext⟩ := hcareful.succ hrest
    by_cases hret : ∃ x, i = .ret x
    · obtain ⟨x, rfl⟩ := hret
      obtain ⟨k, hbefore⟩ := h.before himg he hrest hmindful
      obtain ⟨z, q, w, hstep, hgoes, hreturns⟩ := hbefore.ret he hsize (hrest ▸ h.code) maxDepth
      exact .inr (.inr ⟨n, c.advance rest, z, q, w, Nat.lt_succ_self n, IR.Config.run_of_ok hrest hstep n,
        hnext _ hstep, rfl, hbefore.tracks.untouched, hgoes, hreturns⟩)
    by_cases hcall : ∃ dest callee args, i = .call dest callee args
    · obtain ⟨dest, callee, args, rfl⟩ := hcall
      obtain ⟨k, hbefore⟩ := h.before himg he hrest hmindful
      rcases hbefore.call himg he (hrest ▸ h.code) maxDepth with ⟨cause, hstep, hcause⟩ | ⟨c', hstep, hcallee⟩
      · exact ends_of_fail (IR.Config.run_of_error hrest hstep n) fun hzero => absurd hzero (hcause _)
      rcases hcallee with hoverflow | ⟨e', o', q, w, he', hsize', hgoes, hruns, hback⟩
      · exact .inl hoverflow
      have hrun : c.run m maxDepth (n + 1) = c'.run m maxDepth n := IR.Config.run_of_ok hrest hstep n
      rcases ih n (Nat.lt_succ_self n) hruns he' hsize' (hnext _ hstep) with
        hoverflow | ⟨err, herr, hfails⟩ | ⟨n', c'', x, r, u, hlt, hrun', hcareful', hcallers, hmemory, hgoes', hreturns⟩
      · exact .inl (hgoes.fails hoverflow)
      · exact .inr (.inl ⟨err, hrun ▸ herr, fun hzero => hgoes.fails (hfails hzero)⟩)
      -- The callee has returned, and what is left of the caller takes fewer instructions.
      obtain ⟨c₂, s, t, hleave, hcallers₂, hgoes₂, hruns₂⟩ := hback c'' x r u hcallers hmemory hreturns
      rw [hleave] at hrun' hcareful'
      exact (ih n' (by omega) hruns₂ he hsize hcareful').of_goes (by omega) (hrun.trans hrun') hcallers₂
        (hgoes.trans (hgoes'.trans hgoes₂))
    · obtain ⟨stored', hstored, hcontinues⟩ := h.continues himg he hrest hmindful
        (fun dest callee args hi => hcall ⟨dest, callee, args, hi⟩) (fun x hi => hret ⟨x, hi⟩) outer maxDepth
      cases hstep : (c.advance rest).step m maxDepth i with
      | error cause =>
        rw [hstep] at hcontinues
        exact ends_of_fail (IR.Config.run_of_error hrest hstep n) (hcontinues _)
      | ok progress =>
        rw [hstep] at hcontinues
        obtain ⟨c', q, w, rfl, hcallers, hgoes, hruns⟩ := hcontinues
        have hcareful' := hnext _ hstep
        rw [hstored] at hcareful'
        exact (ih n (Nat.lt_succ_self n) hruns he hsize hcareful').of_goes (Nat.le_succ n)
          (IR.Config.run_of_ok hrest hstep n) hcallers hgoes

end Emission

end RegisterCompiler
