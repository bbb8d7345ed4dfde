import RegisterCompiler.Proofs.Straight

/-!
# The stack of activations

Every activation of a function takes the room for its frame variables from the stack below that of its caller, and gives
it back when it ends. So the frame variables of all activations have places of their own, however deep the calls are.
-/

namespace RegisterCompiler.IR

open List

/-- What an activation has on the stack, from its beginning to its end. -/
structure Frame where
  function : Function
  slots : List Int64
  sp : Int64

/-- The places of the frame variables, each with its address and its bytes. -/
def Frame.places (f : Frame) : List (Int × Nat) :=
  zipWith (fun b s => (b.toInt, s.extent)) f.slots f.function.slots

/-- Two places have no byte in common. -/
def Frame.Apart (p q : Int × Nat) : Prop := p.1 + p.2 ≤ q.1 ∨ q.1 + q.2 ≤ p.1

def Activation.frame (a : Activation) : Frame := ⟨a.function, a.slots, a.sp⟩

/-- The frames of all activations, the innermost first. -/
def Config.frames (c : Config) : List Frame := c.active.frame :: c.callers.map (·.activation.frame)

/-- The end of a stack that begins at the end of a memory of `size` bytes. -/
def stackEnd (size : Nat) : List Frame → Int
  | [] => size
  | f :: _ => f.sp.toInt

/-- The frame variables lie below the end of the stack before, where `depth` frames are. -/
structure Frame.Below (f : Frame) (top : Int) (depth : Nat) : Prop where
  reserved : Reserved f.function.slots (top - 8) f.slots f.sp
  low : -8 * (depth + 1) ≤ f.sp.toInt

/-- Frames lie below each other, unless there are so many that the end of the stack could wrap around. -/
def Stacked (size : Nat) : List Frame → Prop
  | [] => True
  | f :: rest => (rest.length < 2 ^ 59 → f.Below (stackEnd size rest) rest.length) ∧ Stacked size rest

/-- The states in the course of a call that is made in the state `c`. -/
inductive Module.Within (m : Module) (maxDepth : Int) (c : Config) : Config → Prop
  | enter {c' : Config} {dest : Option Var} {callee : String} {args : List (Option Operand)} {rest : List Instr} :
      c.active.rest = .call dest callee args :: rest →
      (c.advance rest).step m maxDepth (.call dest callee args) = .ok (.next c') → Within m maxDepth c c'
  | step {c' c'' : Config} : Within m maxDepth c c' → m.Step maxDepth c' c'' → c.frames.length < c''.frames.length →
      Within m maxDepth c c''

variable {m : Module} {maxDepth : Int} {c c' c'' : Config} {i : Instr} {size : Nat} {f : Frame} {fs : List Frame}
  {top : Int}

/-! ## Steps -/

theorem Activation.frame_of_goTo {a a' : Activation} {pred id : BlockId} (h : a.goTo pred id = .ok a') :
    a'.frame = a.frame := by
  unfold goTo at h
  split at h
  · cases h
  · obtain ⟨values, -, ⟨⟩⟩ := Success.bind_eq_ok.1 h
    rfl

/-- Only a call and its end change the frames. -/
theorem Config.Moves.frames_cases (h : c.Moves m maxDepth i c') : c'.frames = c.frames ∨
    (∃ a name args, m.enter maxDepth c.frames.length c.active.sp name args = .ok a ∧ c'.frames = a.frame :: c.frames) ∨
    ∃ f, c.frames = f :: c'.frames := by
  cases h with
  | phi | assign | store => exact .inl rfl
  | goTo _ hgo => exact .inl (congrArg (· :: _) (Activation.frame_of_goTo hgo))
  | call hvalues henter =>
    have hlength : c.frames.length = c.callers.length + 1 := by rw [frames, length_cons, length_map]
    exact .inr (.inl ⟨_, _, _, hlength ▸ henter, rfl⟩)
  | @leave o v a dest callers _ _ hcallers =>
    refine .inr (.inr ⟨c.active.frame, ?_⟩)
    rw [Config.frames, hcallers]
    cases dest <;> rfl

theorem Config.memory_size_of_moves (h : c.Moves m maxDepth i c') : c'.memory.size = c.memory.size := by
  cases h with
  | store hwrite =>
    obtain ⟨place, -, hwrite⟩ := Success.bind_eq_ok.1 hwrite
    obtain ⟨-, ⟨⟩⟩ := Success.ite_throw_bind_eq_ok.1 hwrite
    exact Memory.size_store ..
  | _ => rfl

theorem Module.lt_of_enter {depth : Nat} {sp : Int64} {name : String} {args : List Int64} {a : Activation}
    (h : m.enter maxDepth depth sp name args = .ok a) : depth < maxDepth := by
  unfold enter at h
  split at h
  · cases h
  split at h
  · cases h
  split at h
  · cases h
  · next hdepth => exact Int.not_le.1 hdepth

/-! ## Places -/

theorem Frame.getElem?_places {k : Nat} {p : Int × Nat} (h : f.places[k]? = some p) :
    ∃ b s, f.slots[k]? = some b ∧ f.function.slots[k]? = some s ∧ p = (b.toInt, s.extent) := by
  obtain ⟨b, s, hb, hs, rfl⟩ := getElem?_zipWith_eq_some.1 h
  exact ⟨b, s, hb, hs, rfl⟩

namespace Frame.Below

variable {depth : Nat}

theorem bounds (h : f.Below top depth) {p : Int × Nat} (hp : p ∈ f.places) :
    0 ≤ p.1 ∧ f.sp.toInt ≤ p.1 ∧ p.1 + p.2 ≤ top ∧ 8 ∣ p.1 := by
  obtain ⟨k, hk⟩ := getElem?_of_mem hp
  obtain ⟨b, s, hb, hs, rfl⟩ := getElem?_places hk
  have hbounds := h.reserved.bounds k s b hs hb
  have haligned := h.reserved.aligned b (mem_of_getElem? hb)
  dsimp only
  omega

theorem pairwise (h : f.Below top depth) : f.places.Pairwise Apart := by
  rw [pairwise_iff_getElem]
  intro j k hj hk hlt
  obtain ⟨b, s, hb, hs, hp⟩ := getElem?_places (getElem?_eq_getElem hj)
  obtain ⟨b', s', hb', hs', hq⟩ := getElem?_places (getElem?_eq_getElem hk)
  rw [hp, hq]
  exact h.reserved.disjoint j k s s' b b' (Nat.ne_of_lt hlt) hs hs' hb hb'

end Frame.Below

namespace Stacked

variable (h : Stacked size fs) (hlength : fs.length ≤ 2 ^ 59)
include h hlength

theorem low : -8 * (fs.length : Int) ≤ stackEnd size fs := by
  cases fs with
  | nil => simp [stackEnd]
  | cons f rest =>
    have := (h.1 hlength).low
    rw [stackEnd, length_cons]
    omega

theorem length : ∀ f ∈ fs, f.slots.length = f.function.slots.length := by
  induction fs with
  | nil => exact forall_mem_nil _
  | cons f rest ih => exact forall_mem_cons.2 ⟨(h.1 hlength).reserved.length, ih h.2 (Nat.le_of_succ_le hlength)⟩

/-- The places of the frame variables of all frames are apart, and lie between the end of the stack and that of the
    memory. -/
theorem places : stackEnd size fs ≤ size ∧
    (fs.flatMap Frame.places).Pairwise Frame.Apart ∧
    ∀ p ∈ fs.flatMap Frame.places, 0 ≤ p.1 ∧ stackEnd size fs ≤ p.1 ∧ p.1 + p.2 ≤ size ∧ 8 ∣ p.1 := by
  induction fs with
  | nil => exact ⟨Int.le_refl _, .nil, nofun⟩
  | cons f rest ih =>
    have hbelow := h.1 hlength
    obtain ⟨hend, hpairwise, hbounds⟩ := ih h.2 (Nat.le_of_succ_le hlength)
    have hlast := hbelow.reserved.last_le
    -- The frame variables of the last frame end where those of the frames before begin.
    rw [flatMap_cons, stackEnd]
    refine ⟨by omega, pairwise_append.2 ⟨hbelow.pairwise, hpairwise, fun p hp q hq => ?_⟩,
      forall_mem_append.2 ⟨fun p hp => ?_, fun q hq => ?_⟩⟩
    · have := hbelow.bounds hp
      have := hbounds q hq
      exact .inl (by omega)
    · have := hbelow.bounds hp
      omega
    · have := hbounds q hq
      omega

end Stacked

/-! ## Runs -/

/-- The frame of a function that is entered lies below all others. -/
theorem Stacked.enter (h : Stacked size fs) (hm : ∀ f ∈ m.functions, f.WellFormed)
    (hslots : ∀ f ∈ m.functions, ∀ s ∈ f.slots, s.extent ≤ 2 ^ 62) {depth : Nat} {sp : Int64} {name : String}
    {args : List Int64} {a : Activation} (henter : m.enter maxDepth depth sp name args = .ok a)
    (hsp : sp.toInt = stackEnd size fs) : Stacked size (a.frame :: fs) := by
  refine ⟨fun hlength => ?_, h⟩
  have hlow := h.low (Nat.le_of_lt hlength)
  rw [← hsp] at hlow ⊢
  obtain ⟨f, b, slots, last, -, hf, hreserve, rfl⟩ := Module.exists_of_enter hm henter
  -- So far above the smallest word the stack pointer cannot wrap around.
  have htop : (sp - 8).toInt = sp.toInt - 8 := by
    have := sp.toInt_lt
    rw [toInt_sub_of_bounds] <;> rw [toInt_eight] <;> omega
  have hreserved := reserve_eq_ok hreserve fun s hs => by
    obtain ⟨k, hk⟩ := getElem?_of_mem hs
    have hextent := hslots f hf s hs
    exact ⟨s.toInt_size ((hm f hf).slot k s hk).2.1 (by omega), by omega⟩
  rw [htop] at hreserved
  refine ⟨hreserved, ?_⟩
  have hlast := hreserved.low
  show -8 * ((fs.length : Int) + 1) ≤ last.toInt
  omega

section

variable {memory : Memory} {name : String} {args : List Int64}

/-- In all states of a call the frames lie below each other, and there are no more than the call allows. -/
theorem Module.Visits.stacked (hm : ∀ f ∈ m.functions, f.WellFormed)
    (hslots : ∀ f ∈ m.functions, ∀ s ∈ f.slots, s.extent ≤ 2 ^ 62) (hmemory : memory.size < 2 ^ 63)
    (h : m.Visits maxDepth memory name args c) :
    Stacked memory.size c.frames ∧ c.frames.length ≤ maxDepth ∧ c.memory.size = memory.size := by
  induction h with
  | start henter =>
    have hnil : Stacked memory.size [] := trivial
    exact ⟨hnil.enter hm hslots henter (toInt_ofNat_of_bounds hmemory), Module.lt_of_enter henter, rfl⟩
  | @step c c' _ _ _ hrest hstep ih =>
    obtain ⟨hstacked, hdepth, hsize⟩ := ih
    have hmoves := Config.moves_of_step hstep
    rw [← and_assoc]
    refine ⟨?_, (Config.memory_size_of_moves hmoves).trans hsize⟩
    obtain hsame | ⟨a, name, args, henter, hpush⟩ | ⟨f, hpop⟩ := hmoves.frames_cases
    · rw [hsame]
      exact ⟨hstacked, hdepth⟩
    · rw [hpush]
      exact ⟨hstacked.enter hm hslots henter rfl, Module.lt_of_enter henter⟩
    · have hpop : c.frames = f :: c'.frames := hpop
      rw [hpop] at hstacked hdepth
      exact ⟨hstacked.2, Int.le_trans (Int.ofNat_le.2 (Nat.le_succ _)) hdepth⟩

end

end RegisterCompiler.IR
