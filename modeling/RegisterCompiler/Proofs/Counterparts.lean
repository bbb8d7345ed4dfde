import RegisterCompiler.Proofs.Growth

/-!
# What instructions become

An instruction becomes one of the intermediate code, its *counterpart*, with the same operands and the same result,
behind code that helps to get at its operands. Only frame variables, addresses that are computed from them and calls that
are ignored have no counterpart.
-/

namespace RegisterCompiler.Llvm

open Success List

/-! ## Counterparts -/

/-- An instruction that takes no instruction, `frame` being the names of the addresses in the frame. -/
def Action.Silent (frame : List String) : Action → Prop
  | .alloca .. => True
  | .gep _ _ (.localName base) _ => base ∈ frame
  | .call _ _ callee _ => ignoredIntrinsics.any (callee.startsWith ·)
  | _ => False

/-- The name of the address that an instruction may make known. -/
def Action.pointer? : Action → Option String
  | .alloca result _ _ | .gep result _ _ _ => some result
  | _ => none

def pointers (instrs : List Instr) : List String := instrs.filterMap (·.action.pointer?)

/-- The names of the addresses in the frame that are known after some instructions, `frame` being those known before. -/
def frameAfter (frame : List String) (instrs : List Instr) : List String :=
  instrs.foldl (fun frame i => (framed? frame i.action).toList ++ frame) frame

/-- The variables of the values, and the numbers of the blocks. -/
structure Dictionary where
  values : List (String × IR.Var)
  labels : List (String × IR.BlockId)

namespace Dictionary

variable (D : Dictionary)

def result (name : String) : IR.Var := (D.values.lookup name).getD ⟨0, .none⟩

/-- The phi that an instruction is, before its edges are known. -/
def pending? (i : Instr) : Option PendingPhi :=
  match i.action with
  | .phi result _ incoming => some ⟨i.pos, D.result result, incoming⟩
  | _ => none

/-- What an operand becomes: a constant of its width, the variable of a value, or one that the code `aux` gives an address
    in the frame. -/
inductive Means (frame : List String) (aux : List IR.Instr) : Value → Ty → IR.Operand → Prop
  | const {c : Int64} {type : Ty} {w : Width} : type.width? = some w → Means frame aux (.const c) type (.const c w)
  | value {name : String} {type : Ty} {v : IR.Var} : name ∉ frame → D.values.lookup name = some v →
      type.width? = some v.width → Means frame aux (.localName name) type (.var v)
  | address {name : String} {type : Ty} {v : IR.Var} {ref : IR.SlotRef} : name ∈ frame → .slotAddr v ref ∈ aux →
      Means frame aux (.localName name) type (.var v)

/-- What the address of a load or store becomes. -/
inductive Points (frame : List String) : Value → IR.MemRef → Prop
  | frame {name : String} {ref : IR.SlotRef} : name ∈ frame → Points frame (.localName name) (.slot ref)
  | value {name : String} {v : IR.Var} : name ∉ frame → D.values.lookup name = some v → v.width = .w64 →
      Points frame (.localName name) (.pointer (some (.var v)) 0)

/-- What a value that a phi takes becomes, for a block that has been kept. -/
inductive Supplies (dest : IR.Var) : Incoming → IR.PhiEdge → Prop
  | const {c : Int64} {label : String} {id : IR.BlockId} : D.labels.lookup label = some id →
      Supplies dest ⟨.const c, label⟩ ⟨id, some (.const c dest.width)⟩
  | value {name label : String} {v : IR.Var} {id : IR.BlockId} : D.labels.lookup label = some id →
      D.values.lookup name = some v → Supplies dest ⟨.localName name, label⟩ ⟨id, some (.var v)⟩

/-- The edges of a phi: a value for each block that has been kept. -/
def Feeds (dest : IR.Var) (incoming : List Incoming) (edges : List IR.PhiEdge) : Prop :=
  List.Forall₂ (D.Supplies dest) (incoming.filter fun i => (D.labels.lookup i.pred).isSome) edges

/-- The operand `y` is `x`, or what the code `aux` converts it to. -/
def Converts (aux : List IR.Instr) (op : CastOp) (x y : IR.Operand) : Prop :=
  y = x ∨ ∃ v, y = .var v ∧ .cast op v (some x) ∈ aux

/-- The instruction that an instruction becomes, behind the code `aux`. -/
inductive Counterpart (frame : List String) (aux : List IR.Instr) : Action → IR.Instr → Prop
  | load {result : String} {type : Ty} {pointer : Value} {ref : IR.MemRef} :
      type.width? = some (D.result result).width → D.Points frame pointer ref →
      Counterpart frame aux (.load result type pointer) (.load (D.result result) (some ref))
  | store {type : Ty} {value pointer : Value} {x : IR.Operand} {ref : IR.MemRef} :
      D.Means frame aux value type x → D.Points frame pointer ref →
      Counterpart frame aux (.store type value pointer) (.store (some x) (some ref))
  | binop {result : String} {op : BinOp} {type : Ty} {x y : Value} {x' y' : IR.Operand} :
      (type = .bool → op ∈ [BinOp.and, .or, .xor]) → D.Means frame aux x type x' → D.Means frame aux y type y' →
      Counterpart frame aux (.binop result op type x y) (.binop op (D.result result) (some x') (some y'))
  | icmp {result predicate : String} {type : Ty} {x y : Value} {cond : Cond} {x' y' : IR.Operand} :
      Cond.ofName? predicate = some cond → D.Means frame aux x type x' → D.Means frame aux y type y' →
      Counterpart frame aux (.icmp result predicate type x y) (.cmp cond (D.result result) (some x') (some y'))
  | cast {result : String} {op : CastOp} {source target : Ty} {value : Value} {x : IR.Operand} :
      target ≠ .bool → D.Means frame aux value source x →
      Counterpart frame aux (.cast result op source value target) (.cast op (D.result result) (some x))
  /-- To a truth value: the lowest bit. -/
  | toBool {result : String} {source : Ty} {value : Value} {x x' : IR.Operand} :
      D.Means frame aux value source x → Converts aux .trunc x x' →
      Counterpart frame aux (.cast result .trunc source value .bool)
        (.binop .and (D.result result) (some x') (some (.const 1 Width.w8)))
  /-- From a truth value with a sign: minus 0 or minus 1. -/
  | ofSignedBool {result : String} {target : Ty} {value : Value} {x x' : IR.Operand} :
      target ≠ .bool → D.Means frame aux value .bool x → Converts aux .zext x x' →
      Counterpart frame aux (.cast result .sext .bool value target)
        (.binop .sub (D.result result) (some (.const 0 (D.result result).width)) (some x'))
  /-- From a truth value to a byte: no change. -/
  | ofBool {result : String} {op : CastOp} {target : Ty} {value : Value} {x : IR.Operand} :
      target ≠ .bool → D.Means frame aux value .bool x →
      Counterpart frame aux (.cast result op .bool value target)
        (.binop .or (D.result result) (some x) (some (.const 0 Width.w8)))
  | gep {result : String} {element : Ty} {base : Value} {indices : List TypedValue} {x y : IR.Operand} :
      (∀ name, base = .localName name → name ∉ frame) →
      Counterpart frame aux (.gep result element base indices) (.binop .add (D.result result) (some x) (some y))
  | call {result callee : String} {type : Ty} {args : List TypedValue} {args' : List IR.Operand} :
      callee.startsWith "llvm." = false → List.Forall₂ (fun a x => D.Means frame aux a.value a.type x) args args' →
      Counterpart frame aux (.call result type callee args)
        (.call (if result = "" then none else D.values.lookup result) callee (args'.map some))
  | phi {result : String} {type : Ty} {incoming : List Incoming} {edges : List IR.PhiEdge} :
      D.Feeds (D.result result) incoming edges →
      Counterpart frame aux (.phi result type incoming) (.phi (D.result result) edges)
  | br {target : String} {id : IR.BlockId} : D.labels.lookup target = some id →
      Counterpart frame aux (.br target) (.jump id)
  | condBr {condition : Value} {t e : String} {x : IR.Operand} {id id' : IR.BlockId} :
      D.Means frame aux condition .bool x → D.labels.lookup t = some id → D.labels.lookup e = some id' →
      Counterpart frame aux (.condBr condition t e) (.branch (some x) id id')
  | retNone : Counterpart frame aux (.ret none) (.ret none)
  | ret {v : TypedValue} {x : IR.Operand} : D.Means frame aux v.value v.type x →
      Counterpart frame aux (.ret (some v)) (.ret (some x))

/-- The code of an instruction, in which variables from `n` on are fresh. A phi has no edges yet. -/
inductive Yields (n : IR.VarId) (frame : List String) : Action → List IR.Instr → Prop
  | silent {a : Action} {aux : List IR.Instr} : a.Silent frame → (∀ i ∈ aux, i.Helps n) → Yields n frame a aux
  | phi {result : String} {type : Ty} {incoming : List Incoming} :
      Yields n frame (.phi result type incoming) [.phi (D.result result) []]
  | counterpart {a : Action} {aux : List IR.Instr} {main : IR.Instr} : (∀ i ∈ aux, i.Helps n) →
      D.Counterpart frame aux a main → main.isPhi = false → Yields n frame a (aux ++ [main])

end Dictionary

namespace Scope

def dictionary (s : Scope) : Dictionary := ⟨s.values, s.labels⟩

def frame (s : Scope) : List String := s.addresses.map Prod.fst

/-- What lowering an instruction can do. -/
structure Lowers (s : Scope) (i : Instr) (s' : Scope) : Prop where
  dictionary : s'.dictionary = s.dictionary
  nextVar : s.nextVar ≤ s'.nextVar
  slots : s.slots <+: s'.slots
  addresses : ∃ new, s'.addresses = new ++ s.addresses ∧ new.map Prod.fst = (framed? s.frame i.action).toList
  emits : i.action.pointer? = none → s.Emits s'
  phis : s'.phis = s.phis ++ (s.dictionary.pending? i).toList
  code : ∃ code, s'.code = s.code ++ code ∧ s.dictionary.Yields s.nextVar s.frame i.action code

end Scope

variable {D : Dictionary} {frame : List String} {s s' s₁ : Scope} {aux aux' : List IR.Instr} {main : IR.Instr} {pos : Pos}
  {type : Ty} {value : Value} {o : IR.Operand} {i : Instr} {n : IR.VarId} {a : Action} {code : List IR.Instr}
  {ref : IR.SlotRef} {name : String}

theorem pointer?_of_framed? (h : framed? frame a = some name) : a.pointer? = some name := by
  cases a with
  | alloca result type count => exact h
  | gep result element base indices =>
    cases base with
    | localName base =>
      have h : (if base ∈ frame then some result else none) = some name := h
      split at h
      · exact h
      · cases h
    | const c | globalName base => cases h
  | _ => cases h

/-! ## Operands -/

theorem Scope.lookup_eq_none : s.addresses.lookup name = none ↔ name ∉ s.frame := by
  rw [lookup_eq_none_iff, frame, mem_map]
  constructor
  · rintro h ⟨p, hp, rfl⟩
    exact bne_iff_ne.1 (h p hp) rfl
  · exact fun h p hp => bne_iff_ne.2 fun heq => h ⟨p, hp, heq.symm⟩

theorem Scope.mem_frame (h : s.addresses.lookup name = some ref) : name ∈ s.frame :=
  not_not.1 fun hname => by cases h.symm.trans (lookup_eq_none.2 hname)

theorem Scope.Adds.dictionary_eq (h : s.Adds s' aux) : s'.dictionary = s.dictionary := by rw [h.eq]; rfl

theorem Scope.Adds.run_resultVar (h : s.Adds s' aux) :
    (resultVar name).run s' = .ok (s.dictionary.result name, s') := by
  rw [← h.dictionary_eq]
  rfl

theorem Scope.Adds.frame_eq (h : s.Adds s' aux) : s'.frame = s.frame := by rw [h.eq]; rfl

theorem Dictionary.Means.mono (h : D.Means frame aux value type o) (haux : aux ⊆ aux') : D.Means frame aux' value type o := by
  cases h with
  | const hw => exact .const hw
  | value hname hv hw => exact .value hname hv hw
  | address hname hmem => exact .address hname (haux hmem)

theorem exists_means (h : (operand pos value type).run s = .ok (o, s')) :
    ∃ aux, s.Adds s' aux ∧ s.dictionary.Means s.frame aux value type o := by
  cases resolves_of_operand h with
  | const c hw => exact ⟨[], .refl s, .const hw⟩
  | slot href =>
    exact ⟨_, .adding (.slotAddr (Int.le_refl _)), .address (Scope.mem_frame (Scope.carrier?_eq_slot.1 href)) mem_cons_self⟩
  | var hv hw =>
    obtain ⟨hnone, hv⟩ := Scope.carrier?_eq_var.1 hv
    exact ⟨[], .refl s, .value (Scope.lookup_eq_none.1 hnone) hv hw⟩

theorem Scope.Adds.exists_means (h : s.Adds s₁ aux) (hrun : (operand pos value type).run s₁ = .ok (o, s')) :
    ∃ aux', s.Adds s' (aux ++ aux') ∧ s.dictionary.Means s.frame (aux ++ aux') value type o := by
  obtain ⟨aux', haux', hmeans⟩ := Llvm.exists_means hrun
  rw [h.dictionary_eq, h.frame_eq] at hmeans
  exact ⟨aux', h.trans haux', hmeans.mono (subset_append_right _ _)⟩

theorem exists_forall₂_means {args : List TypedValue} {os : List IR.Operand}
    (h : (args.mapM fun a => operand pos a.value a.type).run s = .ok (os, s')) :
    ∃ aux, s.Adds s' aux ∧ List.Forall₂ (fun a o => s.dictionary.Means s.frame aux a.value a.type o) args os := by
  induction args generalizing s os with
  | nil =>
    cases h
    exact ⟨[], .refl _, .nil⟩
  | cons a rest ih =>
    rw [mapM_cons] at h
    obtain ⟨o, s₁, ha, h⟩ := run_bind_eq_ok.1 h
    obtain ⟨os', s₂, hrest, ⟨⟩⟩ := run_bind_eq_ok.1 h
    obtain ⟨aux, haux, hmeans⟩ := exists_means ha
    obtain ⟨aux', haux', hothers⟩ := ih hrest
    rw [haux.dictionary_eq, haux.frame_eq] at hothers
    refine ⟨aux ++ aux', haux.trans haux', .cons (hmeans.mono (subset_append_left _ _)) ?_⟩
    exact hothers.imp fun _ _ h => h.mono (subset_append_right _ _)

theorem points_of_address {pointer : Value} {ref : IR.MemRef} (h : (address pos pointer).run s = .ok (ref, s')) :
    s = s' ∧ s.dictionary.Points s.frame pointer ref := by
  obtain ⟨found, _, hframe, h⟩ := run_bind_eq_ok.1 h
  obtain ⟨rfl, hfound⟩ := eq_of_frameAddress? hframe
  cases found with
  | some slot =>
    obtain ⟨name, rfl, hslot⟩ := hfound slot rfl
    cases h
    exact ⟨rfl, .frame (Scope.mem_frame hslot)⟩
  | none =>
    obtain ⟨o, s₁, ho, h⟩ := run_bind_eq_ok.1 h
    cases resolves_of_operand ho with
    | const c => cases h
    | slot href =>
      -- The name would have been found among the addresses in the frame.
      cases hframe.symm.trans (congrArg (fun r => Except.ok (r, s)) (Scope.carrier?_eq_slot.1 href))
    | var hv hw =>
      cases h
      obtain ⟨hnone, hv⟩ := Scope.carrier?_eq_var.1 hv
      exact ⟨rfl, .value (Scope.lookup_eq_none.1 hnone) hv (Option.some.inj hw).symm⟩

/-! ## Instructions -/

theorem lowers_emit (haux : s.Adds s' aux) (hmain : s.dictionary.Counterpart s.frame aux i.action main)
    (hphi : main.isPhi = false) (hframed : framed? s.frame i.action = none) (hpending : s.dictionary.pending? i = none) :
    s.Lowers i { s' with code := s'.code ++ [main] } where
  dictionary := haux.dictionary_eq
  nextVar := haux.nextVar
  slots := by rw [haux.eq]
  addresses := ⟨[], haux.emits.addresses, by rw [hframed]; rfl⟩
  emits _ := ⟨haux.emits.values, haux.nextVar, haux.emits.slots, haux.emits.addresses⟩
  phis := by rw [haux.eq, hpending, Option.toList_none, append_nil]
  code := ⟨aux ++ [main], by rw [haux.eq, append_assoc], .counterpart haux.helps hmain hphi⟩

theorem lowers_silent {result : String} {slots : List IR.Slot} (haux : s.Adds s' aux) (hslots : s.slots <+: slots)
    (hsilent : i.action.Silent s.frame) (hframed : framed? s.frame i.action = some result)
    (hpointer : i.action.pointer? ≠ none) (hpending : s.dictionary.pending? i = none) :
    s.Lowers i { s' with slots, addresses := (result, ref) :: s'.addresses } where
  dictionary := haux.dictionary_eq
  nextVar := haux.nextVar
  slots := hslots
  addresses := ⟨[(result, ref)], congrArg ((result, ref) :: ·) haux.emits.addresses, by rw [hframed]; rfl⟩
  emits h := absurd h hpointer
  phis := by rw [haux.eq, hpending, Option.toList_none, append_nil]
  code := ⟨aux, by rw [haux.eq], .silent hsilent haux.helps⟩

section

variable {result predicate callee : String} {op : BinOp} {cop : CastOp} {x y : Value} {source target element : Ty} {base : Value}
  {indices args : List TypedValue}

theorem lowers_lowerBinop (h : (lowerBinop pos result op type x y).run s = .ok ((), s')) :
    s.Lowers ⟨pos, .binop result op type x y⟩ s' := by
  unfold lowerBinop at h
  obtain ⟨hop, h⟩ := run_ite_obstruct_eq_ok.1 h
  obtain ⟨x', s₁, hx, h⟩ := run_bind_eq_ok.1 h
  obtain ⟨y', s₂, hy, h⟩ := run_bind_eq_ok.1 h
  obtain ⟨aux, haux, hx⟩ := exists_means hx
  obtain ⟨aux', haux', hy⟩ := haux.exists_means hy
  rw [run_bind_eq_ok, haux'.run_resultVar] at h
  obtain ⟨_, _, ⟨⟩, ⟨⟩⟩ := h
  refine lowers_emit haux' (.binop (fun htype => ?_) (hx.mono (subset_append_left _ _)) hy) rfl rfl rfl
  exact not_not.1 fun hmem => hop ⟨htype, hmem⟩

theorem lowers_lowerIcmp (h : (lowerIcmp pos result predicate type x y).run s = .ok ((), s')) :
    s.Lowers ⟨pos, .icmp result predicate type x y⟩ s' := by
  unfold lowerIcmp at h
  split at h
  · cases h
  · next cond hcond =>
    obtain ⟨x', s₁, hx, h⟩ := run_bind_eq_ok.1 (run_ite_obstruct_eq_ok.1 h).2
    obtain ⟨y', s₂, hy, h⟩ := run_bind_eq_ok.1 h
    obtain ⟨aux, haux, hx⟩ := exists_means hx
    obtain ⟨aux', haux', hy⟩ := haux.exists_means hy
    rw [run_bind_eq_ok, haux'.run_resultVar] at h
    obtain ⟨_, _, ⟨⟩, ⟨⟩⟩ := h
    exact lowers_emit haux' (.icmp hcond (hx.mono (subset_append_left _ _)) hy) rfl rfl rfl

theorem lowers_lowerCast (h : (lowerCast pos result cop source value target).run s = .ok ((), s')) :
    s.Lowers ⟨pos, .cast result cop source value target⟩ s' := by
  rw [lowerCast, run_bind_eq_ok] at h
  obtain ⟨x, s₁, hx, h⟩ := h
  obtain ⟨aux, haux, hx⟩ := exists_means hx
  rw [run_bind_eq_ok, haux.run_resultVar] at h
  obtain ⟨_, _, ⟨⟩, h⟩ := h
  -- The operand is converted by an instruction before the counterpart.
  have hconverted : ∀ (w : Width) (op : CastOp) (main : IR.Operand → IR.Instr),
      (∀ aux x', s.dictionary.Means s.frame aux value source x → Dictionary.Converts aux op x x' →
        s.dictionary.Counterpart s.frame aux (.cast result cop source value target) (main x')) →
      (∀ x', (main x').isPhi = false) → (do
        let v ← fresh w
        emit (.cast op v (some x))
        emit (main (.var v)) : Lowering Unit).run s₁ = .ok ((), s') →
      s.Lowers ⟨pos, .cast result cop source value target⟩ s' := by
    intro w op main hmain hphi h
    obtain ⟨_, _, ⟨⟩, h⟩ := run_bind_eq_ok.1 h
    obtain ⟨_, _, ⟨⟩, ⟨⟩⟩ := run_bind_eq_ok.1 h
    have hadding : s₁.Adds (s₁.adding w (.cast op · (some x))) _ := .adding (.cast (Int.le_refl _))
    refine lowers_emit (haux.trans hadding) (hmain _ _ (hx.mono (subset_append_left _ _)) (.inr ⟨_, rfl, ?_⟩)) (hphi _) rfl rfl
    exact mem_append_right _ mem_cons_self
  dsimp only at h
  split at h
  · next htarget =>
    subst htarget
    rw [run_ite_obstruct_eq_ok, not_not] at h
    obtain ⟨rfl, h⟩ := h
    split at h
    · cases h
      exact lowers_emit haux (.toBool hx (.inl rfl)) rfl rfl rfl
    · exact hconverted _ _ (fun x' => .binop .and _ (some x') (some (.const 1 Width.w8)))
        (fun _ _ hx hx' => .toBool hx hx') (fun _ => rfl) h
  · next htarget =>
    split at h
    · next hsource =>
      obtain ⟨rfl, rfl⟩ := hsource
      split at h
      · cases h
        exact lowers_emit haux (.ofSignedBool htarget hx (.inl rfl)) rfl rfl rfl
      · exact hconverted _ _ (fun x' => .binop .sub _ (some (.const 0 _)) (some x'))
          (fun _ _ hx hx' => .ofSignedBool htarget hx hx') (fun _ => rfl) h
    · split at h
      · next hsource =>
        cases h
        obtain ⟨rfl, -⟩ := hsource
        exact lowers_emit haux (.ofBool htarget hx) rfl rfl rfl
      · cases (run_ite_obstruct_eq_ok.1 h).2
        exact lowers_emit haux (.cast htarget hx) rfl rfl rfl

theorem lowers_lowerGep (h : (lowerGep pos result element base indices).run s = .ok ((), s')) :
    s.Lowers ⟨pos, .gep result element base indices⟩ s' := by
  obtain ⟨offset, terms, s₁, hparts, h⟩ := exists_of_lowerGep h
  obtain ⟨aux, haux⟩ := adding_addressParts _ _ _ s _ s₁ hparts
  rcases h with ⟨name, ref, folded, s₂, rfl, href, hfold, rfl⟩ | ⟨x, y, z, s₂, s₃, hbase, hx, htotal, rfl⟩
  · obtain ⟨aux', haux'⟩ := adding_foldRef _ _ _ s₁ _ s₂ hfold
    have hname : name ∈ s.frame := haux.frame_eq ▸ Scope.mem_frame href
    have hboth := haux.trans haux'
    have hslots : s.slots <+: s₂.slots := by rw [hboth.eq]
    exact lowers_silent hboth hslots hname (if_pos hname) (Option.some_ne_none _) rfl
  · obtain ⟨aux', haux'⟩ := adding_operand _ _ _ s₁ _ s₂ hx
    obtain ⟨aux'', haux''⟩ := adding_totalParts _ _ _ s₂ _ s₃ htotal
    have hall := haux.trans (haux'.trans haux'')
    have hname : ∀ name, base = .localName name → name ∉ s.frame := fun name hname =>
      haux.frame_eq ▸ Scope.lookup_eq_none.1 (hbase name hname)
    have hframed : framed? s.frame (.gep result element base indices) = none := by
      cases base with
      | localName name => exact if_neg (hname name rfl)
      | const c | globalName name => rfl
    rw [show (s₃.values.lookup result).getD ⟨0, .none⟩ = s.dictionary.result result by rw [hall.emits.values]; rfl]
    exact lowers_emit hall (.gep hname) rfl hframed rfl

theorem lowers_lowerCall (h : (lowerCall pos result callee args).run s = .ok ((), s')) :
    s.Lowers ⟨pos, .call result type callee args⟩ s' := by
  unfold lowerCall at h
  dsimp only at h
  split at h
  · split at h
    · next hignored =>
      cases h
      exact ⟨rfl, Int.le_refl _, prefix_rfl, ⟨[], rfl, rfl⟩, fun _ => .refl s, (append_nil _).symm, [],
        (append_nil _).symm, .silent hignored (forall_mem_nil _)⟩
    · obtain ⟨_, _, ⟨⟩, _⟩ := run_bind_eq_ok.1 h
  · next hcallee =>
    obtain ⟨args', s₁, hargs, h⟩ := run_bind_eq_ok.1 h
    obtain ⟨aux, haux, hmeans⟩ := exists_forall₂_means hargs
    obtain ⟨_, _, ⟨⟩, ⟨⟩⟩ := run_bind_eq_ok.1 h
    rw [haux.emits.values]
    exact lowers_emit haux (.call (Bool.eq_false_iff.2 hcallee) hmeans) rfl rfl rfl

end

/-- Lowering an instruction adds its code, and what it declares is known from then on. -/
theorem lowers_lowerInstr (h : (lowerInstr i).run s = .ok ((), s')) : s.Lowers i s' := by
  obtain ⟨pos, action⟩ := i
  cases action with
  | alloca result type count =>
    obtain ⟨w, _, hw, h⟩ := run_bind_eq_ok.1 h
    obtain ⟨-, rfl⟩ := run_widthOf_eq_ok.1 hw
    cases (run_ite_obstruct_eq_ok.1 h).2
    exact lowers_silent (.refl _) (prefix_append _ _) trivial rfl (Option.some_ne_none _) rfl
  | load result type pointer =>
    obtain ⟨w, _, hwidth, h⟩ := run_bind_eq_ok.1 h
    obtain ⟨hw, rfl⟩ := run_widthOf_eq_ok.1 hwidth
    obtain ⟨ref, _, href, h⟩ := run_bind_eq_ok.1 h
    obtain ⟨rfl, hpoints⟩ := points_of_address href
    obtain ⟨_, _, ⟨⟩, h⟩ := run_bind_eq_ok.1 h
    obtain ⟨hsame, h⟩ := run_ite_obstruct_eq_ok.1 h
    cases h
    exact lowers_emit (.refl _) (.load (by rw [hw, ← not_not.1 hsame]; rfl) hpoints) rfl rfl rfl
  | store type value pointer =>
    obtain ⟨x, s₁, hx, h⟩ := run_bind_eq_ok.1 h
    obtain ⟨aux, haux, hmeans⟩ := exists_means hx
    obtain ⟨ref, _, href, h⟩ := run_bind_eq_ok.1 h
    obtain ⟨rfl, hpoints⟩ := points_of_address href
    cases h
    rw [haux.dictionary_eq, haux.frame_eq] at hpoints
    exact lowers_emit haux (.store hmeans hpoints) rfl rfl rfl
  | binop result op type x y => exact lowers_lowerBinop h
  | icmp result predicate type x y => exact lowers_lowerIcmp h
  | cast result op source value target => exact lowers_lowerCast h
  | gep result element base indices => exact lowers_lowerGep h
  | call result type callee args => exact lowers_lowerCall h
  | phi result type incoming =>
    obtain ⟨_, _, ⟨⟩, h⟩ := run_bind_eq_ok.1 h
    cases h
    exact ⟨rfl, Int.le_refl _, prefix_rfl, ⟨[], rfl, rfl⟩, fun _ => ⟨rfl, Int.le_refl _, rfl, rfl⟩, rfl, _, rfl, .phi⟩
  | br target =>
    obtain ⟨id, _, hblock, h⟩ := run_bind_eq_ok.1 h
    obtain ⟨hid, rfl⟩ := run_blockOf_eq_ok.1 hblock
    cases h
    exact lowers_emit (.refl _) (.br hid) rfl rfl rfl
  | condBr condition t e =>
    obtain ⟨x, s₁, hx, h⟩ := run_bind_eq_ok.1 h
    obtain ⟨aux, haux, hmeans⟩ := exists_means hx
    obtain ⟨id, _, hthen, h⟩ := run_bind_eq_ok.1 h
    obtain ⟨hid, rfl⟩ := run_blockOf_eq_ok.1 hthen
    obtain ⟨id', _, helse, h⟩ := run_bind_eq_ok.1 h
    obtain ⟨hid', rfl⟩ := run_blockOf_eq_ok.1 helse
    cases h
    have hlabels : s₁.labels = s.labels := congrArg Dictionary.labels haux.dictionary_eq
    rw [hlabels] at hid hid'
    exact lowers_emit haux (.condBr hmeans hid hid') rfl rfl rfl
  | ret v =>
    cases v with
    | none =>
      cases h
      exact lowers_emit (.refl _) .retNone rfl rfl rfl
    | some v =>
      obtain ⟨x, s₁, hx, h⟩ := run_bind_eq_ok.1 h
      obtain ⟨aux, haux, hmeans⟩ := exists_means hx
      cases h
      exact lowers_emit haux (.ret hmeans) rfl rfl rfl

/-! ## Results and names -/

namespace Dictionary

variable {j : IR.Instr} {u : IR.Var}

theorem Counterpart.named (h : D.Counterpart frame aux a main) (ha : a.Named) : main.Named := by
  cases h with
  | binop => exact ha
  | icmp hcond => exact mem_of_find?_eq_some hcond
  | toBool | ofSignedBool | ofBool | gep =>
    show _ ∈ BinOp.all
    decide
  | _ => exact trivial

theorem Yields.named (h : D.Yields n frame a code) (ha : a.Named) : ∀ j ∈ code, j.Named := by
  cases h with
  | silent _ haux => exact fun j hj => (haux j hj).named
  | phi => exact forall_mem_singleton.2 trivial
  | counterpart haux hmain =>
    exact forall_mem_append.2 ⟨fun j hj => (haux j hj).named, forall_mem_singleton.2 (hmain.named ha)⟩

theorem Counterpart.dest (h : D.Counterpart frame aux a main) (hu : main.dest? = some u) :
    ∃ name, u = D.result name := by
  cases h with
  | @call result callee type args args' =>
    have hu : (if result = "" then none else D.values.lookup result) = some u := hu
    split at hu
    · cases hu
    · exact ⟨result, by rw [Dictionary.result, hu, Option.getD_some]⟩
  | store | br | condBr | retNone | ret => cases hu
  | _ => exact ⟨_, (Option.some.inj hu).symm⟩

theorem Yields.dest (h : D.Yields n frame a code) (hj : j ∈ code) (hu : j.dest? = some u) :
    n ≤ u.id ∨ ∃ name, u = D.result name := by
  cases h with
  | silent _ haux => exact .inl ((haux j hj).le_id hu)
  | phi => exact .inr ⟨_, (Option.some.inj (mem_singleton.1 hj ▸ hu)).symm⟩
  | counterpart haux hmain =>
    rcases mem_append.1 hj with hj | hj
    · exact .inl ((haux j hj).le_id hu)
    · exact .inr (hmain.dest (mem_singleton.1 hj ▸ hu))

end Dictionary

end RegisterCompiler.Llvm
