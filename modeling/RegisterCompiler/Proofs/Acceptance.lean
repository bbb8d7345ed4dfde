import RegisterCompiler.Proofs.Rereading

/-!
# Lines that are accepted

Many lines are read as one instruction. Its mnemonic may be spelled in more ways than one (`Instr.Spelled`), and so may
its numbers and registers, with blanks around them; but whatever is read could have been written.
-/

namespace RegisterCompiler

open Success List

theorem Reg.num_lt_of_ofName? {s : String} {r : Reg} (h : Reg.ofName? s = some r) : r.num < 18 := by
  unfold ofName? at h
  split at h
  · cases h
    decide
  split at h
  · cases h
    decide
  split at h
  · split at h
    · split at h
      · next n _ hn =>
        cases h
        have hlow : 0 ≤ n.toInt := Int64.le_iff_toInt_le.1 hn.1
        have hhigh : n.toInt < 16 := Int64.lt_iff_toInt_lt.1 hn.2
        rw [UInt8.lt_iff_toNat_lt]
        have hnat : (n.toUInt64.toNat : Int) = n.toInt := by
          rw [← Int64.toInt_toBitVec, BitVec.toInt_eq_toNat_of_msb]
          · rfl
          · rw [BitVec.msb_eq_toInt, Int64.toInt_toBitVec]
            simpa using hlow
        show n.toUInt64.toNat % 256 < 18
        omega
      · cases h
    · cases h
  · cases h

theorem BinOp.of_ofName? {s : String} {op : BinOp} (h : BinOp.ofName? s = some op) : op ∈ BinOp.all ∧ op.name = s := by
  refine ⟨mem_of_find?_eq_some h, ?_⟩
  have := find?_some h
  rw [BinOp.name, beq_iff_eq.1 this, Option.getD_some]

theorem Cond.of_ofName? {s : String} {c : Cond} (h : Cond.ofName? s = some c) : c ∈ Cond.all ∧ c.name = s := by
  refine ⟨mem_of_find?_eq_some h, ?_⟩
  have := find?_some h
  rw [Cond.name, beq_iff_eq.1 this, Option.getD_some]

namespace Asm

open Text (trimChars isBlank)

theorem Spells.isValid {name : String} {w : Width} {m : List Char} (h : Spells name w m) : w.isValid := by
  obtain ⟨_, _, -, -, -, -, hw⟩ := h
  exact hw

/-! ## Operands -/

theorem num_lt_of_readReg {cs : List Char} {r : Reg} (h : readReg cs = .ok r) : r.num < 18 := by
  unfold readReg at h
  split at h
  · next heq =>
    cases h
    exact Reg.num_lt_of_ofName? heq
  · cases h

theorem regs_lt_of_addComponent {a a' : Addr} {cs : List Char} (h : a.addComponent cs = .ok a')
    (ha : ∀ r ∈ a.regs, r.num < 18) : ∀ r ∈ a'.regs, r.num < 18 := by
  have hbase := ha a.base mem_cons_self
  unfold Addr.addComponent at h
  split at h
  · obtain ⟨v, -, h⟩ := bind_eq_ok.1 h
    cases h
    exact ha
  · split at h
    · obtain ⟨r, hr, h⟩ := bind_eq_ok.1 h
      obtain ⟨scale, -, h⟩ := bind_eq_ok.1 h
      cases h
      exact forall_mem_cons.2 ⟨hbase, forall_mem_singleton.2 (num_lt_of_readReg hr)⟩
    · cases h

theorem regs_lt_of_readAddr {a : Addr} {cs : List Char} (h : readAddr cs = .ok a) : ∀ r ∈ a.regs, r.num < 18 := by
  have hfold : ∀ (components : List (List Char)) (b : Addr), components.foldlM Addr.addComponent b = .ok a →
      (∀ r ∈ b.regs, r.num < 18) → ∀ r ∈ a.regs, r.num < 18 := by
    intro components
    induction components with
    | nil =>
      rintro b ⟨⟩ hb
      exact hb
    | cons u components ih =>
      intro b h hb
      rw [foldlM_cons] at h
      obtain ⟨b', hb', h⟩ := bind_eq_ok.1 h
      exact ih b' h (regs_lt_of_addComponent hb' hb)
  unfold readAddr at h
  split at h
  · cases h
  · split at h
    · cases h
    · obtain ⟨base, hbase, h⟩ := bind_eq_ok.1 h
      exact hfold _ _ h (forall_mem_singleton.2 (num_lt_of_readReg hbase))

namespace OperandReader

variable {α β γ : Type} {os left : List (List Char)}

theorem exists_of_next {f : List Char → Except LineError α} {a : α}
    (h : (do liftM (f (← next)) : OperandReader α).run os = .ok (a, left)) : ∃ u, os = u :: left ∧ f u = .ok a := by
  obtain ⟨u, mid, hnext, h⟩ := run_bind_eq_ok.1 h
  cases os with
  | nil => cases hnext
  | cons u us =>
    cases hnext
    obtain ⟨a', ha, h⟩ := bind_eq_ok.1 h
    cases h
    exact ⟨_, rfl, ha⟩

theorem exists_of_reg {r : Reg} (h : reg.run os = .ok (r, left)) : r.num < 18 ∧ ∃ u, os = u :: left := by
  obtain ⟨u, hos, hread⟩ := exists_of_next h
  exact ⟨num_lt_of_readReg hread, u, hos⟩

theorem regs_lt_of_addr {a : Addr} (h : addr.run os = .ok (a, left)) : ∀ r ∈ a.regs, r.num < 18 := by
  obtain ⟨u, -, hread⟩ := exists_of_next h
  exact regs_lt_of_readAddr hread

theorem eq_of_label {l : Label} (h : label.run os = .ok (l, left)) : os = l.toList :: left := by
  cases os with
  | nil => cases h
  | cons u us =>
    cases h
    rw [String.toList_ofList]

theorem exists_of_map {x : OperandReader α} {f : α → β} {b : β} (h : (do return f (← x)).run os = .ok (b, left)) :
    ∃ a, x.run os = .ok (a, left) ∧ b = f a := by
  obtain ⟨a, mid, hx, ⟨⟩⟩ := run_bind_eq_ok.1 h
  exact ⟨a, hx, rfl⟩

theorem exists_of_map₂ {x : OperandReader α} {y : OperandReader β} {f : α → β → γ} {c : γ}
    (h : (do return f (← x) (← y)).run os = .ok (c, left)) :
    ∃ a b mid, x.run os = .ok (a, mid) ∧ y.run mid = .ok (b, left) ∧ c = f a b := by
  obtain ⟨a, mid, hx, h⟩ := run_bind_eq_ok.1 h
  obtain ⟨b, hy, rfl⟩ := exists_of_map h
  exact ⟨a, b, mid, hx, hy, rfl⟩

theorem exists_of_binary {ofReg : Reg → Reg → Reg → Instr} {ofImm : Reg → Reg → Int64 → Instr} {i : Instr}
    (h : (binary ofReg ofImm).run os = .ok (i, left)) : ∃ d x : Reg, d.num < 18 ∧ x.num < 18 ∧
      ((∃ y : Reg, y.num < 18 ∧ i = ofReg d x y) ∨ ∃ v, i = ofImm d x v) := by
  obtain ⟨d, os₁, hd, h⟩ := run_bind_eq_ok.1 h
  obtain ⟨x, os₂, hx, h⟩ := run_bind_eq_ok.1 h
  obtain ⟨atImm, os₃, -, h⟩ := run_bind_eq_ok.1 h
  refine ⟨d, x, (exists_of_reg hd).1, (exists_of_reg hx).1, ?_⟩
  split at h
  · obtain ⟨v, -, rfl⟩ := exists_of_map h
    exact .inr ⟨v, rfl⟩
  · obtain ⟨y, hy, rfl⟩ := exists_of_map h
    exact .inl ⟨y, (exists_of_reg hy).1, rfl⟩

end OperandReader

/-! ## Mnemonics -/

section

variable {m u v bits : List Char} {name : String} {w : Width} {i : Instr} {r : OperandReader Instr}
  {os left : List (List Char)}

/-- What is known of an instruction that was read from the mnemonic `m` and the operands `os`, up to the operands `left`. -/
structure Instr.Taken (i : Instr) (m : List Char) (os left : List (List Char)) : Prop where
  standard : i.Standard
  width : ∀ w ∈ i.width?, w.isValid
  spelled : i.Spelled m
  target : ∀ l ∈ i.target?, ∃ us, os = us ++ l.toList :: left ∧ i.operands.length = us.length + 1
  isSilent : i.isSilent = false

theorem spelled_bare (hname : String.ofList ((splitAt '.' m).headD []) = name) :
    m = name.toList ∨ ∃ rest, m = name.toList ++ '.' :: rest := by
  by_cases hdot : '.' ∈ m
  · obtain ⟨before, after, rfl, hbefore⟩ := eq_append_cons_of_mem hdot
    rw [splitAt_append hbefore, headD_cons] at hname
    rw [← hname, String.toList_ofList]
    exact .inr ⟨after, rfl⟩
  · rw [splitAt_of_notMem hdot, headD_cons] at hname
    rw [← hname, String.toList_ofList]
    exact .inl rfl

theorem spells_of_readWidth (name : String) (hread : readWidth bits = .ok w) (hdot : '.' ∉ bits) :
    Spells name w (name.toList ++ '.' :: bits) := by
  unfold readWidth at hread
  split at hread
  · cases hread
  · next n hn =>
    dsimp only at hread
    split at hread
    · next hvalid =>
      cases hread
      exact ⟨bits, n, rfl, hdot, hn, rfl, hvalid⟩
    · cases hread

theorem spells_of_splitAt (hsplit : splitAt '.' m = [u, bits]) (hname : String.ofList ((splitAt '.' m).headD []) = name)
    (hread : readWidth bits = .ok w) : Spells name w m := by
  rw [hsplit, headD_cons] at hname
  obtain ⟨-, rest, rfl, hrest⟩ := exists_of_splitAt_cons hsplit
  obtain ⟨rfl, hdot⟩ := eq_of_splitAt_singleton hrest
  rw [← String.toList_ofList (l := u), hname]
  exact spells_of_readWidth name hread hdot

theorem spells_of_cmp {c : Cond} (hsplit : splitAt '.' m = [u, v, bits])
    (hname : String.ofList ((splitAt '.' m).headD []) = "cmp") (hc : String.ofList v = c.name)
    (hread : readWidth bits = .ok w) : Spells ("cmp." ++ c.name) w m := by
  rw [hsplit, headD_cons] at hname
  obtain ⟨-, rest, rfl, hrest⟩ := exists_of_splitAt_cons hsplit
  obtain ⟨-, bits', rfl, hbits⟩ := exists_of_splitAt_cons hrest
  obtain ⟨rfl, hdot⟩ := eq_of_splitAt_singleton hbits
  have hu : u = "cmp".toList := by rw [← hname, String.toList_ofList]
  have hspells := spells_of_readWidth ("cmp." ++ c.name) hread hdot
  rw [hu]
  rw [← hc] at hspells ⊢
  simpa using hspells

theorem Instr.taken_binary {ofReg : Reg → Reg → Reg → Instr} {ofImm : Reg → Reg → Int64 → Instr}
    (hrun : (OperandReader.binary ofReg ofImm).run os = .ok (i, left))
    (hreg : ∀ d x y : Reg, d.num < 18 → x.num < 18 → y.num < 18 → (ofReg d x y).Taken m os left)
    (himm : ∀ (d x : Reg) v, d.num < 18 → x.num < 18 → (ofImm d x v).Taken m os left) : i.Taken m os left := by
  obtain ⟨d, x, hd, hx, ⟨y, hy, rfl⟩ | ⟨v, rfl⟩⟩ := OperandReader.exists_of_binary hrun
  · exact hreg d x y hd hx hy
  · exact himm d x v hd hx

open OperandReader in
/-- Whatever is read from operands after a mnemonic could have been written. -/
theorem taken_of_readMnemonic (h : readMnemonic m = .ok r) (hrun : r.run os = .ok (i, left)) : i.Taken m os left := by
  have hnone {α : Type} {p : α → Prop} : ∀ a ∈ (none : Option α), p a := fun a ha => absurd ha (Option.not_mem_none a)
  unfold readMnemonic at h
  dsimp only at h
  split at h
  -- The mnemonics up to `h_9` have no width, and what follows a dot in them is not looked at.
  case h_1 hname =>
    cases h
    obtain ⟨r, a, mid, hr, ha, rfl⟩ := exists_of_map₂ hrun
    refine ⟨⟨?_, hnone, hnone⟩, hnone, spelled_bare hname, hnone, rfl⟩
    exact forall_mem_cons.2 ⟨(exists_of_reg hr).1, regs_lt_of_addr ha⟩
  case h_2 hname | h_3 hname =>
    cases h
    obtain ⟨r, hr, rfl⟩ := exists_of_map hrun
    exact ⟨⟨forall_mem_singleton.2 (exists_of_reg hr).1, hnone, hnone⟩, hnone, spelled_bare hname, hnone, rfl⟩
  case h_4 hname | h_7 hname =>
    cases h
    obtain ⟨l, hl, rfl⟩ := exists_of_map hrun
    refine ⟨⟨forall_mem_nil _, hnone, hnone⟩, hnone, spelled_bare hname, ?_, rfl⟩
    rintro _ ⟨⟩
    exact ⟨[], eq_of_label hl, rfl⟩
  case h_5 hname | h_6 hname =>
    cases h
    obtain ⟨r, l, mid, hr, hl, rfl⟩ := exists_of_map₂ hrun
    obtain ⟨hlt, u, rfl⟩ := exists_of_reg hr
    refine ⟨⟨forall_mem_singleton.2 hlt, hnone, hnone⟩, hnone, spelled_bare hname, ?_, rfl⟩
    rintro _ ⟨⟩
    exact ⟨[u], congrArg (u :: ·) (eq_of_label hl), rfl⟩
  case h_8 hname | h_9 hname =>
    cases h
    cases hrun
    exact ⟨⟨forall_mem_nil _, hnone, hnone⟩, hnone, spelled_bare hname, hnone, rfl⟩
  case h_10 u v bits hname hsplit =>
    split at h
    · cases h
    · next c hc =>
      obtain ⟨w, hw, rfl⟩ := map_eq_ok.1 h
      obtain ⟨hmem, hcond⟩ := Cond.of_ofName? hc
      have hspells := spells_of_cmp hsplit hname hcond.symm hw
      have hcond : ∀ c' ∈ some c, c' ∈ Cond.all := fun _ heq => Option.some.inj heq ▸ hmem
      have hvalid : ∀ w' ∈ some w, w'.isValid := fun _ heq => Option.some.inj heq ▸ hspells.isValid
      refine Instr.taken_binary hrun (fun d x y hd hx hy => ?_) fun d x v hd hx => ?_
      · exact ⟨⟨by simp [Instr.regs, hd, hx, hy], hnone, hcond⟩, hvalid, ⟨_, rfl, hspells⟩, hnone, rfl⟩
      · exact ⟨⟨by simp [Instr.regs, hd, hx], hnone, hcond⟩, hvalid, ⟨_, rfl, hspells⟩, hnone, rfl⟩
  case h_11 | h_13 => cases h
  -- All others are a name and a width, the name being looked at last.
  case h_12 u bits hsplit _ _ _ _ _ _ _ _ _ _ =>
    obtain ⟨w, hw, h⟩ := bind_eq_ok.1 h
    have hspells : ∀ name, String.ofList ((splitAt '.' m).headD []) = name → Spells name w m := fun name hname =>
      spells_of_splitAt hsplit hname hw
    have hvalid : ∀ w' ∈ some w, w'.isValid := fun _ heq => Option.some.inj heq ▸ (hspells _ rfl).isValid
    split at h
    case h_1 hname | h_3 hname | h_4 hname =>
      cases h
      obtain ⟨d, s, mid, hd, hs, rfl⟩ := exists_of_map₂ hrun
      refine ⟨⟨?_, hnone, hnone⟩, hvalid, ⟨_, rfl, hspells _ hname⟩, hnone, rfl⟩
      exact forall_mem_cons.2 ⟨(exists_of_reg hd).1, forall_mem_singleton.2 (exists_of_reg hs).1⟩
    case h_2 hname =>
      cases h
      obtain ⟨d, v, mid, hd, hv, rfl⟩ := exists_of_map₂ hrun
      refine ⟨⟨?_, hnone, hnone⟩, hvalid, ⟨_, rfl, hspells _ hname⟩, hnone, rfl⟩
      exact forall_mem_singleton.2 (exists_of_reg hd).1
    case h_5 hname | h_6 hname =>
      cases h
      obtain ⟨r, a, mid, hr, ha, rfl⟩ := exists_of_map₂ hrun
      refine ⟨⟨?_, hnone, hnone⟩, hvalid, ⟨_, rfl, hspells _ hname⟩, hnone, rfl⟩
      exact forall_mem_cons.2 ⟨(exists_of_reg hr).1, regs_lt_of_addr ha⟩
    case h_7 =>
      split at h
      · next op hop =>
        cases h
        obtain ⟨hmem, hname⟩ := BinOp.of_ofName? hop
        have hspells := hspells _ hname.symm
        have hop : ∀ op' ∈ some op, op' ∈ BinOp.all := fun _ heq => Option.some.inj heq ▸ hmem
        refine Instr.taken_binary hrun (fun d x y hd hx hy => ?_) fun d x v hd hx => ?_
        · exact ⟨⟨by simp [Instr.regs, hd, hx, hy], hop, hnone⟩, hvalid, ⟨_, rfl, hspells⟩, hnone, rfl⟩
        · exact ⟨⟨by simp [Instr.regs, hd, hx], hop, hnone⟩, hvalid, ⟨_, rfl, hspells⟩, hnone, rfl⟩
      · cases h

theorem taken_of_readLine {cs : List Char} (h : readLine cs = .ok i) :
    i.Taken (splitMnemonic cs).1 (splitOperands (splitMnemonic cs).2) [] := by
  obtain ⟨r, hr, hrun⟩ := readLine_eq_ok.1 h
  exact taken_of_readMnemonic hr hrun

/-- The mnemonics with which a line is read as an instruction are the spellings of the one that is written for it. -/
theorem readLine_eq_ok_iff (cs : List Char) (i : Instr) : readLine cs = .ok i ↔
    i.Spelled (splitMnemonic cs).1 ∧ readLine (i.mnemonic.toList ++ '\t' :: (splitMnemonic cs).2) = .ok i := by
  -- The spellings of a mnemonic all lead to the same reader of operands.
  have hsplit : ∀ {m os left}, i.Taken m os left →
      splitMnemonic (i.mnemonic.toList ++ '\t' :: (splitMnemonic cs).2) = (i.mnemonic.toList, (splitMnemonic cs).2) :=
    fun htaken => splitMnemonic_eq (Instr.isMnemonic_mnemonic htaken.standard htaken.isSilent) _
  constructor
  · intro h
    have htaken := taken_of_readLine h
    obtain ⟨r, hr, hrun⟩ := readLine_eq_ok.1 h
    obtain ⟨r', hreader, -⟩ := Instr.exists_reader htaken.standard htaken.isSilent
    obtain rfl : r' = r := Except.ok.inj ((hreader _ htaken.spelled).symm.trans hr)
    refine ⟨htaken.spelled, readLine_eq_ok.2 ⟨r', ?_⟩⟩
    rw [hsplit htaken]
    exact ⟨hreader _ (Instr.spelled_mnemonic htaken.width), hrun⟩
  · rintro ⟨hspelled, h⟩
    have htaken := taken_of_readLine h
    obtain ⟨r, hr, hrun⟩ := readLine_eq_ok.1 h
    rw [hsplit htaken] at hr hrun
    obtain ⟨r', hreader, -⟩ := Instr.exists_reader htaken.standard htaken.isSilent
    obtain rfl : r' = r := Except.ok.inj ((hreader _ (Instr.spelled_mnemonic htaken.width)).symm.trans hr)
    exact readLine_eq_ok.2 ⟨r', hreader _ hspelled, hrun⟩

/-- A width is taken for another one that it ends like, and one that is not needed is not looked at. -/
theorem readLine_misspelled :
    readLine "mov.320\tr1, r2".toList = .ok (.mov .w64 ⟨1⟩ ⟨2⟩) ∧ (Instr.mov .w64 ⟨1⟩ ⟨2⟩).mnemonic = "mov.64" ∧
      readLine "ret.64".toList = .ok .ret ∧ Instr.ret.mnemonic = "ret" := by
  decide +kernel

/-! ## Reading what was read -/

theorem mem_splitOperands {cs : List Char} (h : u ∈ splitOperands cs) : ∃ piece ∈ splitOuter 0 cs, trimChars piece = u := by
  unfold splitOperands at h
  split at h
  · cases h
  · exact mem_map.1 h

theorem splitOperands_ne (cs : List Char) : splitOperands cs ≠ [[]] := by
  unfold splitOperands
  split
  · simp
  · next hne => exact hne

theorem mem_of_mem_splitMnemonic {cs : List Char} {c : Char} (h : c ∈ (splitMnemonic cs).2) : c ∈ cs := by
  have htail : ∀ d ∈ (cut '\t' cs).2.getD [], d ∈ cs := fun d hd => by
    cases htab : (cut '\t' cs).2 with
    | none =>
      rw [htab] at hd
      cases hd
    | some tail => exact mem_of_cut htab (by rwa [htab] at hd)
  unfold splitMnemonic at h
  dsimp only at h
  split at h
  · next first heq =>
    rcases mem_append.1 h with h | h
    · exact (mem_of_mem_cut (mem_of_cut (congrArg Prod.snd heq) h)).1
    · exact htail c h
  · exact htail c h

theorem isOperand_of_mem {cs : List Char} (hcs : ∀ c ∈ cs, c ≠ ';' ∧ c ≠ '\n') (h : u ∈ splitOperands cs) (hne : u ≠ []) :
    IsOperand u := by
  obtain ⟨piece, hpiece, rfl⟩ := mem_splitOperands h
  have hwhole : splitOuter 0 piece = [piece] := by
    obtain ⟨first, others, hcons⟩ := exists_cons_of_ne_nil (splitOuter_ne_nil 0 cs)
    rw [hcons] at hpiece
    rcases mem_cons.1 hpiece with rfl | hpiece
    · exact (splitOuter_eq_cons hcons).1
    · exact (splitOuter_eq_cons hcons).2 _ hpiece
  exact ⟨hne, splitOuter_trimChars hwhole, Text.first_trimChars, Text.last_trimChars, fun c hc =>
    hcs c ((sublist_of_mem_splitOuter hpiece).mem (Text.mem_of_mem_trimChars hc))⟩

/-- A conditional jump to the empty label ends with a comma, behind which the label is found. -/
theorem reads_shown_empty {r : Reg} (h : r.num < 18) : Line.Reads ⟨(Instr.jumpZero r "").shown, some (.jumpZero r "")⟩ ∧
    Line.Reads ⟨(Instr.jumpNonzero r "").shown, some (.jumpNonzero r "")⟩ := by
  have hall : ∀ n < 18, ∀ i ∈ [Instr.jumpZero ⟨UInt8.ofNat n⟩ "", .jumpNonzero ⟨UInt8.ofNat n⟩ ""],
      '\n' ∉ i.shown.toList ∧ readText i.shown.toList = .ok (some i) := by
    decide +kernel
  have hr := hall r.num.toNat (UInt8.lt_iff_toNat_lt.1 h)
  rw [UInt8.ofNat_toNat] at hr
  obtain ⟨hzero, hnonzero⟩ := forall_mem_cons.1 hr
  obtain ⟨hunbroken, hread⟩ := forall_mem_singleton.1 hnonzero
  exact ⟨⟨hzero.1, hzero.2⟩, hunbroken, hread⟩

theorem reads_shown_of_readLine {cs : List Char} (hcs : ∀ c ∈ cs, c ≠ ';' ∧ c ≠ '\n') (h : readLine cs = .ok i) :
    Line.Reads ⟨i.shown, some i⟩ := by
  have htaken := taken_of_readLine h
  by_cases hops : i.operands = []
  · cases i with
    | ret | halt => exact ⟨by decide, rfl⟩
    | label | comment => cases htaken.isSilent
    | _ => exact absurd hops (by simp [Instr.operands])
  -- Only a label after another operand may be empty.
  by_cases hempty : i.target? = some ""
  · obtain ⟨us, hos, hlength⟩ := htaken.target _ hempty
    have hlong : 2 ≤ i.operands.length := by
      cases us with
      | nil => exact absurd hos (splitOperands_ne _)
      | cons u us => simp [hlength]
    cases i with
    | jumpZero r l =>
      cases hempty
      exact (reads_shown_empty (htaken.standard.regs r mem_cons_self)).1
    | jumpNonzero r l =>
      cases hempty
      exact (reads_shown_empty (htaken.standard.regs r mem_cons_self)).2
    | jump | call => exact absurd hlong (by simp [Instr.operands])
    | _ => cases hempty
  · refine Instr.reads_shown htaken.standard htaken.width (fun l hl => ?_) hops
    obtain ⟨us, hos, -⟩ := htaken.target l hl
    refine isOperand_of_mem (fun c hc => hcs c (mem_of_mem_splitMnemonic hc)) (hos ▸ mem_append_right us mem_cons_self) ?_
    rintro hnil
    exact hempty (by rw [Option.mem_def.1 hl, String.toList_eq_nil_iff.1 hnil])

theorem readText_cases {cs : List Char} (hcs : '\n' ∉ cs) (h : readText cs = .ok (some i)) :
    (∃ l, i = .label l ∧ IsLabel l.toList) ∨ ∃ cs', (∀ c ∈ cs', c ≠ ';' ∧ c ≠ '\n') ∧ readLine cs' = .ok i := by
  have hall : ∀ c ∈ trimChars (cut ';' cs).1, c ≠ ';' ∧ c ≠ '\n' := fun c hc => by
    obtain ⟨hmem, hsemicolon⟩ := mem_of_mem_cut (Text.mem_of_mem_trimChars hc)
    exact ⟨hsemicolon, fun heq => hcs (heq ▸ hmem)⟩
  unfold readText at h
  dsimp only at h
  split at h
  · cases h
  split at h
  · next hlabel =>
    cases h
    refine .inl ⟨_, rfl, fun c hc => ?_, fun c hc => ?_⟩
    · rw [String.toList_ofList] at hc
      obtain ⟨last, hlast⟩ := dropLast_prefix (trimChars (cut ';' cs).1)
      have hfirst : c ∈ (trimChars (cut ';' cs).1).head? := by
        rw [← hlast, head?_append, Option.mem_def.1 hc]
        rfl
      exact Text.first_trimChars c hfirst
    · rw [String.toList_ofList] at hc
      -- The comment is cut off, the line has no breaks in it, and the test for a label excludes spaces and tabs.
      have hmem := (dropLast_sublist _).mem hc
      have hblank := all_eq_true.1 (Bool.and_eq_true_iff.1 hlabel).2 c hmem
      simp only [Bool.and_eq_true, bne_iff_ne] at hblank
      simp [endsLabel, hblank, hall c hmem]
  split at h
  · cases h
  · obtain ⟨j, hj, heq⟩ := map_eq_ok.1 h
    cases heq
    exact .inr ⟨_, hall, hj⟩

theorem exists_of_mem_readLines {n : Nat} {ls : List (List Char)} {code : List Instr} (h : readLines n ls = .ok code)
    (hi : i ∈ code) : ∃ cs ∈ ls, readText cs = .ok (some i) := by
  induction ls generalizing n code with
  | nil =>
    cases h
    cases hi
  | cons cs rest ih =>
    obtain ⟨-, h⟩ := ite_throw_bind_eq_ok.1 h
    obtain ⟨found, hfound, h⟩ := bind_eq_ok.1 h
    obtain ⟨others, hothers, ⟨⟩⟩ := bind_eq_ok.1 h
    rcases mem_append.1 hi with hi | hi
    · cases Option.mem_toList.1 hi
      exact ⟨cs, mem_cons_self, (readText_dropLast cs).symm.trans (mapError_eq_ok.1 hfound)⟩
    · obtain ⟨cs', hmem, hread⟩ := ih hothers hi
      exact ⟨cs', mem_cons_of_mem cs hmem, hread⟩

/-- Whatever is read from a text stands in a line of it, as a label or an instruction. -/
theorem read_cases {s : String} {code : List Instr} (h : read s = .ok code) (hi : i ∈ code) :
    (∃ l, i = .label l ∧ IsLabel l.toList) ∨ ∃ cs, (∀ c ∈ cs, c ≠ ';' ∧ c ≠ '\n') ∧ readLine cs = .ok i := by
  obtain ⟨cs, hcs, hread⟩ := exists_of_mem_readLines h hi
  exact readText_cases (notMem_of_mem_splitAt (mem_splitAt_of_mem_lines hcs)) hread

/-- A listing that was read is read again from its own lines, if none of them is too long to be looked at. -/
theorem read_shown {s : String} {code : List Instr} (h : read s = .ok code)
    (hshort : ∀ i ∈ code, i.shown.utf8ByteSize < lineLimit) :
    read (String.join (code.map (·.shown ++ "\n"))) = .ok code := by
  have hreads : ∀ i ∈ code, Line.Reads ⟨i.shown, some i⟩ := fun i hi => by
    rcases read_cases h hi with ⟨l, rfl, hl⟩ | ⟨cs, hcs, hread⟩
    · exact Instr.reads_label hl
    · exact reads_shown_of_readLine hcs hread
  have hlines := lines_join (forall_mem_map.2 fun i hi => (hreads i hi).unbroken)
  rw [map_map, map_map] at hlines
  have hlisting := readLines_eq_ok (forall_mem_map.2 hreads) (forall_mem_map.2 hshort) 1
  rw [map_map, filterMap_map] at hlisting
  rw [read]
  refine (congrArg (readLines 1) hlines).trans (hlisting.trans (congrArg Except.ok ?_))
  exact filterMap_some

/-- A text with numbers in unusual forms, a component that is given twice, and labels with brackets or nothing in them. -/
def untidy : String :=
  "  movi.+064 \tr007 , #-0\r\n" ++
  ":\n" ++
  "a[,c:: ; a label\n" ++
  "ld.320\tr1, [sp, #1,r2*3 , #+8, r3*04]\n" ++
  "jmp a[,c:\n" ++
  "jmp0 r1,\n"

def untidyCode : List Instr := [
  .movImm .w64 ⟨7⟩ 0, .label "", .label "a[,c:",
  .load .w64 ⟨1⟩ { base := .sp, index := some ⟨⟨3⟩, 4⟩, offset := 8 }, .jump "a[,c:", .jumpZero ⟨1⟩ ""]

theorem read_shown_untidy : read untidy = .ok untidyCode ∧ (∀ i ∈ untidyCode, i.shown.utf8ByteSize < lineLimit) ∧
    read (String.join (untidyCode.map (·.shown ++ "\n"))) = .ok untidyCode := by
  have hread : read untidy = .ok untidyCode := by decide +kernel
  have hshort : ∀ i ∈ untidyCode, i.shown.utf8ByteSize < lineLimit := by decide +kernel
  exact ⟨hread, hshort, read_shown hread hshort⟩

end

end Asm

end RegisterCompiler
