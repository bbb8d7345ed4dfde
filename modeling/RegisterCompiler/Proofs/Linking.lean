import RegisterCompiler.Compilation
import RegisterCompiler.Proofs.Course

/-!
# Code in the machine

A program that passes its check can be loaded, since no label stands in it twice, and every label leads to where it
stands. The code of a function is laid out block by block, with the code on the edges behind it.
-/

namespace RegisterCompiler

open List
open Asm (Instr Label)
open Machine (Image)
open Success

/-! ## Labels -/

namespace Asm.LabelTable

theorem nodup_of_define {definitions : List (String × Label)} {table result : LabelTable}
    (h : definitions.foldlM define table = .ok result) :
    (definitions.map Prod.snd).Nodup ∧ ∀ l ∈ definitions.map Prod.snd, table.get? l = none := by
  induction definitions generalizing table with
  | nil => exact ⟨.nil, nofun⟩
  | cons d rest ih =>
    rw [foldlM_cons] at h
    obtain ⟨table', hd, hrest⟩ := bind_eq_ok.1 h
    unfold define at hd
    split at hd
    · cases hd
    · next hnone =>
      cases hd
      obtain ⟨hnodup, hfresh⟩ := ih hrest
      have hother : ∀ l ∈ rest.map Prod.snd, l ≠ d.2 ∧ table.get? l = none := fun l hl => by
        have := hfresh l hl
        rw [Std.ExtTreeMap.get?_eq_getElem?, Std.ExtTreeMap.getElem?_insert] at this
        split at this
        · cases this
        · next hne => exact ⟨fun heq => hne (by simp [heq]), this⟩
      refine ⟨nodup_cons.2 ⟨fun hmem => (hother _ hmem).1 rfl, hnodup⟩, ?_⟩
      rw [map_cons]
      exact forall_mem_cons.2 ⟨hnone, fun l hl => (hother l hl).2⟩

end Asm.LabelTable

namespace Asm.Program

theorem labels_flatten (p : Program) : p.flatten.filterMap Instr.label? = p.definitions.map Prod.snd := by
  have hfunctions : ∀ fs : List Function, (fs.flatMap fun f => .label f.name :: f.code).filterMap Instr.label? =
      (fs.flatMap fun f => (f.name, f.name) :: (f.code.filterMap Instr.label?).map (f.name, ·)).map Prod.snd := by
    intro fs
    induction fs with
    | nil => rfl
    | cons f fs ih =>
      rw [flatMap_cons, flatMap_cons, filterMap_append, map_append, ih]
      simp [Instr.label?, Function.comp_def]
  rw [flatten, definitions, filterMap_append, map_append, hfunctions]
  congr 1
  unfold start
  split <;> rfl

theorem labels_nodup {p : Program} (h : p.validate = .ok ()) : (p.flatten.filterMap Instr.label?).Nodup := by
  obtain ⟨table, htable, -⟩ := bind_eq_ok.1 h
  rw [labels_flatten]
  exact (LabelTable.nodup_of_define htable).1

theorem exists_flatten_eq {p : Program} {f : Function} (hf : f ∈ p.functions) :
    ∃ before after, p.flatten = before ++ (.label f.name :: f.code) ++ after := by
  obtain ⟨fs, gs, hfs⟩ := append_of_mem hf
  refine ⟨p.start ++ fs.flatMap fun f => .label f.name :: f.code, gs.flatMap fun f => .label f.name :: f.code, ?_⟩
  rw [flatten, hfs]
  simp

end Asm.Program

namespace Machine.Image

variable {img : Image} {code : List Instr} {p : Nat} {l : Label}

/-- Every label leads to where it stands. -/
def Resolves (img : Image) : Prop := ∀ (p : Nat) l, img.code[p]? = some (.label l) → img.labels.lookup l = some p

theorem exists_collectLabels (labels : List (Label × Nat)) (hnodup : (code.filterMap Instr.label?).Nodup)
    (hfresh : ∀ l ∈ code.filterMap Instr.label?, labels.lookup l = none) (n : Nat) :
    ∃ result, collectLabels n code labels = .ok result ∧
      (∀ (k : Nat) l, code[k]? = some (.label l) → result.lookup l = some (n + k)) ∧
      ∀ l, l ∉ code.filterMap Instr.label? → result.lookup l = labels.lookup l := by
  induction code generalizing labels n with
  | nil => exact ⟨labels, rfl, nofun, fun _ _ => rfl⟩
  | cons i rest ih =>
    by_cases hi : ∃ l, i = .label l
    · obtain ⟨l, rfl⟩ := hi
      have hlabels : (Instr.label l :: rest).filterMap Instr.label? = l :: rest.filterMap Instr.label? := rfl
      rw [hlabels] at hnodup hfresh
      obtain ⟨hl, hnodup⟩ := nodup_cons.1 hnodup
      obtain ⟨hnew, hfresh⟩ := forall_mem_cons.1 hfresh
      have hskip : ∀ l', l' ≠ l → ((l, n) :: labels).lookup l' = labels.lookup l' := fun l' hne => by
        rw [lookup_cons, beq_eq_false_iff_ne.2 hne]
      obtain ⟨result, hresult, hplace, hother⟩ := ih ((l, n) :: labels) hnodup
        (fun l' hl' => (hskip l' fun heq => hl (heq ▸ hl')).trans (hfresh l' hl')) (n + 1)
      have hlookup : result.lookup l = some n := (hother l hl).trans List.lookup_cons_self
      refine ⟨result, ?_, ?_, fun l' hl' => ?_⟩
      · rw [collectLabels, hnew]
        exact hresult
      · rintro (_ | k) l' hk
        · cases hk
          exact hlookup
        · rw [hplace k l' hk]
          congr 1
          omega
      · rw [hlabels, mem_cons, not_or] at hl'
        rw [hother l' hl'.2, hskip l' hl'.1]
    · have hnone : i.label? = none := by
        cases i <;> first | rfl | exact absurd ⟨_, rfl⟩ hi
      have hlabels : (i :: rest).filterMap Instr.label? = rest.filterMap Instr.label? := by
        rw [filterMap_cons, hnone]
      rw [hlabels] at hnodup hfresh ⊢
      obtain ⟨result, hresult, hplace, hother⟩ := ih labels hnodup hfresh (n + 1)
      refine ⟨result, ?_, ?_, hother⟩
      · cases i <;> first | exact hresult | exact absurd ⟨_, rfl⟩ hi
      · rintro (_ | k) l hk
        · exact absurd ⟨l, Option.some.inj hk⟩ hi
        · rw [hplace k l hk]
          congr 1
          omega

theorem nodup_of_collectLabels {labels result : List (Label × Nat)} {n : Nat}
    (h : collectLabels n code labels = .ok result) :
    (code.filterMap Instr.label?).Nodup ∧ ∀ l ∈ code.filterMap Instr.label?, labels.lookup l = none := by
  induction code generalizing labels n with
  | nil => exact ⟨.nil, forall_mem_nil _⟩
  | cons i rest ih =>
    by_cases hi : ∃ l, i = .label l
    · obtain ⟨l, rfl⟩ := hi
      have hlabels : (Instr.label l :: rest).filterMap Instr.label? = l :: rest.filterMap Instr.label? := rfl
      rw [collectLabels] at h
      split at h
      · cases h
      · next hnew =>
        obtain ⟨hnodup, hfresh⟩ := ih h
        have hother : ∀ l' ∈ rest.filterMap Instr.label?, l' ≠ l ∧ labels.lookup l' = none := fun l' hl' => by
          have hnone := hfresh l' hl'
          rw [lookup_cons] at hnone
          split at hnone
          · cases hnone
          · next hne => exact ⟨beq_eq_false_iff_ne.1 hne, hnone⟩
        rw [hlabels]
        refine ⟨nodup_cons.2 ⟨fun hl => (hother l hl).1 rfl, hnodup⟩, ?_⟩
        exact forall_mem_cons.2 ⟨Option.not_isSome_iff_eq_none.1 hnew, fun l' hl' => (hother l' hl').2⟩
    · have hnone : i.label? = none := by
        cases i <;> first | rfl | exact absurd ⟨_, rfl⟩ hi
      rw [filterMap_cons, hnone]
      refine ih (n := n + 1) ?_
      cases i <;> first | exact h | exact absurd ⟨_, rfl⟩ hi

/-- In a listing that is loaded every label leads to where it stands. -/
theorem load_eq_ok (h : load code = .ok img) : img.code = code.toArray ∧ img.Resolves := by
  obtain ⟨labels, hlabels, ⟨⟩⟩ := bind_eq_ok.1 h
  obtain ⟨hnodup, hfresh⟩ := nodup_of_collectLabels hlabels
  obtain ⟨_, hlabels', hplace, -⟩ := exists_collectLabels [] hnodup hfresh 0
  cases hlabels.symm.trans hlabels'
  exact ⟨rfl, fun k l hk => by rw [hplace k l (by simpa using hk), Nat.zero_add]⟩

theorem exists_load_iff : (∃ img, load code = .ok img) ↔ (code.filterMap Instr.label?).Nodup := by
  constructor
  · rintro ⟨img, h⟩
    obtain ⟨labels, hlabels, -⟩ := bind_eq_ok.1 h
    exact (nodup_of_collectLabels hlabels).1
  · intro hnodup
    obtain ⟨labels, hlabels, -⟩ := exists_collectLabels [] hnodup (fun _ _ => rfl) 0
    exact ⟨_, bind_eq_ok.2 ⟨labels, hlabels, rfl⟩⟩

theorem exists_load {p : Asm.Program} (h : p.validate = .ok ()) :
    ∃ img, load p.flatten = .ok img ∧ img.code = p.flatten.toArray ∧ img.Resolves := by
  obtain ⟨img, hload⟩ := exists_load_iff.2 (Asm.Program.labels_nodup h)
  exact ⟨img, hload, load_eq_ok hload⟩

theorem codeAt_of_append {before after : List Instr} (h : img.code = (before ++ code ++ after).toArray) :
    img.CodeAt before.length code := by
  intro k i hk
  rw [h, getElem?_toArray, append_assoc, getElem?_append_right (Nat.le_add_right _ _),
    Nat.add_sub_cancel_left, getElem?_append_left (List.getElem?_eq_some_iff.1 hk).1, hk]

end Machine.Image

/-! ## The code of a function -/

namespace Emission

open IR (Block BlockId)

variable {e : Emission} {img : Image} {p : Nat} {b : Block} {edges edges' : List EdgeBlock}
  {before rest : List IR.Instr}

/-- The code of a block begins at an index, with its label. -/
def BlockAt (e : Emission) (img : Image) (id : BlockId) (p : Nat) : Prop :=
  ∃ label, e.blockLabel id = .ok label ∧ img.code[p]? = some (.label label)

def EdgesAt (img : Image) (edges : List EdgeBlock) : Prop :=
  ∀ edge ∈ edges, ∃ p, img.CodeAt p (.label edge.label :: edge.code)

/-- The code of the last instructions of a block begins at an index, and is followed by the next block. -/
def RestAt (e : Emission) (img : Image) (b : Block) (code : List IR.Instr) (p : Nat) : Prop :=
  ∃ site n em, site.block = b ∧ e.instrs site n code = .ok em ∧ img.CodeAt p em.code ∧ EdgesAt img em.edges ∧
    ∀ id, site.next = some id → e.BlockAt img id (p + em.code.length)

/-- The parts of the code of a function are in the machine. -/
structure Linked (e : Emission) (img : Image) : Prop where
  entry : ∃ p code, img.code[p]? = some (.label e.function.name) ∧ e.entryCode = .ok code ∧ img.CodeAt (p + 1) code ∧
    (e.function.blocks.head?.map Block.id = some e.function.entry → e.BlockAt img e.function.entry (p + 1 + code.length))
  block : ∀ b ∈ e.function.blocks, ∃ p, e.BlockAt img b.id p ∧ e.RestAt img b b.code (p + 1)

theorem EdgesAt.left (h : EdgesAt img (edges ++ edges')) : EdgesAt img edges :=
  fun edge hedge => h edge (mem_append_left _ hedge)

theorem EdgesAt.right (h : EdgesAt img (edges ++ edges')) : EdgesAt img edges' :=
  fun edge hedge => h edge (mem_append_right _ hedge)

theorem RestAt.cons {i : IR.Instr} {rest : List IR.Instr} (h : e.RestAt img b (i :: rest) p) :
    ∃ site n em, site.block = b ∧ e.instr site n i = .ok em ∧ img.CodeAt p em.code ∧ EdgesAt img em.edges ∧
      e.RestAt img b rest (p + em.code.length) ∧
      (rest = [] → ∀ id, site.next = some id → e.BlockAt img id (p + em.code.length)) := by
  obtain ⟨site, n, em, hsite, hcode, hat, hedges, hnext⟩ := h
  obtain ⟨here, hhere, hcode⟩ := bind_eq_ok.1 hcode
  obtain ⟨after, hafter, ⟨⟩⟩ := bind_eq_ok.1 hcode
  obtain ⟨hat, hat'⟩ := Image.codeAt_append.1 (show img.CodeAt p (here.code ++ after.code) from hat)
  have hedges : EdgesAt img (here.edges ++ after.edges) := hedges
  have hlength : (here ++ after).code.length = here.code.length + after.code.length := length_append
  refine ⟨site, n, here, hsite, hhere, hat, hedges.left, ⟨site, _, after, hsite, hafter, hat', hedges.right, ?_⟩, ?_⟩
  · intro id hid
    rw [Nat.add_assoc, ← hlength]
    exact hnext id hid
  · rintro rfl id hid
    cases hafter
    have := hnext id hid
    rwa [hlength] at this

theorem RestAt.of_append (h : e.RestAt img b (before ++ rest) p) : ∃ q, e.RestAt img b rest q := by
  induction before generalizing p with
  | nil => exact ⟨p, h⟩
  | cons i before ih =>
    obtain ⟨_, _, _, -, -, -, -, hrest, -⟩ := RestAt.cons h
    exact ih hrest

theorem Linked.exists_restAt (h : e.Linked img) (hb : b ∈ e.function.blocks) (hcode : b.code = before ++ rest) :
    ∃ p, e.RestAt img b rest p := by
  obtain ⟨p, -, hblock⟩ := h.block b hb
  rw [hcode] at hblock
  exact hblock.of_append

theorem blocksCode_at {n : Nat} {blocks : List Block} {em : Emitted} (h : e.blocksCode n blocks = .ok em)
    (hat : img.CodeAt p em.code) (hedges : EdgesAt img em.edges) :
    (∀ b ∈ blocks, ∃ p, e.BlockAt img b.id p ∧ e.RestAt img b b.code (p + 1)) ∧
      ∀ id, blocks.head?.map Block.id = some id → e.BlockAt img id p := by
  induction blocks generalizing n p em with
  | nil => exact ⟨nofun, nofun⟩
  | cons b rest ih =>
    obtain ⟨here, hhere, h⟩ := bind_eq_ok.1 h
    obtain ⟨after, hafter, ⟨⟩⟩ := bind_eq_ok.1 h
    obtain ⟨label, hlabel, hhere⟩ := bind_eq_ok.1 hhere
    obtain ⟨body, hbody, ⟨⟩⟩ := bind_eq_ok.1 hhere
    have hat : img.CodeAt p ([.label label] ++ body.code ++ after.code) := hat
    have hedges : EdgesAt img ([] ++ body.edges ++ after.edges) := hedges
    obtain ⟨hhere, hat'⟩ := Image.codeAt_append.1 hat
    obtain ⟨hfirst, hbodyAt⟩ := Image.codeAt_append.1 hhere
    have hfirst : e.BlockAt img b.id p := ⟨label, hlabel, Image.codeAt_singleton.1 hfirst⟩
    obtain ⟨hblocks, hhead⟩ := ih hafter hat' hedges.right
    refine ⟨forall_mem_cons.2 ⟨⟨p, hfirst, ?_⟩, hblocks⟩, ?_⟩
    · refine ⟨_, n, body, rfl, hbody, hbodyAt, hedges.left.right, fun id hid => ?_⟩
      have := hhead id hid
      rwa [length_append, length_singleton, ← Nat.add_assoc] at this
    · rintro id ⟨⟩
      exact hfirst

theorem edgesAt_of_flatMap {edges : List EdgeBlock}
    (h : img.CodeAt p (edges.flatMap fun edge => .label edge.label :: edge.code)) : EdgesAt img edges := by
  intro edge hedge
  obtain ⟨before, after, rfl⟩ := append_of_mem hedge
  rw [flatMap_append, flatMap_cons] at h
  exact ⟨_, (Image.codeAt_append.1 (Image.codeAt_append.1 h).2).1⟩

theorem linked_of_code {f : Asm.Function} (h : e.code = .ok f) (hat : img.CodeAt p (.label f.name :: f.code)) :
    e.Linked img := by
  obtain ⟨entry, hentry, h⟩ := bind_eq_ok.1 h
  obtain ⟨body, hbody, ⟨⟩⟩ := bind_eq_ok.1 h
  obtain ⟨hname, hat⟩ := Image.codeAt_cons.1 hat
  obtain ⟨hat, hedges⟩ := Image.codeAt_append.1 hat
  obtain ⟨hentryAt, hbodyAt⟩ := Image.codeAt_append.1 hat
  obtain ⟨hblocks, hhead⟩ := blocksCode_at hbody hbodyAt (edgesAt_of_flatMap hedges)
  exact ⟨⟨p, entry, hname, hentry, hentryAt, hhead _⟩, hblocks⟩

end Emission

end RegisterCompiler
