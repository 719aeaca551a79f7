import FlowOpt.Proofs.FlowGraph.Construction
import FlowOpt.Proofs.Ssa.Renaming
import FlowOpt.Ssa.Form

/-!
# Where phis are written

A block of a form has its renamed code, a new label if a phi names the block and it had none, and
its phis behind the label. The form lists these phis under the name of the block.
-/

namespace FlowOpt

namespace Ssa

/-- Code that is kept, and the same code with phis behind its label. -/
inductive WithPhis (name : String) (phis : List Instruction) :
    List Instruction → List Instruction → Prop
  | behindLabel {i : Instruction} {rest : List Instruction} (hi : i.isLabel = true) :
      WithPhis name phis (i :: rest) (i :: (phis ++ rest))
  | newLabel {kept : List Instruction} (h : kept.head?.bind (·.label) = none) :
      WithPhis name phis kept (.atLabel name :: (phis ++ kept))
  | inFront {kept : List Instruction} (h : kept.head?.bind (·.label) = none) :
      WithPhis name phis kept (phis ++ kept)

def Walk.phisOf (s : Walk) (v : Nat) : List Phi := (s.phis[v]?.getD {}).entries.map (·.2)

variable {g : FlowGraph} {s : Walk} {v : Nat} {b : Block} {p : Phi}

theorem mem_phisOf : p ∈ s.phisOf v ↔ ∃ x, s.phi? v x = some p := by
  unfold Walk.phisOf
  rw [List.mem_map]
  constructor
  · rintro ⟨⟨x, p⟩, he, rfl⟩
    exact ⟨x, NameMap.mem_entries_iff.1 he⟩
  · rintro ⟨x, hx⟩
    exact ⟨(x, p), NameMap.mem_entries_iff.2 hx, rfl⟩

theorem withPhis_insertAt (b : Block) (phis : List Instruction) :
    WithPhis b.name phis b.instrs (b.insertAt b.bodyStart phis).instrs := by
  unfold Block.insertAt Block.bodyStart
  cases hi : b.instrs with
  | nil =>
    have hlabel : b.label = none := by simp [Block.label, hi]
    have hlay : WithPhis b.name phis [] (phis ++ []) := .inFront rfl
    simpa [hlabel] using hlay
  | cons i rest =>
    have hlabel : b.label = i.label := by simp [Block.label, hi]
    cases hl : i.label with
    | none =>
      have hlay : WithPhis b.name phis (i :: rest) (phis ++ i :: rest) := by
        apply WithPhis.inFront
        simpa using hl
      simpa [hlabel, hl] using hlay
    | some l =>
      have hlay : WithPhis b.name phis (i :: rest) (i :: (phis ++ rest)) := by
        apply WithPhis.behindLabel
        simp [Instruction.isLabel, hl]
      simpa [hlabel, hl] using hlay

variable {name : String} {phis kept written : List Instruction}

theorem WithPhis.destinations_perm (h : WithPhis name phis kept written) :
    (written.filterMap (·.dest)).Perm (phis.filterMap (·.dest) ++ kept.filterMap (·.dest)) := by
  cases h with
  | @behindLabel i rest hi =>
    rw [← List.filterMap_append]
    exact (List.perm_middle.symm).filterMap _
  | newLabel _ =>
    rw [← List.filterMap_append]
    exact .refl _
  | inFront _ =>
    rw [← List.filterMap_append]

/-- An instruction that was not put in is one of those kept. What is kept before it stands before
it, and unless it is the label so do the phis. -/
theorem WithPhis.exists_kept (h : WithPhis name phis kept written) {i : Instruction}
    {before after : List Instruction} (hw : written = before ++ i :: after) (hi : i ∉ phis) :
    i = .atLabel name ∨ ∃ l r, kept = l ++ i :: r ∧ (∀ j ∈ l, j ∈ before) ∧
      (i.isLabel = true ∨ ∀ p ∈ phis, p ∈ before) := by
  have hbody : ∀ rest before, phis ++ rest = before ++ i :: after →
      ∃ l, before = phis ++ l ∧ rest = l ++ i :: after := by
    intro rest before hw
    rcases List.append_eq_append_iff.1 hw with ⟨l, hl, hr⟩ | ⟨l, hl, hr⟩
    · exact ⟨l, hl, hr⟩
    · cases l with
      | nil => exact ⟨[], by simpa using hl.symm, by simpa using hr.symm⟩
      | cons j l =>
        obtain ⟨rfl, -⟩ := List.cons.inj hr
        exact absurd (hl ▸ by simp) hi
  cases h with
  | @behindLabel j rest hj =>
    cases before with
    | nil =>
      obtain ⟨rfl, -⟩ := List.cons.inj hw
      exact .inr ⟨[], rest, rfl, by simp, .inl hj⟩
    | cons k before =>
      obtain ⟨rfl, hrest⟩ := List.cons.inj hw
      obtain ⟨l, rfl, rfl⟩ := hbody rest before hrest
      refine .inr ⟨j :: l, after, rfl, fun k hk => ?_, .inr fun p hp => by simp [hp]⟩
      rcases List.mem_cons.1 hk with rfl | hk
      · exact List.mem_cons_self
      · simp [hk]
  | newLabel _ =>
    cases before with
    | nil =>
      obtain ⟨rfl, -⟩ := List.cons.inj hw
      exact .inl rfl
    | cons k before =>
      obtain ⟨rfl, hrest⟩ := List.cons.inj hw
      obtain ⟨l, rfl, rfl⟩ := hbody kept before hrest
      exact .inr ⟨l, after, rfl, fun k hk => by simp [hk], .inr fun p hp => by simp [hp]⟩
  | inFront _ =>
    obtain ⟨l, rfl, rfl⟩ := hbody kept before hw
    exact .inr ⟨l, after, rfl, fun k hk => by simp [hk], .inr fun p hp => by simp [hp]⟩

theorem withPhis_rebuilt (s : Walk) (sources : List String) (b : Block) (v : Nat) :
    WithPhis b.name ((s.phisOf v).map (·.toInstruction)) ((s.code? v).getD b.instrs)
      (SsaForm.rebuilt s sources b v).instrs := by
  have hphis : (s.phisOf v).map (·.toInstruction) =
      ((s.phis[v]?.getD {}).entries).map (·.2.toInstruction) := by
    rw [Walk.phisOf, List.map_map]
    rfl
  rw [hphis]
  unfold SsaForm.rebuilt
  simp only
  split
  · unfold Block.ensureLabel
    split
    · next hl =>
      exact .newLabel (Option.isNone_iff_eq_none.1 hl)
    · exact withPhis_insertAt { b with instrs := (s.code? v).getD b.instrs } _
  · exact withPhis_insertAt { b with instrs := (s.code? v).getD b.instrs } _

@[simp] theorem name_rebuilt (s : Walk) (sources : List String) (b : Block) (v : Nat) :
    (SsaForm.rebuilt s sources b v).name = b.name := by
  unfold SsaForm.rebuilt Block.insertAt
  simp only
  split
  · unfold Block.ensureLabel
    split
    · rfl
    · rfl
  · rfl

end Ssa

namespace SsaForm

open FlowOpt.Ssa

def insertedPhis (form : SsaForm) (name : String) : List Phi := (form.phis.get? name).getD []

variable {g : FlowGraph} {s : Walk} {v : Nat} {b : Block}

theorem insertedPhis_ofWalk (hg : g.WellFormed) (s : Walk) (hb : g.blocks[v]? = some b) :
    (ofWalk g s).insertedPhis b.name = s.phisOf v := by
  have hv : v < g.size := FlowGraph.size_eq_length g ▸ (List.getElem?_eq_some_iff.1 hb).1
  have hids : g.ids = List.range g.size := rfl
  have hnames : ∀ ids : List Nat, ids.Nodup → (∀ u ∈ ids, u < g.size) →
      ((ids.map fun u => (g.nameOf u, s.phisOf u)).map (·.1)).Nodup := by
    intro ids hn hlt
    rw [List.map_map]
    refine hn.map_on fun u hu w hw heq => ?_
    have hu' : u < g.blocks.length := FlowGraph.size_eq_length g ▸ hlt u hu
    have hw' : w < g.blocks.length := FlowGraph.size_eq_length g ▸ hlt w hw
    refine hg.eq_of_name_eq (List.getElem?_eq_getElem hu') (List.getElem?_eq_getElem hw') ?_
    rw [← FlowGraph.nameOf_eq (List.getElem?_eq_getElem hu'),
      ← FlowGraph.nameOf_eq (List.getElem?_eq_getElem hw')]
    exact heq
  have hphis : (ofWalk g s).phis = .ofList
      ((g.ids.filter fun u => !(s.phisOf u).isEmpty).map fun u => (g.nameOf u, s.phisOf u)) := rfl
  have hiff : ∀ phis, (ofWalk g s).phis.get? b.name = some phis ↔
      (∃ u, u < g.size ∧ s.phisOf u ≠ [] ∧ g.nameOf u = b.name ∧ s.phisOf u = phis) := by
    intro phis
    rw [hphis, hids, NameMap.get?_ofList_iff (hnames _ (List.nodup_range.filter _) fun u hu =>
      List.mem_range.1 (List.mem_filter.1 hu).1)]
    simp [and_assoc]
  unfold insertedPhis
  by_cases hempty : s.phisOf v = []
  · rw [hempty]
    cases hget : (ofWalk g s).phis.get? b.name with
    | none => rfl
    | some phis =>
      obtain ⟨u, hu, hne, hname, rfl⟩ := (hiff phis).1 hget
      have hu' : u < g.blocks.length := FlowGraph.size_eq_length g ▸ hu
      rw [FlowGraph.nameOf_eq (List.getElem?_eq_getElem hu')] at hname
      obtain rfl := hg.eq_of_name_eq (List.getElem?_eq_getElem hu') hb hname
      exact absurd hempty hne
  · rw [(hiff (s.phisOf v)).2 ⟨v, hv, hempty, FlowGraph.nameOf_eq hb, rfl⟩, Option.getD_some]

theorem exists_blocks_ofWalk (g : FlowGraph) (s : Walk) : ∃ sources, (ofWalk g s).blocks =
    g.blocks.zipIdx.map fun e => rebuilt s sources e.1 e.2 := ⟨_, rfl⟩

theorem exists_block_ofWalk (hg : g.WellFormed) (s : Walk) (hb : g.blocks[v]? = some b) :
    ∃ b', (ofWalk g s).blocks[v]? = some b' ∧ b'.name = b.name ∧
      WithPhis b.name (((ofWalk g s).insertedPhis b.name).map (·.toInstruction))
        ((s.code? v).getD b.instrs) b'.instrs := by
  rw [insertedPhis_ofWalk hg s hb]
  obtain ⟨sources, hblocks⟩ := exists_blocks_ofWalk g s
  refine ⟨rebuilt s sources b v, ?_, name_rebuilt _ _ _ _, withPhis_rebuilt s sources b v⟩
  rw [hblocks, List.getElem?_map, List.getElem?_zipIdx, hb]
  simp

theorem names_ofWalk (g : FlowGraph) (s : Walk) : (ofWalk g s).blocks.map (·.name) = g.names := by
  obtain ⟨sources, hblocks⟩ := exists_blocks_ofWalk g s
  apply List.ext_getElem?
  intro v
  simp [hblocks, FlowGraph.names_eq, List.getElem?_zipIdx, Function.comp_def]

theorem length_blocks_ofWalk (g : FlowGraph) (s : Walk) :
    (ofWalk g s).blocks.length = g.blocks.length := by
  simp [ofWalk]

end SsaForm

end FlowOpt
