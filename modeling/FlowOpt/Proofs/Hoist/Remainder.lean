import FlowOpt.Proofs.Hoist.Layout
import FlowOpt.Proofs.Hoist.Values

/-!
# What stays in the blocks

What stays in a loop leaves the arguments and destinations of what is hoisted out of it alone.
Labels and phis stay, so a block is still entered at the same head.
-/

namespace FlowOpt

open FlowOpt.Execution

def movedBlock (planned : List PlannedLoop) (moves : List Move) (v : Nat) (b : Block) : Block :=
  ⟨b.name, (kept (takenBy planned) v 0 b.instrs).map (HoistPlan.redirectAll moves b.name)⟩

variable {stem : String} {blocks blocks' : List Block} {g : FlowGraph} {live : Results}
  {planned : List PlannedLoop} {moves : List Move} {b : Block} {e : PlannedLoop}
  {s : Site} {x : String} {v k : Nat} {i : Instruction}

@[simp] theorem isLabel_redirectAll (name : String) (i : Instruction) :
    (HoistPlan.redirectAll moves name i).isLabel = i.isLabel := by
  rw [HoistPlan.redirectAll_eq]
  rfl

@[simp] theorem isPhi_redirectAll (name : String) (i : Instruction) :
    (HoistPlan.redirectAll moves name i).isPhi = i.isPhi := by
  rw [HoistPlan.redirectAll_eq]
  rfl

@[simp] theorem dest_redirectAll (name : String) (i : Instruction) :
    (HoistPlan.redirectAll moves name i).dest = i.dest := by
  rw [HoistPlan.redirectAll_eq]

theorem isHead_redirectAll (name : String) (i : Instruction) :
    Block.isHead (HoistPlan.redirectAll moves name i) = Block.isHead i := by
  rw [Block.isHead, isLabel_redirectAll, isPhi_redirectAll, Block.isHead]

theorem dropWhile_isLabel_redirectAll (name : String) (instrs : List Instruction) :
    (instrs.map (HoistPlan.redirectAll moves name)).dropWhile (·.isLabel) =
      (instrs.dropWhile (·.isLabel)).map (HoistPlan.redirectAll moves name) := by
  rw [List.dropWhile_map]
  congr 2
  funext i
  exact isLabel_redirectAll name i

namespace Rearranged

variable (h : Rearranged stem blocks g live planned moves blocks')
include h

theorem contains_site (he : e ∈ planned) (hs : s ∈ e.2.sites) :
    e.1.contains s.node = true ∧ g.InstrAt s.node s.index s.instr :=
  (NaturalLoop.mem_sites h.wellFormed (h.isPlanned.mem_loops he)).1 (h.isPlanned.mem_sites he hs)

theorem isMovable_of_taken (hs : s ∈ takenBy planned) : s.instr.isMovable = true := by
  obtain ⟨e, he, hs⟩ := mem_takenBy.1 hs
  exact (NaturalLoop.marks_invariants g e.1 _).isMovable (h.isPlanned.mem_invariants he hs)

theorem instr_eq_of_taken (hs : s ∈ takenBy planned) (hi : g.InstrAt s.node s.index i) :
    s.instr = i := by
  obtain ⟨e, he, hs⟩ := mem_takenBy.1 hs
  exact (h.contains_site he hs).2.unique hi

theorem not_taken (hi : g.InstrAt v k i) (hm : i.isMovable = false) :
    ∀ s ∈ takenBy planned, s.node = v → s.index ≠ k := by
  rintro s hs rfl rfl
  have hmovable := h.isMovable_of_taken hs
  rw [h.instr_eq_of_taken hs hi, hm] at hmovable
  cases hmovable

/-- What stays in a loop changes neither arguments nor destinations of what is hoisted out of it. -/
theorem spares (he : e ∈ planned) (hv : e.1.contains v = true) (hi : g.InstrAt v k i)
    (hnot : ∀ t ∈ takenBy planned, t.node = v → t.index ≠ k) (hs : s ∈ e.2.sites) :
    (∀ x ∈ s.instr.args, i.dest ≠ some x) ∧ ∀ x, s.instr.dest = some x → i.dest ≠ some x := by
  have hsite : (⟨v, k, i⟩ : Site) ∈ e.1.sites g :=
    (NaturalLoop.mem_sites h.wellFormed (h.isPlanned.mem_loops he)).2 ⟨hv, hi⟩
  constructor
  · intro x hx hd
    obtain ⟨t, ht, hat⟩ := h.isPlanned.arg_taken he hs hx hsite hd
    obtain ⟨hnode, hindex⟩ := Site.isAt_iff.1 hat
    exact hnot t ht hnode hindex
  · intro x hx hd
    obtain ⟨y, hy, -, honce⟩ := (NaturalLoop.marks_invariants g e.1 _).ownsDest
      (h.isPlanned.mem_invariants he hs)
    obtain rfl := Option.some.inj (hx.symm.trans hy)
    have hsame := honce _ hsite hd
    exact hnot s (mem_takenBy.2 ⟨e, he, hs⟩) (hsame ▸ rfl) (hsame ▸ rfl)

theorem independent (he : e ∈ planned) : Independent (e.2.sites.map (·.instr)) := by
  have hmarks := NaturalLoop.marks_invariants g e.1 (g.liveAtHeader live e.1)
  have hmem : ∀ i ∈ e.2.sites.map (·.instr), ∃ s ∈ e.2.sites, s.instr = i :=
    fun i hi => List.mem_map.1 hi
  constructor
  · intro i hi
    obtain ⟨s, hs, rfl⟩ := hmem i hi
    exact hmarks.isMovable (h.isPlanned.mem_invariants he hs)
  · intro i hi x hx
    obtain ⟨s, hs, rfl⟩ := hmem i hi
    exact hmarks.not_own_arg (h.isPlanned.mem_invariants he hs) hx
  · obtain ⟨before, after, -, hplan⟩ := h.isPlanned.isPlan_of_mem he
    rw [List.pairwise_map, hplan.sites]
    exact hmarks.pairwise.filter _

/-- What is hoisted out of a loop assigns nothing that is live at its header. -/
theorem dest_ne_of_liveIn (he : e ∈ planned) (hs : s ∈ e.2.sites)
    (hx : g.LiveIn live e.1.header x) : s.instr.dest ≠ some x := by
  intro hd
  obtain ⟨y, hy, hdead, -⟩ := (NaturalLoop.marks_invariants g e.1 _).ownsDest
    (h.isPlanned.mem_invariants he hs)
  obtain rfl := Option.some.inj (hd.symm.trans hy)
  have hlive : NameMap.contains (g.liveAtHeader live e.1) x = true := hx
  rw [hdead] at hlive
  cases hlive

theorem kept_heads (hv : g.blocks[v]? = some b) :
    kept (takenBy planned) v 0 b.instrs = b.instrs.takeWhile Block.isHead ++
      kept (takenBy planned) v (b.instrs.takeWhile Block.isHead).length b.body := by
  have hheads : kept (takenBy planned) v 0 (b.instrs.takeWhile Block.isHead) =
      b.instrs.takeWhile Block.isHead := by
    apply kept_eq_self
    intro s hs hnode _
    by_contra hlt
    rw [Nat.zero_add, not_le] at hlt
    have hget : b.instrs[s.index]? = some (b.instrs.takeWhile Block.isHead)[s.index] := by
      conv_lhs => rw [Block.instrs_eq_append_body b]
      rw [List.getElem?_append_left hlt, List.getElem?_eq_getElem hlt]
    have hhead := List.all_takeWhile (p := Block.isHead) (l := b.instrs)
    rw [List.all_eq_true] at hhead
    exact h.not_taken ⟨b, hv, hget⟩
      (Instruction.isMovable_of_isHead (hhead _ (List.getElem_mem hlt))) s hs hnode rfl
  conv_lhs => rw [Block.instrs_eq_append_body b]
  rw [kept_append, hheads, Nat.zero_add]

theorem movedBlock_mem (hv : g.blocks[v]? = some b)
    (hown : (g.node? v).any (·.synthetic) = false) : movedBlock planned moves v b ∈ blocks' :=
  h.block_mem hv hown

/-- A block is entered as before, and what is left of it begins behind the same head. -/
theorem movedBlock_head (moves : List Move) (hv : g.blocks[v]? = some b)
    (hphi : ∀ i ∈ b.body, i.isPhi = false) :
    (movedBlock planned moves v b).headPhis =
        b.headPhis.map (HoistPlan.redirectAll moves b.name) ∧
      (movedBlock planned moves v b).body.dropWhile (·.isLabel) =
        ((kept (takenBy planned) v (b.instrs.takeWhile Block.isHead).length b.body).map
          (HoistPlan.redirectAll moves b.name)).dropWhile (·.isLabel) := by
  have hinstrs : (movedBlock planned moves v b).instrs =
      (b.instrs.takeWhile Block.isHead).map (HoistPlan.redirectAll moves b.name) ++
        (kept (takenBy planned) v (b.instrs.takeWhile Block.isHead).length b.body).map
          (HoistPlan.redirectAll moves b.name) := by
    rw [← List.map_append, ← h.kept_heads hv]
    rfl
  have hheads : ∀ i ∈ (b.instrs.takeWhile Block.isHead).map (HoistPlan.redirectAll moves b.name),
      Block.isHead i = true := by
    intro i hi
    obtain ⟨j, hj, rfl⟩ := List.mem_map.1 hi
    have hall := List.all_takeWhile (p := Block.isHead) (l := b.instrs)
    rw [isHead_redirectAll]
    exact List.all_eq_true.1 hall j hj
  have hrest : ∀ i ∈ (kept (takenBy planned) v (b.instrs.takeWhile Block.isHead).length
      b.body).map (HoistPlan.redirectAll moves b.name), i.isPhi = false := by
    intro i hi
    obtain ⟨j, hj, rfl⟩ := List.mem_map.1 hi
    rw [isPhi_redirectAll]
    exact hphi j ((kept_sublist _ _ _ _).subset hj)
  constructor
  · rw [Block.headPhis_of_append hinstrs hheads hrest, List.filter_map, Block.headPhis]
    congr 2
    funext i
    exact isPhi_redirectAll b.name i
  · rw [Block.body_of_append hinstrs hheads, Block.dropWhile_isHead hrest,
      List.dropWhile_idempotent]

end Rearranged

end FlowOpt
