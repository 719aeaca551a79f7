import FlowOpt.Proofs.Hoist.Operands
import FlowOpt.Proofs.Hoist.Precedence

/-!
# Hoisting keeps strict single-assignment form

Where every variable has one assignment, which every use of it stands behind, and phis name exactly
the predecessors of their blocks, hoisted code is of the same form. The phis of a header name its
preheader for the one block that entered the loop. Only a preheader that comes in front of the first
block has nothing to stand for: the phis there keep the labels they have.
-/

namespace FlowOpt

open FlowOpt.Digraph

/-- A phi; labels are none, whatever else their records say. -/
def Instruction.isChoice (i : Instruction) : Bool := !i.isLabel && i.isPhi

/-- Code all of which can be reached, where every variable has one assignment and every use stands
behind it. What a phi takes from a block is used at the end of that. -/
structure FlowGraph.SingleAssignment (g : FlowGraph) : Prop where
  reachable : ∀ v, v < g.size → g.graph.Reachable 0 v
  once : ∀ s t x, g.HasSite s → g.HasSite t → s.instr.dest = some x → t.instr.dest = some x →
    s = t
  uses : ∀ s t x, g.HasSite s → g.HasSite t → s.instr.dest = some x → x ∈ t.instr.args →
    t.instr.isChoice = false → g.Precedes s t
  operands : ∀ s t x p, g.HasSite s → g.HasSite t → s.instr.dest = some x →
    t.instr.isChoice = true → p < g.size → (x, g.nameOf p) ∈ t.instr.args.zip t.instr.labels →
    g.graph.Dominates 0 s.node p

def Block.Sourced (blocks : List Block) (b : Block) : Prop :=
  ∀ i ∈ b.instrs, i.isChoice = true →
    ∀ l, l ∈ i.labels ↔ ∃ c ∈ blocks, b.name ∈ c.targets ∧ c.name = l

/-- Strict single-assignment form, but for the labels of phis in blocks that are exempt. -/
def Block.StrictSsaBut (exempt : String → Prop) (stem : String) (blocks : List Block) : Prop :=
  ∃ g, FlowGraph.ofBlocks (addTerminators blocks) stem = .ok g ∧ g.SingleAssignment ∧
    ∀ b ∈ addTerminators blocks, ¬ exempt b.name → b.Sourced (addTerminators blocks)

def Block.StrictSsa (stem : String) (blocks : List Block) : Prop :=
  StrictSsaBut (fun _ => False) stem blocks

/-- Whether a preheader has been put before the first block, which has the name `header`. -/
def HoistOutcome.Fronts (o : HoistOutcome) (blocks : List Block) (header : String) : Prop :=
  (blocks.map (·.name)).head? = some header ∧ header ∈ o.preheaders.map (·.2)

variable {names : HoistNames} {stem stem' : String} {blocks blocks' : List Block}
  {g g' : FlowGraph} {live : Results} {planned : List PlannedLoop} {moves : List Move}
  {b c : Block} {e : PlannedLoop} {m : Move} {s s' t t' : Site} {i : Instruction}
  {x l name : String} {d p v : Nat}

theorem Instruction.isPhi_of_isChoice (h : i.isChoice = true) : i.isPhi = true := by
  rw [isChoice, Bool.and_eq_true] at h
  exact h.2

@[simp] theorem isChoice_redirectAll (name : String) (i : Instruction) :
    (HoistPlan.redirectAll moves name i).isChoice = i.isChoice := by
  rw [Instruction.isChoice, isLabel_redirectAll, isPhi_redirectAll, Instruction.isChoice]

theorem Instruction.isChoice_eq_false_of_isMovable (h : i.isMovable = true) :
    i.isChoice = false := by
  by_contra hc
  have hphi := isPhi_of_isChoice (Bool.not_eq_false _ ▸ hc)
  rw [isPhi, beq_iff_eq] at hphi
  simp [isMovable, hasSideEffects, hphi, effectful] at h

theorem ComesFrom.isChoice_eq (h : ComesFrom planned moves g g' s' s) :
    s'.instr.isChoice = s.instr.isChoice := by
  cases h with
  | kept _ _ _ _ hinstr => rw [hinstr, isChoice_redirectAll]
  | taken _ _ _ _ hinstr => rw [hinstr]

theorem Block.sourced_iff (hg : FlowGraph.ofBlocks blocks stem = .ok g) :
    b.Sourced blocks ↔
      ∀ i ∈ b.instrs, i.isChoice = true → ∀ l, l ∈ i.labels ↔ g.Leads l b.name := by
  have hleads : ∀ l, g.Leads l b.name ↔ ∃ c ∈ blocks, b.name ∈ c.targets ∧ c.name = l := by
    intro l
    rw [FlowGraph.leads_iff hg]
    simp only [and_comm]
  simp only [Block.Sourced, hleads]

theorem Block.mem_operations_of_isChoice (hi : i ∈ b.instrs) (hc : i.isChoice = true) :
    i ∈ b.operations := by
  rw [Instruction.isChoice, Bool.and_eq_true] at hc
  exact List.mem_filter.2 ⟨hi, hc.1⟩

namespace Rearranged

variable (h : Rearranged stem blocks g live planned moves blocks')
include h

theorem mem_labels_header (hm : m ∈ moves) (hphi : i.isPhi = true) :
    x ∈ (HoistPlan.redirectAll moves m.1.header i).labels ↔
      (x = m.2 ∧ ∃ l ∈ i.labels, l ∈ m.1.entering) ∨ (x ∈ i.labels ∧ x ∉ m.1.entering) := by
  have hinto : ∀ l ∈ m.1.entering, HoistPlan.relabelAll moves m.1.header i l = m.2 :=
    fun l hl => h.relabel_of_mem hm (.inr ⟨hphi, rfl, hl⟩)
  have hsame : ∀ l, l ∉ m.1.entering → HoistPlan.relabelAll moves m.1.header i l = l :=
    fun l hl => HoistPlan.relabelAll_of_isPhi hphi fun m' hm' hname hmem =>
      hl (h.move_inj hm hm' hname ▸ hmem)
  rw [HoistPlan.redirectAll_eq, List.mem_map]
  constructor
  · rintro ⟨l, hl, rfl⟩
    by_cases hmem : l ∈ m.1.entering
    · exact .inl ⟨hinto l hmem, l, hl, hmem⟩
    · rw [hsame l hmem]
      exact .inr ⟨hl, hmem⟩
  · rintro (⟨rfl, l, hl, hmem⟩ | ⟨hl, hnot⟩)
    · exact ⟨l, hl, hinto l hmem⟩
    · exact ⟨x, hl, hsame x hnot⟩

theorem isChoice_eq_false_of_preheader (hm : m ∈ moves)
    (hi : i ∈ (m.1.preheaderBlock m.2).instrs) : i.isChoice = false := by
  obtain ⟨e, he, hme⟩ := h.exists_loop hm
  simp only [HoistPlan.preheaderBlock, Block.labeled, List.mem_cons, List.mem_append,
    List.mem_map, List.not_mem_nil, or_false] at hi
  rcases hi with rfl | ⟨s, hs, rfl⟩ | rfl
  · rfl
  · exact Instruction.isChoice_eq_false_of_isMovable
      (h.isMovable_of_taken (mem_takenBy.2 ⟨e, he, hme ▸ hs⟩))
  · rfl

omit h in
theorem labels_redirectAll (hphi : i.isPhi = true) (hname : ∀ m ∈ moves, name ≠ m.1.header) :
    (HoistPlan.redirectAll moves name i).labels = i.labels := by
  rw [HoistPlan.redirectAll_eq]
  conv_rhs => rw [← List.map_id i.labels]
  apply List.map_congr_left
  intro l _
  exact HoistPlan.relabelAll_of_isPhi hphi fun m hm heq => absurd heq (hname m hm)

/-- A first block that is the header of a plan has a block put in front, which leads there alone. -/
theorem header_first (he : e ∈ planned)
    (hhead : (blocks.map (·.name)).head? = some e.2.header) :
    (g.node? 0).any (·.synthetic) = true ∧ ∀ w ∈ g.graph.succs 0, w = e.1.header := by
  obtain ⟨first, rest, -, rfl, -, -⟩ := FlowGraph.blocks_of_ofBlocks h.graph
  have hname : first.name = e.2.header := Option.some.inj hhead
  rcases FlowGraph.front_cases h.graph with ⟨hblocks, -⟩ | ⟨-, -, hsyn, -⟩
  · have hzero : g.blocks[0]? = some first := by rw [hblocks]; rfl
    have hheader := LoopForest.contains_header h.wellFormed.graph (h.mem_loops he)
    rw [h.eq_of_header he hzero hname, h.not_contains_entry he] at hheader
    cases hheader
  · obtain ⟨hone, hsuccs, -⟩ := FlowGraph.front_of_synthetic h.graph hsyn
    refine ⟨hsyn, fun w hw => ?_⟩
    rw [h.eq_of_header he hone hname]
    exact (hsuccs w).1 hw

theorem first_of_mem_succs (he : e ∈ planned) (hsyn : (g.node? 0).any (·.synthetic) = true)
    (hs : e.1.header ∈ g.graph.succs 0) :
    (blocks.map (·.name)).head? = some e.2.header := by
  obtain ⟨first, rest, -, rfl, -, -⟩ := FlowGraph.blocks_of_ofBlocks h.graph
  obtain ⟨hone, hsuccs, -⟩ := FlowGraph.front_of_synthetic h.graph hsyn
  obtain ⟨c, hc, hname⟩ := h.header_node he
  rw [(hsuccs _).1 hs, hone] at hc
  obtain rfl := Option.some.inj hc
  exact congrArg some hname

theorem exists_entering_iff (hreach : ∀ v, v < g.size → g.graph.Reachable 0 v)
    (he : e ∈ planned) :
    (∃ l, l ∈ e.2.entering) ↔ (blocks.map (·.name)).head? ≠ some e.2.header := by
  have hg := h.wellFormed
  have hloop := h.mem_loops he
  constructor
  · rintro ⟨l, hl⟩ hhead
    obtain ⟨hsyn, hone⟩ := h.header_first he hhead
    obtain ⟨⟨v, -, b, hv, hown, rfl, -⟩, -⟩ := (h.mem_entering_iff he).1 hl
    obtain ⟨hs, hout⟩ := (h.isPlanned.mem_entering hg he hv hown).1 hl
    have hne : v ≠ 0 := by
      rintro rfl
      rw [hsyn] at hown
      cases hown
    rw [LoopForest.contains_of_dominates hg.graph hloop
      (hreach v (FlowGraph.lt_size_iff.2 ⟨b, hv⟩)) hs (.of_succs hone hne)] at hout
    cases hout
  · intro hhead
    have hne := FlowGraph.ne_zero_of_contains hg (h.isPlanned.mem_loops he)
      (LoopForest.contains_header hg.graph hloop)
    obtain ⟨v, hv, hr⟩ := LoopForest.exists_entering hg.graph hloop hne
    obtain ⟨hpred, hout⟩ := List.mem_filter.1 hv
    have hs := (hg.graph.symmetric v e.1.header).2 hpred
    obtain ⟨b, hb⟩ := FlowGraph.lt_size_iff.1 hr.lt
    cases hown : (g.node? v).any (·.synthetic) with
    | false =>
      exact ⟨b.name, (h.isPlanned.mem_entering hg he hb hown).2 ⟨hs, by simpa using hout⟩⟩
    | true =>
      obtain rfl := FlowGraph.eq_zero_of_synthetic h.graph hown
      exact absurd (h.first_of_mem_succs he hown hs) hhead

section Labels

variable (hreach : ∀ v, v < g.size → g.graph.Reachable 0 v)
  (hsourced : ∀ b ∈ blocks, b.Sourced blocks)
include hreach hsourced

/-- A header's phi gets its preheader for a label unless the header is the first block, and keeps
those of the blocks in the loop. -/
theorem mem_labels_iff (hm : m ∈ moves) (hb : b ∈ blocks') (hname : b.name = m.1.header)
    (hi : i ∈ b.instrs) (hchoice : i.isChoice = true) :
    x ∈ i.labels ↔ (x = m.2 ∧ (blocks.map (·.name)).head? ≠ some m.1.header) ∨
      (g.Leads x m.1.header ∧ x ∉ m.1.entering) := by
  obtain ⟨e, he, hme⟩ := h.exists_loop hm
  rcases h.mem_blocks.1 hb with ⟨v, c, hv, hown, rfl⟩ | ⟨m', hm', rfl⟩
  · obtain ⟨j, hj, rfl⟩ := List.mem_map.1 hi
    rw [isChoice_redirectAll] at hchoice
    have hlabels := (Block.sourced_iff h.graph).1 (hsourced c (h.block_of_own hv hown)) j
      ((kept_sublist _ _ _ _).subset hj) hchoice
    change c.name = m.1.header at hname
    rw [hname] at hlabels ⊢
    have hentering : (∃ l ∈ j.labels, l ∈ m.1.entering) ↔ ∃ l, l ∈ m.1.entering := by
      refine exists_congr fun l => and_iff_right_of_imp fun hmem => (hlabels l).2 ?_
      rw [hme] at hmem ⊢
      exact ((h.mem_entering_iff he).1 hmem).1
    rw [h.mem_labels_header hm (Instruction.isPhi_of_isChoice hchoice), hentering, hlabels, hme,
      h.exists_entering_iff hreach he]
  · exact absurd hname (h.preheader_ne hm' hm).1

variable (hg' : FlowGraph.ofBlocks blocks' stem' = .ok g')
include hg'

/-- The phis of moved code have the predecessors of their blocks for labels, but for those of a
first block that got a preheader. -/
theorem sourced (hb : b ∈ blocks')
    (hfirst : ∀ m ∈ moves, m.1.header = b.name → (blocks.map (·.name)).head? ≠ some b.name) :
    b.Sourced blocks' := by
  rw [Block.sourced_iff hg']
  intro i' hi' hchoice l
  by_cases hheader : ∃ m ∈ moves, m.1.header = b.name
  · obtain ⟨m, hm, hname⟩ := hheader
    rw [h.mem_labels_iff hreach hsourced hm hb hname.symm hi' hchoice, ← hname,
      h.leads_to_header hg' hm, and_iff_left (hname ▸ hfirst m hm hname)]
  push Not at hheader
  rcases h.mem_blocks.1 hb with ⟨v, c, hv, hown, rfl⟩ | ⟨m, hm, rfl⟩
  · obtain ⟨i, hi, rfl⟩ := List.mem_map.1 hi'
    rw [isChoice_redirectAll] at hchoice
    have hlabels := (Block.sourced_iff h.graph).1 (hsourced c (h.block_of_own hv hown)) i
      ((kept_sublist _ _ _ _).subset hi) hchoice
    change ∀ m ∈ moves, m.1.header ≠ c.name at hheader
    change l ∈ (HoistPlan.redirectAll moves c.name i).labels ↔ g'.Leads l c.name
    rw [labels_redirectAll (Instruction.isPhi_of_isChoice hchoice) fun m hm => (hheader m hm).symm,
      hlabels, h.leads_iff hg']
    constructor
    · exact fun hlead => .inr (.inr ⟨hlead, fun m hm heq => absurd heq (hheader m hm)⟩)
    · rintro (⟨m, hm, -, heq⟩ | ⟨m, hm, -, heq⟩ | ⟨hlead, -⟩)
      · exact absurd heq.symm (hheader m hm)
      · exact absurd (heq ▸ h.mem_of_own hv hown) (h.preheader_fresh hm)
      · exact hlead
  · rw [h.isChoice_eq_false_of_preheader hm hi'] at hchoice
    cases hchoice

end Labels

variable (hg' : FlowGraph.ofBlocks blocks' stem' = .ok g')
include hg'

/-- Where the header of a plan has a phi, its preheader stands behind the block that entered the
loop. -/
theorem dominates_preheader_of_choice (he : e ∈ planned) (hc : g.blocks[e.1.header]? = some c)
    (hi : i ∈ c.instrs) (hchoice : i.isChoice = true) (hp : g.blocks[p]? = some b)
    (hown : (g.node? p).any (·.synthetic) = false) (henters : b.name ∈ e.2.entering)
    (hd : PreheaderOf moves g' e.2 d) : g'.graph.Dominates 0 (g.placeIn g' p) d := by
  have hg := h.wellFormed
  obtain ⟨hsucc, hout⟩ := (h.isPlanned.mem_entering hg he hp hown).1 henters
  obtain ⟨d', hd', -⟩ := h.exists_preheaderAt hg' he hp hown hsucc hout
  obtain rfl := h.preheaderOf_unique hg' hd ((h.preheaderAt_iff he).1 hd').2
  have hmem : ∀ {u}, e.1.header ∈ g.graph.succs u → e.1.contains u = false →
      u ∈ e.1.entering g.graph := fun hs hout =>
    List.mem_filter.2 ⟨(hg.graph.symmetric _ _).1 hs, by simp [hout]⟩
  obtain ⟨before, after, -, hplan⟩ := h.isPlanned.isPlan_of_mem he
  refine (h.rerouted hg').dominates_door_of_enters hd' hd'.1 fun u hu hinner => ?_
  rw [← (LoopForest.eq_loopAt (h.mem_loops he)).1] at hinner
  have hhas := FlowGraph.hasPhi_of_mem hc (Block.mem_operations_of_isChoice hi hchoice)
    (Instruction.isPhi_of_isChoice hchoice)
  exact hplan.entering_unique hhas (hmem hu hinner) (hmem hsucc hout)

variable (hs : g.SingleAssignment) (hsourced : ∀ b ∈ blocks, b.Sourced blocks)
include hs hsourced

/-- What a phi of moved code takes from a block is assigned before the end of that. -/
theorem dominates_operand (hfrom : ComesFrom planned moves g g' s' s) (hsi : g.HasSite s)
    (ht' : g'.HasSite t') (hd : s.instr.dest = some x) (hchoice : t'.instr.isChoice = true)
    (hp : p < g'.size) (hx : (x, g'.nameOf p) ∈ t'.instr.args.zip t'.instr.labels) :
    g'.graph.Dominates 0 s'.node p := by
  have hgw' := FlowGraph.WellFormed.of_ofBlocks hg'
  obtain ⟨t, htfrom, hti⟩ := h.exists_origin hg' ht'
    (.inr (List.ne_nil_of_mem (List.of_mem_zip hx).1))
  obtain ⟨c', hc'⟩ := FlowGraph.lt_size_iff.1 hp
  rw [FlowGraph.nameOf_eq hc'] at hx
  cases htfrom with
  | taken he _ _ hsite hinstr =>
    rw [hinstr, Instruction.isChoice_eq_false_of_isMovable (h.isMovable_of_taken
      (mem_takenBy.2 ⟨_, he, List.mem_of_getElem? hsite⟩))] at hchoice
    cases hchoice
  | @kept b hb hown hnode hindex hinstr =>
    obtain ⟨b', hb', hti⟩ := hti
    obtain rfl := Option.some.inj (hb.symm.trans hb')
    have htb := List.mem_of_getElem? hti
    rw [hinstr, isChoice_redirectAll] at hchoice
    rw [hinstr, HoistPlan.redirectAll_eq] at hx
    obtain ⟨l, hxl, hto⟩ := mem_zip_map hx
    -- The label was that of a block of the code, behind which the assignment stands.
    obtain ⟨c, hc, -, rfl⟩ := (hsourced b (h.block_of_own hb hown) _ htb hchoice l).1
      (List.of_mem_zip hxl).2
    obtain ⟨q, hq, hqown⟩ := h.own_of_mem hc
    have hqlt := FlowGraph.lt_size_iff.2 ⟨c, hq⟩
    have hdom := h.comesFrom_dominates hg' hs.reachable hfrom hqlt
      (hs.operands s t x q hsi ⟨b, hb, hti⟩ hd hchoice hqlt (FlowGraph.nameOf_eq hq ▸ hxl))
    by_cases hm : ∃ m ∈ moves, b.name = m.1.header ∧ c.name ∈ m.1.entering
    · obtain ⟨m, hm, hname, henters⟩ := hm
      obtain ⟨e, he, hme⟩ := h.exists_loop hm
      have hnew := h.relabel_of_mem hm
        (.inr ⟨Instruction.isPhi_of_isChoice hchoice, hname, henters⟩)
      obtain ⟨d, hd', -⟩ := (FlowGraph.mem_iff_own hg').1 (h.preheader_mem hm)
      obtain rfl := hgw'.eq_of_name_eq hd' hc' (hnew.symm.trans hto)
      have hheader := h.eq_of_header he hb (hname.trans (congrArg _ hme))
      exact hdom.trans (h.dominates_preheader_of_choice hg' he (hheader ▸ hb) htb hchoice hq
        hqown (hme ▸ henters) ⟨m, hm, hme, hd'⟩)
    · have hsame : HoistPlan.relabelAll moves b.name t.instr c.name = c.name :=
        HoistPlan.relabelAll_of_isPhi (Instruction.isPhi_of_isChoice hchoice)
          fun m hm' hname henters => hm ⟨m, hm', hname, henters⟩
      rwa [← hgw'.eq_of_name_eq (h.getElem?_placeIn hg' hq hqown) hc' (hsame.symm.trans hto)]

theorem singleAssignment : g'.SingleAssignment where
  reachable _ := (h.rerouted hg').reachable h.wellFormed.graph hs.reachable
    h.wellFormed.entry_not_succ
  once s' t' x hs' ht' hd hd' := by
    obtain ⟨s, hfrom, hsi⟩ := h.exists_origin hg' hs' (.inl (by simp [hd]))
    obtain ⟨t, htfrom, hti⟩ := h.exists_origin hg' ht' (.inl (by simp [hd']))
    obtain rfl := hs.once s t x hsi hti (hfrom.dest_eq ▸ hd) (htfrom.dest_eq ▸ hd')
    exact h.comesFrom_inj hg' hfrom htfrom
  uses s' t' x hs' ht' hd hx hchoice := by
    obtain ⟨s, hfrom, hsi⟩ := h.exists_origin hg' hs' (.inl (by simp [hd]))
    obtain ⟨t, htfrom, hti⟩ := h.exists_origin hg' ht' (.inr (List.ne_nil_of_mem hx))
    rw [hfrom.dest_eq] at hd
    rw [htfrom.args_eq] at hx
    exact h.precedes hg' hs.reachable hfrom htfrom hsi hd hx
      (hs.uses s t x hsi hti hd hx (htfrom.isChoice_eq ▸ hchoice))
  operands s' t' x p hs' ht' hd hchoice hp hx := by
    obtain ⟨s, hfrom, hsi⟩ := h.exists_origin hg' hs' (.inl (by simp [hd]))
    exact h.dominates_operand hg' hs hsourced hfrom hsi ht' (hfrom.dest_eq ▸ hd) hchoice hp hx

end Rearranged

namespace Block

/-- Code in strict single-assignment form can be hoisted, and is of that form again. The phis of a
header have the preheader and the predecessors in the loop for labels, those of a first block only
the latter. -/
theorem hoist_keeps_strictSsa (names : HoistNames) (blocks : List Block)
    (hs : StrictSsa names.entry blocks) :
    ∃ g o, FlowGraph.ofBlocks (addTerminators blocks) names.entry = .ok g ∧
      Block.hoist names blocks = .ok o ∧
      (∀ stem, StrictSsaBut (o.Fronts blocks) stem o.blocks) ∧
      ∀ q ∈ o.preheaders, ∃ l ∈ g.loops.loops, g.nameOf l.header = q.2 ∧
        ∀ b ∈ o.blocks, b.name = q.2 → ∀ i ∈ b.instrs, i.isChoice = true → ∀ x, x ∈ i.labels ↔
          (x = q.1 ∧ ¬ o.Fronts blocks q.2) ∨ (g.Leads x q.2 ∧ g.Inside l x) := by
  obtain ⟨g, hg, hassigned, hsourced⟩ := hs
  obtain ⟨live, hlive⟩ := FlowGraph.exists_live (.of_ofBlocks hg)
  have ho := hoist_eq_ok_iff.2 ⟨g, live, hg, hlive, rfl⟩
  refine ⟨g, _, hg, ho, ?_⟩
  generalize g.applyPlans names.preheader (g.planLoops live).plans (g.planLoops live).skipped = o
    at ho ⊢
  obtain ⟨g₁, live₁, planned, moves, hr, hpre, -⟩ := exists_rearranged ho
  obtain rfl := Except.ok.inj (hr.graph.symm.trans hg)
  have hall : ∀ b ∈ addTerminators blocks, b.Sourced (addTerminators blocks) :=
    fun b hb => hsourced b hb not_false
  have hfronts : ∀ m ∈ moves, (o.Fronts blocks m.1.header ↔
      ((addTerminators blocks).map (·.name)).head? = some m.1.header) := by
    intro m hm
    rw [HoistOutcome.Fronts, names_addTerminators, hpre]
    exact and_iff_left (List.mem_map_of_mem (List.mem_map_of_mem hm))
  have hnodup : (blocks.map (·.name)).Nodup := by
    rw [← names_addTerminators]
    exact hr.nodup
  constructor
  · intro stem
    obtain ⟨g', hg'⟩ := hr.exists_graph stem
    have hexplicit := hr.addTerminators_eq fun b hb hf => following_eq_none hnodup hb hf
    refine ⟨g', by rwa [hexplicit], hr.singleAssignment hg' hassigned hall, ?_⟩
    rw [hexplicit]
    intro b hb hnot
    refine hr.sourced hassigned.reachable hall hg' hb fun m hm heq hhead => hnot ?_
    rw [← heq] at hhead ⊢
    exact (hfronts m hm).2 hhead
  · intro q hq
    rw [hpre, List.mem_map] at hq
    obtain ⟨m, hm, rfl⟩ := hq
    obtain ⟨e, he, hme⟩ := hr.exists_loop hm
    refine ⟨e.1, hr.isPlanned.mem_loops he, by rw [hme, hr.header_eq he], ?_⟩
    intro b hb hname i hi hchoice x
    rw [hr.mem_labels_iff hassigned.reachable hall hm hb hname hi hchoice, hfronts m hm, hme,
      hr.mem_entering_iff he]
    tauto

def placed (blocks : List Block) : List (String × Nat × Instruction) :=
  blocks.flatMap fun b => b.instrs.zipIdx.map fun (i, k) => (b.name, k, i)

structure UsedLocally (blocks : List Block) : Prop where
  once : ∀ s ∈ placed blocks, ∀ t ∈ placed blocks, s.2.2.dest ≠ none →
    s.2.2.dest = t.2.2.dest → s = t
  uses : ∀ s ∈ placed blocks, ∀ t ∈ placed blocks, t.2.2.isChoice = false →
    ∀ x ∈ t.2.2.args, s.2.2.dest = some x → s.1 = t.1 ∧ s.2.1 < t.2.1
  operands : ∀ s ∈ placed blocks, ∀ t ∈ placed blocks, t.2.2.isChoice = true →
    ∀ y ∈ t.2.2.args.zip t.2.2.labels, s.2.2.dest = some y.1 → s.1 = y.2

theorem UsedLocally.singleAssignment (h : UsedLocally blocks)
    (hg : FlowGraph.ofBlocks blocks stem = .ok g)
    (hreach : ∀ v, v < g.size → g.graph.Reachable 0 v) : g.SingleAssignment := by
  have hgw := FlowGraph.WellFormed.of_ofBlocks hg
  have hplaced : ∀ s, g.HasSite s → s.instr.NamesVariable →
      s.node < g.size ∧ (g.nameOf s.node, s.index, s.instr) ∈ placed blocks := by
    intro s hsi hn
    have hown := FlowGraph.own_of_instrAt hg hsi hn
    obtain ⟨b, hb, hi⟩ := hsi
    refine ⟨FlowGraph.lt_size_iff.2 ⟨b, hb⟩, List.mem_flatMap.2 ⟨b,
      (FlowGraph.mem_iff_own hg).2 ⟨_, hb, hown⟩, List.mem_map.2 ⟨(s.instr, s.index), ?_, ?_⟩⟩⟩
    · exact List.mem_zipIdx_iff_getElem?.2 hi
    · rw [FlowGraph.nameOf_eq hb]
  refine ⟨hreach, fun s t x hs ht hd hd' => ?_, fun s t x hs ht hd hx hchoice => ?_,
    fun s t x p hs ht hd hchoice hp hx => ?_⟩
  · obtain ⟨hsv, hsp⟩ := hplaced s hs (.inl (by simp [hd]))
    obtain ⟨htv, htp⟩ := hplaced t ht (.inl (by simp [hd']))
    have heq := h.once _ hsp _ htp (by simp [hd]) (hd.trans hd'.symm)
    rw [Prod.mk.injEq, Prod.mk.injEq] at heq
    obtain ⟨hname, hindex, hinstr⟩ := heq
    cases s
    cases t
    rw [Site.mk.injEq]
    exact ⟨hgw.nameOf_inj hsv htv hname, hindex, hinstr⟩
  · obtain ⟨hsv, hsp⟩ := hplaced s hs (.inl (by simp [hd]))
    obtain ⟨htv, htp⟩ := hplaced t ht (.inr (List.ne_nil_of_mem hx))
    obtain ⟨hname, hlt⟩ := h.uses _ hsp _ htp hchoice x hx hd
    exact .inl ⟨hgw.nameOf_inj hsv htv hname, hlt⟩
  · obtain ⟨hsv, hsp⟩ := hplaced s hs (.inl (by simp [hd]))
    obtain ⟨-, htp⟩ := hplaced t ht (.inr (List.ne_nil_of_mem (List.of_mem_zip hx).1))
    have hname := h.operands _ hsp _ htp hchoice _ hx hd
    rw [hgw.nameOf_inj hsv hp hname]
    exact .refl _

def reachesAll (g : FlowGraph) : Bool := g.ids.all (g.graph.reachable 0).contains

theorem UsedLocally.strictSsa (h : UsedLocally blocks) (hexplicit : addTerminators blocks = blocks)
    (hreach : (FlowGraph.ofBlocks blocks stem).toOption.any reachesAll = true)
    (hlabels : ∀ b ∈ blocks, ∀ i ∈ b.instrs, i.isChoice = true →
      i.labels = (blocks.filter (·.targets.contains b.name)).map (·.name)) :
    StrictSsa stem blocks := by
  unfold StrictSsa StrictSsaBut
  rw [hexplicit]
  cases hg : FlowGraph.ofBlocks blocks stem with
  | error e => simp [hg, Except.toOption] at hreach
  | ok g =>
    refine ⟨g, rfl, h.singleAssignment hg fun v hv => ?_, fun b hb _ i hi hchoice l => ?_⟩
    · simp only [hg, Except.toOption, Option.any_some, reachesAll, List.all_eq_true] at hreach
      exact Digraph.mem_reachable.1
        (BitSet.mem_iff_contains.2 (hreach v (List.mem_range.2 hv)))
    · rw [hlabels b hb i hi hchoice]
      simp [and_assoc]

theorem accumulating_strictSsa : StrictSsa "entry" accumulating := by
  have hlocal : UsedLocally accumulating := by
    constructor <;> decide +kernel
  exact hlocal.strictSsa addTerminators_accumulating (by decide +kernel) (by decide +kernel)

theorem accumulating_keeps_strictSsa : ∃ g o, StrictSsa "entry" accumulating ∧
    FlowGraph.ofBlocks (addTerminators accumulating) "entry" = .ok g ∧
    Block.hoist {} accumulating = .ok o ∧
    (∀ stem, StrictSsaBut (o.Fronts accumulating) stem o.blocks) ∧
    ∀ q ∈ o.preheaders, ∃ l ∈ g.loops.loops, g.nameOf l.header = q.2 ∧
      ∀ b ∈ o.blocks, b.name = q.2 → ∀ i ∈ b.instrs, i.isChoice = true → ∀ x, x ∈ i.labels ↔
        (x = q.1 ∧ ¬ o.Fronts accumulating q.2) ∨ (g.Leads x q.2 ∧ g.Inside l x) := by
  obtain ⟨g, o, hg, ho, hstrict, hlabels⟩ := hoist_keeps_strictSsa {} accumulating
    accumulating_strictSsa
  exact ⟨g, o, accumulating_strictSsa, hg, ho, hstrict, hlabels⟩

/-- Code that begins in its loop, where a phi takes what the round before has left. -/
def startingInLoop : List Block :=
  [⟨"head", [.atLabel "head", .phi "x" (some (.named "int")) ["b"] ["head"],
      .constant "k" (.named "int") (.int 5), .compute "add" "b" (.named "int") ["x", "k"],
      .branch "c" "head" "done"]⟩,
    ⟨"done", [.atLabel "done", .ret []]⟩]

/-- The preheader of the first block becomes a predecessor that its phi has no label for. -/
theorem startingInLoop_not_strictSsa : StrictSsa "entry" startingInLoop ∧
    ∃ o, Block.hoist {} startingInLoop = .ok o ∧ ¬ StrictSsa "entry" o.blocks := by
  have hlocal : UsedLocally startingInLoop := by
    constructor <;> decide +kernel
  have hmisses : (Block.hoist {} startingInLoop).toOption.any (fun o =>
      (addTerminators o.blocks).any fun b => b.instrs.any fun i => i.isChoice &&
        (addTerminators o.blocks).any fun c =>
          c.targets.contains b.name && !i.labels.contains c.name) = true := by
    decide +kernel
  refine ⟨hlocal.strictSsa (by decide +kernel) (by decide +kernel) (by decide +kernel), ?_⟩
  cases ho : Block.hoist {} startingInLoop with
  | error e => simp [ho, Except.toOption] at hmisses
  | ok o =>
    simp only [ho, Except.toOption, Option.any_some, List.any_eq_true, Bool.and_eq_true,
      Bool.not_eq_true', List.contains_iff_mem] at hmisses
    obtain ⟨b, hb, i, hi, hchoice, c, hc, htarget, hnot⟩ := hmisses
    refine ⟨o, rfl, ?_⟩
    rintro ⟨g, -, -, hsourced⟩
    have hmem := (hsourced b hb not_false i hi hchoice c.name).2 ⟨c, hc, htarget, rfl⟩
    rw [List.contains_iff_mem.2 hmem] at hnot
    cases hnot

end Block

end FlowOpt
