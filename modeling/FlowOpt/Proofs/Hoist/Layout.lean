import FlowOpt.Proofs.Hoist.Preheader

/-!
# Where the code of a graph is when plans are carried out

A block of the code is found again without what was taken out of it. Its branches and phis are the
same but for their labels: an edge from outside to the header of a plan leads to the preheader, and
the phis of the header take it for the block it stands for.
-/

namespace FlowOpt

open FlowOpt.Digraph

/-- The rest of a block of a node without what is taken, with `k` instructions before it. -/
def kept (taken : List Site) (v : Nat) : Nat → List Instruction → List Instruction
  | _, [] => []
  | k, i :: rest =>
    if taken.any fun s => s.node == v && s.index == k then kept taken v (k + 1) rest
    else i :: kept taken v (k + 1) rest

variable {taken : List Site} {v w k j n : Nat} {i : Instruction} {rest instrs : List Instruction}

theorem kept_eq (taken : List Site) (v k : Nat) (instrs : List Instruction) :
    ((instrs.zipIdx k).filter fun (_, index) =>
      !taken.any fun s => s.node == v && s.index == index).map (·.1) = kept taken v k instrs := by
  induction instrs generalizing k with
  | nil => rfl
  | cons i rest ih =>
    rw [List.zipIdx_cons, kept]
    by_cases h : (taken.any fun s => s.node == v && s.index == k) = true
    · rw [if_pos h, List.filter_cons_of_neg (by simp [h]), ih]
    · rw [if_neg h, List.filter_cons_of_pos (by simpa using h), List.map_cons, ih]

theorem kept_append (before : List Instruction) : kept taken v k (before ++ rest) =
    kept taken v k before ++ kept taken v (k + before.length) rest := by
  induction before generalizing k with
  | nil => rfl
  | cons i before ih =>
    have hlen : k + (i :: before).length = k + 1 + before.length := by
      rw [List.length_cons]
      omega
    rw [List.cons_append, kept, kept, ih, hlen]
    split <;> rfl

theorem kept_sublist (taken : List Site) (v k : Nat) (instrs : List Instruction) :
    (kept taken v k instrs).Sublist instrs := by
  induction instrs generalizing k with
  | nil => exact .slnil
  | cons i rest ih =>
    unfold kept
    split
    · exact (ih (k + 1)).cons _
    · exact (ih (k + 1)).cons_cons _

theorem kept_cons_of_mem {s : Site} (hs : s ∈ taken) (hv : s.node = v) (hk : s.index = k) :
    kept taken v k (i :: rest) = kept taken v (k + 1) rest := by
  rw [kept, if_pos]
  rw [List.any_eq_true]
  exact ⟨s, hs, by simp [hv, hk]⟩

theorem kept_cons_of_not (h : ∀ s ∈ taken, s.node = v → s.index ≠ k) :
    kept taken v k (i :: rest) = i :: kept taken v (k + 1) rest := by
  rw [kept, if_neg]
  rw [List.any_eq_true]
  rintro ⟨s, hs, hat⟩
  rw [Bool.and_eq_true, beq_iff_eq, beq_iff_eq] at hat
  exact h s hs hat.1 hat.2

theorem kept_eq_self (h : ∀ s ∈ taken, s.node = v → k ≤ s.index → k + instrs.length ≤ s.index) :
    kept taken v k instrs = instrs := by
  induction instrs generalizing k with
  | nil => rfl
  | cons i rest ih =>
    rw [List.length_cons] at h
    rw [kept_cons_of_not, ih]
    · intro s hs hv hle
      have := h s hs hv (by omega)
      omega
    · intro s hs hv heq
      have := h s hs hv (by omega)
      omega

theorem getElem?_kept (hi : instrs[k]? = some i)
    (hnot : ∀ s ∈ taken, s.node = v → s.index ≠ n + k) :
    (kept taken v n instrs)[(kept taken v n (instrs.take k)).length]? = some i := by
  obtain ⟨hlt, hget⟩ := List.getElem?_eq_some_iff.1 hi
  have hparts : instrs = instrs.take k ++ i :: instrs.drop (k + 1) := by
    rw [← hget, List.getElem_cons_drop, List.take_append_drop]
  have hlen : (instrs.take k).length = k := List.length_take_of_le hlt.le
  have hkept : kept taken v n instrs =
      kept taken v n (instrs.take k) ++ i :: kept taken v (n + k + 1) (instrs.drop (k + 1)) := by
    conv_lhs => rw [hparts]
    rw [kept_append, hlen, kept_cons_of_not hnot]
  rw [hkept, List.getElem?_append_right le_rfl, Nat.sub_self, List.getElem?_cons_zero]

/-- Code that is hoisted: its graph, what is live in it, the plans with their loops and with the
names of their preheaders, and what becomes of it. -/
structure Rearranged (stem : String) (blocks : List Block) (g : FlowGraph) (live : Results)
    (planned : List PlannedLoop) (moves : List Move) (blocks' : List Block) : Prop where
  graph : FlowGraph.ofBlocks blocks stem = .ok g
  solved : g.solve (edgeLiveness g) = .ok live
  isPlanned : Planned g live g.loops.outermostFirst planned (g.planLoops live)
  sameMoves : moves.map (·.1) = planned.map (·.2)
  carried : HoistPlan.CarriedOut (g.remaining (planned.map (·.2))) moves blocks'

variable {names : HoistNames} {stem : String} {blocks blocks' : List Block} {o : HoistOutcome}
  {g : FlowGraph} {live : Results} {planned : List PlannedLoop} {moves : List Move} {b c : Block}
  {e e' : PlannedLoop} {m m' : Move} {s t : Site} {x : String}

/-- How hoisting comes about. -/
theorem Block.hoist_eq_ok_iff : Block.hoist names blocks = .ok o ↔ ∃ g live,
    FlowGraph.ofBlocks (Block.addTerminators blocks) names.entry = .ok g ∧
      g.solve (edgeLiveness g) = .ok live ∧
      g.applyPlans names.preheader (g.planLoops live).plans (g.planLoops live).skipped = o := by
  unfold Block.hoist
  cases hg : FlowGraph.ofBlocks (Block.addTerminators blocks) names.entry with
  | error e => simp [bind, Except.bind]
  | ok g =>
    cases hs : g.solve (edgeLiveness g) with
    | error e => simp [hs, bind, Except.bind]
    | ok live => simp [hs, bind, Except.bind, pure, Except.pure]

theorem exists_rearranged (h : Block.hoist names blocks = .ok o) : ∃ g live planned moves,
    Rearranged names.entry (Block.addTerminators blocks) g live planned moves o.blocks ∧
      o.preheaders = moves.map (fun m => (m.2, m.1.header)) ∧
      o.hoisted = moves.flatMap fun m =>
        m.1.sites.map fun s => ⟨g.nameOf s.node, m.2, s.instr⟩ := by
  obtain ⟨g, live, hg, hs, rfl⟩ := Block.hoist_eq_ok_iff.1 h
  obtain ⟨planned, hplanned⟩ := exists_planned g live
  obtain ⟨moves, hmoves, hcarried, hpre, hhoisted⟩ := HoistPlan.exists_carriedOut g
    names.preheader (g.planLoops live).plans
    { blocks := g.remaining (g.planLoops live).plans,
      skipped := (g.planLoops live).skipped } 0
  rw [hplanned.plans] at hmoves
  exact ⟨g, live, planned, moves, ⟨hg, hs, hplanned, hmoves, hplanned.plans ▸ hcarried⟩,
    hpre, hhoisted⟩

theorem Block.plans_of_unchanged (h : Block.hoist names blocks = .ok o) (hsame : o.changed = false) :
    ∃ g live, FlowGraph.ofBlocks (Block.addTerminators blocks) names.entry = .ok g ∧
      g.solve (edgeLiveness g) = .ok live ∧ (g.planLoops live).plans = [] ∧
      o = { blocks := g.remaining [], skipped := (g.planLoops live).skipped } := by
  obtain ⟨g, live, planned, moves, hr, -, hhoisted⟩ := exists_rearranged h
  obtain ⟨g', live', hg, hlive, ho⟩ := hoist_eq_ok_iff.1 h
  obtain rfl := Except.ok.inj (hr.graph.symm.trans hg)
  obtain rfl := Except.ok.inj (hr.solved.symm.trans hlive)
  have hplans : (g.planLoops live).plans = [] := by
    by_contra hne
    obtain ⟨p, hp⟩ := List.exists_mem_of_ne_nil _ hne
    have hmoves : moves.map (·.1) = (g.planLoops live).plans :=
      hr.sameMoves.trans hr.isPlanned.plans.symm
    obtain ⟨m, hm, rfl⟩ := List.mem_map.1 (hmoves ▸ hp)
    obtain ⟨s, hs⟩ := List.exists_mem_of_ne_nil _ (sites_ne_nil_of_mem_plans g live m.1 hp)
    have hmem : (⟨g.nameOf s.node, m.2, s.instr⟩ : Hoisted) ∈ o.hoisted :=
      hhoisted ▸ List.mem_flatMap.2 ⟨m, hm, List.mem_map_of_mem hs⟩
    rw [HoistOutcome.changed, Bool.not_eq_false', List.isEmpty_iff] at hsame
    rw [hsame] at hmem
    cases hmem
  refine ⟨g, live, hg, hlive, hplans, ?_⟩
  rw [← ho, hplans]
  rfl
namespace Rearranged

variable (h : Rearranged stem blocks g live planned moves blocks')
include h

theorem wellFormed : g.WellFormed := .of_ofBlocks h.graph

theorem exists_move (he : e ∈ planned) : ∃ m ∈ moves, m.1 = e.2 := by
  have hmem : e.2 ∈ moves.map (·.1) := by
    rw [h.sameMoves]
    exact List.mem_map_of_mem he
  exact List.mem_map.1 hmem

theorem exists_loop (hm : m ∈ moves) : ∃ e ∈ planned, m.1 = e.2 := by
  have hmem : m.1 ∈ planned.map (·.2) := by
    rw [← h.sameMoves]
    exact List.mem_map_of_mem hm
  obtain ⟨e, he, heq⟩ := List.mem_map.1 hmem
  exact ⟨e, he, heq.symm⟩

theorem mem_loops (he : e ∈ planned) :
    e.1 ∈ (LoopForest.ofGraph g.graph (.ofGraph g.graph 0)).loops :=
  (FlowGraph.mem_loops h.wellFormed).1 (h.isPlanned.mem_loops he)

theorem header_eq (he : e ∈ planned) : e.2.header = g.nameOf e.1.header := by
  obtain ⟨before, after, -, hplan⟩ := h.isPlanned.isPlan_of_mem he
  exact hplan.header

theorem not_contains_entry (he : e ∈ planned) : e.1.contains 0 = false :=
  LoopForest.not_contains_entry h.wellFormed.graph (h.mem_loops he) h.wellFormed.entry_not_succ

theorem own_of_contains (he : e ∈ planned) (hv : e.1.contains v = true) :
    (g.node? v).any (·.synthetic) = false :=
  FlowGraph.synthetic_eq_false h.graph
    (FlowGraph.ne_zero_of_contains h.wellFormed (h.isPlanned.mem_loops he) hv)

theorem header_node (he : e ∈ planned) : ∃ c, g.blocks[e.1.header]? = some c ∧
    c.name = e.2.header := by
  have hr := LoopForest.header_reachable h.wellFormed.graph (h.mem_loops he)
  have hlt : e.1.header < g.blocks.length := FlowGraph.size_eq_length g ▸ hr.lt
  have hget := List.getElem?_eq_getElem hlt
  refine ⟨_, hget, ?_⟩
  rw [h.header_eq he, FlowGraph.nameOf_eq hget]

theorem header_inj (he : e ∈ planned) (he' : e' ∈ planned) (heq : e.1.header = e'.1.header) :
    e = e' :=
  List.inj_on_of_nodup_map (f := fun e : PlannedLoop => e.1.header)
    (List.pairwise_map.2 (h.isPlanned.pairwise_header h.wellFormed)) he he' heq

/-- Plans are told by the names of their headers. -/
theorem eq_of_header (he : e ∈ planned) (hv : g.blocks[v]? = some b) (hname : b.name = e.2.header) :
    e.1.header = v := by
  obtain ⟨c, hc, hcname⟩ := h.header_node he
  exact h.wellFormed.eq_of_name_eq hc hv (hcname.trans hname.symm)

theorem pairwise_header : moves.Pairwise fun m m' => m.1.header ≠ m'.1.header := by
  have hplans : (planned.map (·.2)).Pairwise fun p p' => p.header ≠ p'.header := by
    rw [List.pairwise_map]
    have hpair := h.isPlanned.pairwise_header h.wellFormed
    apply hpair.imp_of_mem
    intro e e' he he' hne heq
    obtain ⟨c, hc, hcname⟩ := h.header_node he'
    exact hne (h.eq_of_header he hc (hcname.trans heq.symm))
  rw [← h.sameMoves, List.pairwise_map] at hplans
  exact hplans

theorem move_inj (hm : m ∈ moves) (hm' : m' ∈ moves) (heq : m.1.header = m'.1.header) :
    m = m' :=
  List.inj_on_of_nodup_map (f := fun m : Move => m.1.header)
    (List.pairwise_map.2 h.pairwise_header) hm hm' heq

omit h in
theorem map_remaining {α : Type} {nodes : List FlowNode} (hn : ∀ n ∈ nodes, n.synthetic = false)
    (k : Nat) {f : FlowNode × Nat → α} {φ : Block → α}
    (hf : ∀ e ∈ nodes.zipIdx k, f e = φ e.1.block) :
    ((nodes.zipIdx k).filter fun (n, _) => !n.synthetic).map f = (nodes.map (·.block)).map φ := by
  have hall : ∀ e ∈ nodes.zipIdx k, (!e.1.synthetic) = true := by
    intro e he
    simp [hn e.1 (List.fst_mem_of_mem_zipIdx he)]
  rw [List.filter_eq_self.2 hall, List.map_congr_left hf]
  conv_rhs => rw [← List.zipIdx_map_fst k nodes, List.map_map, List.map_map]
  rfl

/-- Taking instructions out keeps the blocks of the code, and drops the one put in front. So what
is read off the blocks behind that can be read off the blocks of the code. -/
theorem map_remaining_eq {α : Type} (plans : List HoistPlan) {ψ φ : Block → α}
    (hφ : ∀ v n, g.node? v = some n →
      ψ ⟨n.block.name, kept (plans.flatMap (·.sites)) v 0 n.block.instrs⟩ = φ n.block) :
    (g.remaining plans).map ψ = blocks.map φ := by
  obtain ⟨first, rest, front, rfl, hfront, hnodes⟩ := FlowGraph.nodes_of_ofBlocks h.graph
  have hown := FlowGraph.synthetic_annotate {} (first :: rest)
  have hkept : ∀ e ∈ g.nodes.zipIdx, ψ ⟨e.1.block.name, (e.1.block.instrs.zipIdx.filter
      fun (_, index) => !(plans.flatMap (·.sites)).any fun s => s.node == e.2 && s.index == index).map
        (·.1)⟩ = φ e.1.block := by
    rintro ⟨n, v⟩ he
    rw [kept_eq]
    refine hφ v n ?_
    simpa [FlowGraph.node?, Digraph.node?, FlowGraph.nodes] using List.mem_zipIdx_iff_getElem?.1 he
  rw [FlowGraph.remaining, List.map_map]
  rw [hnodes] at hkept ⊢
  conv_rhs => rw [← FlowGraph.map_block_annotate {} (first :: rest)]
  cases hfront with
  | none _ => exact map_remaining hown 0 hkept
  | jump name _ =>
    rw [List.singleton_append, List.zipIdx_cons] at hkept ⊢
    rw [List.filter_cons_of_neg (by simp)]
    exact map_remaining hown 1 fun e he => hkept e (List.mem_cons_of_mem _ he)

theorem names_remaining (plans : List HoistPlan) :
    (g.remaining plans).map (·.name) = blocks.map (·.name) :=
  h.map_remaining_eq plans fun _ _ _ => rfl

theorem block_mem (hv : g.blocks[v]? = some b) (hown : (g.node? v).any (·.synthetic) = false) :
    (⟨b.name, (kept (takenBy planned) v 0 b.instrs).map (HoistPlan.redirectAll moves b.name)⟩ :
      Block) ∈ blocks' := by
  have hmem : (⟨b.name, kept (takenBy planned) v 0 b.instrs⟩ : Block) ∈
      g.remaining (planned.map (·.2)) := by
    obtain ⟨n, hn, rfl⟩ := Option.map_eq_some_iff.1 ((FlowGraph.map_block_node? g v).trans hv)
    rw [hn, Option.any_some] at hown
    have hget : g.nodes[v]? = some n := by
      simpa [FlowGraph.node?, Digraph.node?, FlowGraph.nodes] using hn
    have htaken : (planned.map (·.2)).flatMap (·.sites) = takenBy planned := List.flatMap_map _ _ _
    rw [FlowGraph.remaining, List.mem_map]
    refine ⟨(n, v), List.mem_filter.2 ⟨List.mem_zipIdx_iff_getElem?.2 hget, by simp [hown]⟩, ?_⟩
    simp only [htaken, kept_eq]
  exact h.carried.mem hmem

theorem own_of_mem (hb : b ∈ blocks) : ∃ v, g.blocks[v]? = some b ∧
    (g.node? v).any (·.synthetic) = false :=
  (FlowGraph.mem_iff_own h.graph).1 hb

theorem block_of_own (hv : g.blocks[v]? = some b) (hown : (g.node? v).any (·.synthetic) = false) :
    b ∈ blocks :=
  (FlowGraph.mem_iff_own h.graph).2 ⟨v, hv, hown⟩

theorem mem_of_own (hv : g.blocks[v]? = some b) (hown : (g.node? v).any (·.synthetic) = false) :
    b.name ∈ blocks.map (·.name) :=
  List.mem_map_of_mem (h.block_of_own hv hown)

theorem within : HoistPlan.Within moves ((g.remaining (planned.map (·.2))).map (·.name)) := by
  intro m hm
  obtain ⟨e, he, heq⟩ := h.exists_loop hm
  obtain ⟨c, hc, hname⟩ := h.header_node he
  have hg := h.wellFormed
  rw [h.names_remaining, heq]
  constructor
  · rw [← hname]
    have hheader := LoopForest.contains_header hg.graph (h.mem_loops he)
    exact h.mem_of_own hc (h.own_of_contains he hheader)
  · intro x hx
    obtain ⟨before, after, -, hplan⟩ := h.isPlanned.isPlan_of_mem he
    rw [hplan.entering, List.mem_map] at hx
    obtain ⟨u, hu, rfl⟩ := hx
    obtain ⟨hu, hown⟩ := List.mem_filter.1 hu
    have hsucc := (hg.graph.symmetric u e.1.header).2 (List.mem_filter.1 hu).1
    obtain ⟨b, -, hb, -⟩ := (hg.mem_succs u e.1.header).1 hsucc
    rw [FlowGraph.nameOf_eq hb]
    exact h.mem_of_own hb (by simpa using hown)

theorem preheader_mem (hm : m ∈ moves) : m.1.preheaderBlock m.2 ∈ blocks' :=
  h.carried.preheader_mem h.within hm

theorem preheader_fresh (hm : m ∈ moves) : m.2 ∉ blocks.map (·.name) := by
  rw [← h.names_remaining (planned.map (·.2))]
  exact (h.carried.fresh h.within).1 m hm

theorem eq_of_preheader_eq (hm : m ∈ moves) (hm' : m' ∈ moves) (heq : m.2 = m'.2) : m = m' :=
  List.inj_on_of_nodup_map (f := fun m : Move => m.2)
    (List.pairwise_map.2 (h.carried.fresh h.within).2) hm hm' heq

theorem nodup : (blocks.map (·.name)).Nodup := by
  obtain ⟨-, -, -, -, hnodup, -⟩ := FlowGraph.ofBlocks_ok h.graph
  exact hnodup

theorem nodup_names : (blocks'.map (·.name)).Nodup := by
  apply h.carried.nodup_names
  rw [h.names_remaining]
  exact h.nodup

theorem block_eq {b' : Block} (hv : g.blocks[v]? = some b)
    (hown : (g.node? v).any (·.synthetic) = false) (hb' : b' ∈ blocks') (hname : b'.name = b.name) :
    b' = ⟨b.name, (kept (takenBy planned) v 0 b.instrs).map (HoistPlan.redirectAll moves b.name)⟩ :=
  List.inj_on_of_nodup_map h.nodup_names hb' (h.block_mem hv hown) hname

/-- A branch leads to a block as before where no plan is entered there. -/
theorem relabel_direct (hv : g.blocks[v]? = some b) (hown : (g.node? v).any (·.synthetic) = false)
    (hc : g.blocks[w]? = some c) (hbr : i.isBranch = true)
    (hin : ∀ e ∈ planned, e.1.header = w → e.1.contains v = true) :
    HoistPlan.relabelAll moves b.name i c.name = c.name := by
  apply HoistPlan.relabelAll_of_isBranch hbr
  intro m hm hname hmem
  obtain ⟨e, he, heq⟩ := h.exists_loop hm
  rw [heq] at hmem hname
  have hout := ((h.isPlanned.mem_entering h.wellFormed he hv hown).1 hmem).2
  rw [hin e he (h.eq_of_header he hc hname.symm)] at hout
  cases hout

theorem relabel_of_mem {name l : String} (hm : m ∈ moves)
    (hl : (i.isBranch = true ∧ name ∈ m.1.entering ∧ l = m.1.header) ∨
      (i.isPhi = true ∧ name = m.1.header ∧ l ∈ m.1.entering)) :
    HoistPlan.relabelAll moves name i l = m.2 := by
  apply HoistPlan.relabelAll_of_mem hm hl
  · rintro m' hm' (⟨hbr, -, heq⟩ | ⟨hphi, heq, -⟩)
    · rcases hl with ⟨-, -, hl⟩ | ⟨hphi, -⟩
      · rw [h.move_inj hm' hm (heq.symm.trans hl)]
      · rw [HoistPlan.isPhi_eq_false_of_isBranch hbr] at hphi
        cases hphi
    · rcases hl with ⟨hbr, -⟩ | ⟨-, hl, -⟩
      · rw [HoistPlan.isPhi_eq_false_of_isBranch hbr] at hphi
        cases hphi
      · rw [h.move_inj hm' hm (heq.symm.trans hl)]
  · intro m' hm'
    have hwithin := h.within m' hm'
    have hnew := h.preheader_fresh hm
    rw [h.names_remaining] at hwithin
    constructor
    · intro heq
      exact hnew (heq ▸ hwithin.1)
    · intro hmem
      exact hnew (hwithin.2 _ hmem)

/-- Only a plan that is about a phi and its label leads the label to a preheader. -/
theorem mem_entering_of_relabel {name l : String} (hm : m ∈ moves) (hphi : i.isPhi = true)
    (hl : l ∈ blocks.map (·.name)) (heq : HoistPlan.relabelAll moves name i l = m.2) :
    l ∈ m.1.entering := by
  by_contra hnot
  by_cases hsome : ∃ m' ∈ moves, name = m'.1.header ∧ l ∈ m'.1.entering
  · obtain ⟨m', hm', hname, hmem⟩ := hsome
    have hto := h.relabel_of_mem hm' (.inr ⟨hphi, hname, hmem⟩)
    obtain rfl := h.eq_of_preheader_eq hm' hm (hto.symm.trans heq)
    exact hnot hmem
  · have hsame : HoistPlan.relabelAll moves name i l = l :=
      HoistPlan.relabelAll_of_isPhi hphi fun m' hm' hname hmem => hsome ⟨m', hm', hname, hmem⟩
    exact h.preheader_fresh hm (heq.symm.trans hsame ▸ hl)

/-- A branch from outside to the header of a plan leads to the preheader. -/
theorem relabel_entering (hm : m ∈ moves) (he : e ∈ planned) (hme : m.1 = e.2)
    (hv : g.blocks[v]? = some b) (hown : (g.node? v).any (·.synthetic) = false)
    (hc : g.blocks[e.1.header]? = some c) (hbr : i.isBranch = true)
    (hs : e.1.header ∈ g.graph.succs v) (hout : e.1.contains v = false) :
    HoistPlan.relabelAll moves b.name i c.name = m.2 := by
  apply h.relabel_of_mem hm
  left
  rw [hme, h.header_eq he, FlowGraph.nameOf_eq hc]
  exact ⟨hbr, (h.isPlanned.mem_entering h.wellFormed he hv hown).2 ⟨hs, hout⟩, rfl⟩

theorem operand_direct (hv : g.blocks[v]? = some b) (hown : (g.node? v).any (·.synthetic) = false)
    (hc : g.blocks[w]? = some c) (hphi : i.isPhi = true)
    (hin : ∀ e ∈ planned, e.1.header = w → e.1.header ∈ g.graph.succs v → e.1.contains v = true) :
    Execution.operand? (some b.name) (HoistPlan.redirectAll moves c.name i) =
      Execution.operand? (some b.name) i := by
  rw [HoistPlan.redirectAll_eq]
  apply Execution.operand?_map_labels
  intro l _
  have hsame : HoistPlan.relabelAll moves c.name i b.name = b.name := by
    apply HoistPlan.relabelAll_of_isPhi hphi
    intro m hm hname hmem
    obtain ⟨e, he, heq⟩ := h.exists_loop hm
    rw [heq] at hmem hname
    obtain ⟨hs, hout⟩ := (h.isPlanned.mem_entering h.wellFormed he hv hown).1 hmem
    rw [hin e he (h.eq_of_header he hc hname) hs] at hout
    cases hout
  constructor
  · intro heq
    rcases HoistPlan.relabelAll_cases moves c.name i l with hl | ⟨m, hm, hl⟩
    · exact hl.symm.trans heq
    · exact absurd (hl.symm.trans heq ▸ h.mem_of_own hv hown) (h.preheader_fresh hm)
  · rintro rfl
    exact hsame

/-- The phis of a header read behind its preheader what they read from the block that was left. -/
theorem operand_entering (hm : m ∈ moves) (he : e ∈ planned) (hme : m.1 = e.2)
    (hv : g.blocks[v]? = some b) (hown : (g.node? v).any (·.synthetic) = false)
    (hc : g.blocks[e.1.header]? = some c) (hi : i ∈ c.operations) (hphi : i.isPhi = true)
    (hlabels : ∀ l ∈ i.labels, l ∈ blocks.map (·.name))
    (hs : e.1.header ∈ g.graph.succs v) (hout : e.1.contains v = false) :
    Execution.operand? (some m.2) (HoistPlan.redirectAll moves c.name i) =
      Execution.operand? (some b.name) i := by
  have hg := h.wellFormed
  obtain ⟨before, after, -, hplan⟩ := h.isPlanned.isPlan_of_mem he
  have hname : c.name = m.1.header := by rw [hme, h.header_eq he, FlowGraph.nameOf_eq hc]
  -- The header has a phi, so it is entered from this block only.
  have hone : ∀ l ∈ m.1.entering, l = b.name := by
    intro l hl
    have hve : v ∈ e.1.entering g.graph :=
      List.mem_filter.2 ⟨(hg.graph.symmetric v _).1 hs, by simp [hout]⟩
    rw [hme, hplan.entering, List.mem_map] at hl
    obtain ⟨u, hu, rfl⟩ := hl
    rw [hplan.entering_unique (FlowGraph.hasPhi_of_mem hc hi hphi) (List.mem_filter.1 hu).1 hve,
      FlowGraph.nameOf_eq hv]
  have hmem : b.name ∈ m.1.entering := by
    rw [hme]
    exact (h.isPlanned.mem_entering hg he hv hown).2 ⟨hs, hout⟩
  rw [HoistPlan.redirectAll_eq]
  apply Execution.operand?_map_labels
  intro l hl
  constructor
  · intro heq
    by_contra hne
    have hsame : HoistPlan.relabelAll moves c.name i l = l := by
      apply HoistPlan.relabelAll_of_isPhi hphi
      intro m' hm' hname' hmem'
      obtain rfl := h.move_inj hm' hm (hname'.symm.trans hname)
      exact hne (hone l hmem')
    exact h.preheader_fresh hm (heq.symm.trans hsame ▸ hlabels l hl)
  · rintro rfl
    exact h.relabel_of_mem hm (.inr ⟨hphi, hname, hmem⟩)

end Rearranged

end FlowOpt
