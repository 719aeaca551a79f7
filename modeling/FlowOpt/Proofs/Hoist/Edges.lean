import FlowOpt.Proofs.Except
import FlowOpt.Proofs.FlowGraph.Targets
import FlowOpt.Proofs.Hoist.Remainder

/-!
# Which edges hoisting changes

The code behind a hoisting makes a graph again. A preheader stands directly before its header and
leads there alone; the edges that entered the loop at its header enter the preheader, and every
other edge is as it was.
-/

namespace FlowOpt

def FlowGraph.Inside (g : FlowGraph) (l : NaturalLoop) (name : String) : Prop :=
  ∃ v b, g.blocks[v]? = some b ∧ b.name = name ∧ l.contains v = true

namespace Rearranged

variable {stem stem' : String} {blocks blocks' : List Block} {g g' : FlowGraph} {live : Results}
  {planned : List PlannedLoop} {moves : List Move} {m : Move} {b : Block} {e : PlannedLoop}
  {a c t : String} {v : Nat}
  (h : Rearranged stem blocks g live planned moves blocks')
include h

theorem mem_names : t ∈ blocks'.map (·.name) ↔ t ∈ blocks.map (·.name) ∨ ∃ m ∈ moves, t = m.2 := by
  rw [h.carried.mem_names h.within, h.names_remaining]

theorem mem_blocks : b ∈ blocks' ↔
    (∃ v c, g.blocks[v]? = some c ∧ (g.node? v).any (·.synthetic) = false ∧
      b = movedBlock planned moves v c) ∨ ∃ m ∈ moves, b = m.1.preheaderBlock m.2 := by
  constructor
  · intro hb
    rcases h.mem_names.1 (List.mem_map_of_mem hb) with hold | ⟨m, hm, hname⟩
    · obtain ⟨c, hc, hname⟩ := List.mem_map.1 hold
      obtain ⟨v, hv, hown⟩ := h.own_of_mem hc
      exact .inl ⟨v, c, hv, hown, h.block_eq hv hown hb hname.symm⟩
    · exact .inr ⟨m, hm, List.inj_on_of_nodup_map h.nodup_names hb (h.preheader_mem hm) hname⟩
  · rintro (⟨v, c, hv, hown, rfl⟩ | ⟨m, hm, rfl⟩)
    · exact h.movedBlock_mem hv hown
    · exact h.preheader_mem hm

theorem mem_kept_of_isBranch {i : Instruction} (hv : g.blocks[v]? = some b) (hi : i ∈ b.instrs)
    (hbr : i.isBranch = true) : i ∈ kept (takenBy planned) v 0 b.instrs := by
  obtain ⟨k, hk⟩ := List.mem_iff_getElem?.1 hi
  have hmovable : i.isMovable = false := by
    by_contra hm
    have hterm := Instruction.isTerminator_of_isMovable (Bool.not_eq_false _ ▸ hm)
    rw [Instruction.isTerminator_of_isBranch hbr] at hterm
    cases hterm
  have hnot := h.not_taken ⟨b, hv, hk⟩ hmovable
  exact List.mem_of_getElem? (getElem?_kept hk fun s hs hsv => (Nat.zero_add k).symm ▸ hnot s hs hsv)

theorem mem_targets_movedBlock (hv : g.blocks[v]? = some b) :
    t ∈ (movedBlock planned moves v b).targets ↔
      (∃ m ∈ moves, t = m.2 ∧ m.1.header ∈ b.targets ∧ b.name ∈ m.1.entering) ∨
        (t ∈ b.targets ∧ ∀ m ∈ moves, m.1.header = t → b.name ∉ m.1.entering) := by
  simp only [Block.mem_targets, movedBlock, List.mem_map]
  constructor
  · rintro ⟨_, ⟨i, hi, rfl⟩, hbr, ht⟩
    rw [HoistPlan.redirectAll_eq] at hbr ht
    obtain ⟨l, hl, rfl⟩ := List.mem_map.1 ht
    have hib := (kept_sublist _ v 0 b.instrs).subset hi
    by_cases hm : ∃ m ∈ moves, m.1.header = l ∧ b.name ∈ m.1.entering
    · obtain ⟨m, hm, rfl, hmem⟩ := hm
      exact .inl ⟨m, hm, h.relabel_of_mem hm (.inl ⟨hbr, hmem, rfl⟩), ⟨i, hib, hbr, hl⟩, hmem⟩
    · have hnot : ∀ m ∈ moves, m.1.header = l → b.name ∉ m.1.entering :=
        fun m hm' hl hmem => hm ⟨m, hm', hl, hmem⟩
      rw [HoistPlan.relabelAll_of_isBranch (i := i) hbr hnot]
      exact .inr ⟨⟨i, hib, hbr, hl⟩, hnot⟩
  · rintro (⟨m, hm, rfl, ⟨i, hi, hbr, hl⟩, hmem⟩ | ⟨⟨i, hi, hbr, ht⟩, hnot⟩)
    · refine ⟨_, ⟨i, h.mem_kept_of_isBranch hv hi hbr, rfl⟩, ?_⟩
      rw [HoistPlan.redirectAll_eq]
      exact ⟨hbr, List.mem_map.2 ⟨_, hl, h.relabel_of_mem hm (.inl ⟨hbr, hmem, rfl⟩)⟩⟩
    · refine ⟨_, ⟨i, h.mem_kept_of_isBranch hv hi hbr, rfl⟩, ?_⟩
      rw [HoistPlan.redirectAll_eq]
      exact ⟨hbr, List.mem_map.2 ⟨_, ht, HoistPlan.relabelAll_of_isBranch (i := i) hbr hnot⟩⟩

theorem mem_targets_preheaderBlock (hm : m ∈ moves) :
    t ∈ (m.1.preheaderBlock m.2).targets ↔ t = m.1.header := by
  obtain ⟨e, he, hme⟩ := h.exists_loop hm
  have hsites : ∀ s ∈ m.1.sites, s.instr.isBranch = false := by
    intro s hs
    by_contra hbr
    have hterm := Instruction.isTerminator_of_isBranch (Bool.not_eq_false _ ▸ hbr)
    rw [Instruction.isTerminator_of_isMovable
      (h.isMovable_of_taken (mem_takenBy.2 ⟨e, he, hme ▸ hs⟩))] at hterm
    cases hterm
  simp only [Block.mem_targets, HoistPlan.preheaderBlock, Block.labeled, List.mem_cons,
    List.mem_append, List.mem_map, List.not_mem_nil, or_false]
  constructor
  · rintro ⟨i, rfl | ⟨s, hs, rfl⟩ | rfl, hbr, ht⟩
    · cases hbr
    · rw [hsites s hs] at hbr
      cases hbr
    · simpa [Instruction.jump] using ht
  · rintro rfl
    exact ⟨_, .inr (.inr rfl), rfl, List.mem_singleton_self _⟩

theorem mem_entering_iff (he : e ∈ planned) :
    a ∈ e.2.entering ↔ g.Leads a e.2.header ∧ ¬ g.Inside e.1 a := by
  have hg := h.wellFormed
  obtain ⟨c, hc, hname⟩ := h.header_node he
  have hinside : ∀ {v b}, g.blocks[v]? = some b → (g.Inside e.1 b.name ↔ e.1.contains v = true) := by
    intro v b hv
    constructor
    · rintro ⟨w, d, hw, hd, hin⟩
      rwa [← hg.eq_of_name_eq hw hv hd]
    · exact fun hin => ⟨v, b, hv, rfl, hin⟩
  constructor
  · intro ha
    obtain ⟨m, hm, hme⟩ := h.exists_move he
    have hmem := (h.within m hm).2 a (hme ▸ ha)
    rw [h.names_remaining] at hmem
    obtain ⟨b, hb, rfl⟩ := List.mem_map.1 hmem
    obtain ⟨v, hv, hown⟩ := h.own_of_mem hb
    obtain ⟨hs, hout⟩ := (h.isPlanned.mem_entering hg he hv hown).1 ha
    refine ⟨⟨v, _, b, hv, hown, rfl, hs, (h.header_eq he).symm⟩, ?_⟩
    rw [hinside hv, hout]
    exact Bool.false_ne_true
  · rintro ⟨⟨v, w, b, hv, hown, rfl, hs, hw⟩, hout⟩
    obtain ⟨-, d, -, hd, -⟩ := (hg.mem_succs v w).1 hs
    rw [FlowGraph.nameOf_eq hd] at hw
    obtain rfl := h.eq_of_header he hd hw
    rw [hinside hv, Bool.not_eq_true] at hout
    exact (h.isPlanned.mem_entering hg he hv hown).2 ⟨hs, hout⟩

theorem exists_graph (stem' : String) : ∃ g', FlowGraph.ofBlocks blocks' stem' = .ok g' := by
  have hheader : ∀ m ∈ moves, m.1.header ∈ blocks'.map (·.name) := by
    intro m hm
    have hmem := (h.within m hm).1
    rw [h.names_remaining] at hmem
    exact h.mem_names.2 (.inl hmem)
  have htargets : ∀ b ∈ blocks', ∀ t ∈ b.targets, t ∈ blocks'.map (·.name) := by
    intro b hb t ht
    rcases h.mem_blocks.1 hb with ⟨v, c, hv, hown, rfl⟩ | ⟨m, hm, rfl⟩
    · rcases (h.mem_targets_movedBlock hv).1 ht with ⟨m, hm, rfl, -⟩ | ⟨ht, -⟩
      · exact h.mem_names.2 (.inr ⟨m, hm, rfl⟩)
      · obtain ⟨-, -, -, -, -, hknown, -⟩ := FlowGraph.ofBlocks_ok h.graph
        exact h.mem_names.2 (.inl (hknown c (h.block_of_own hv hown) t ht))
    · rw [(h.mem_targets_preheaderBlock hm).1 ht]
      exact hheader m hm
  obtain ⟨first, rest, -, rfl, -⟩ := FlowGraph.ofBlocks_ok h.graph
  obtain ⟨v, hv, hown⟩ := h.own_of_mem (b := first) List.mem_cons_self
  have hmem := h.block_mem hv hown
  cases blocks' with
  | nil => simp at hmem
  | cons first' rest' => exact FlowGraph.ofBlocks_isOk h.nodup_names htargets

/-- All edges behind the move: from preheaders to their headers, from what enters to preheaders, and
every other one of the code. -/
theorem leads_iff (hg' : FlowGraph.ofBlocks blocks' stem' = .ok g') : g'.Leads a c ↔
    (∃ m ∈ moves, a = m.2 ∧ c = m.1.header) ∨ (∃ m ∈ moves, a ∈ m.1.entering ∧ c = m.2) ∨
      (g.Leads a c ∧ ∀ m ∈ moves, m.1.header = c → a ∉ m.1.entering) := by
  rw [FlowGraph.leads_iff hg', FlowGraph.leads_iff h.graph]
  constructor
  · rintro ⟨b', hb', rfl, ht⟩
    rcases h.mem_blocks.1 hb' with ⟨v, b, hv, hown, rfl⟩ | ⟨m, hm, rfl⟩
    · rcases (h.mem_targets_movedBlock hv).1 ht with ⟨m, hm, rfl, -, hmem⟩ | ⟨ht, hnot⟩
      · exact .inr (.inl ⟨m, hm, hmem, rfl⟩)
      · exact .inr (.inr ⟨⟨b, h.block_of_own hv hown, rfl, ht⟩, hnot⟩)
    · exact .inl ⟨m, hm, rfl, (h.mem_targets_preheaderBlock hm).1 ht⟩
  · rintro (⟨m, hm, rfl, rfl⟩ | ⟨m, hm, hmem, rfl⟩ | ⟨⟨b, hb, rfl, ht⟩, hnot⟩)
    · exact ⟨_, h.preheader_mem hm, rfl, (h.mem_targets_preheaderBlock hm).2 rfl⟩
    · obtain ⟨e, he, hme⟩ := h.exists_loop hm
      have hlead := ((h.mem_entering_iff he).1 (hme ▸ hmem)).1
      rw [← hme, FlowGraph.leads_iff h.graph] at hlead
      obtain ⟨b, hb, rfl, ht⟩ := hlead
      obtain ⟨v, hv, hown⟩ := h.own_of_mem hb
      exact ⟨_, h.movedBlock_mem hv hown, rfl,
        (h.mem_targets_movedBlock hv).2 (.inl ⟨m, hm, rfl, ht, hmem⟩)⟩
    · obtain ⟨v, hv, hown⟩ := h.own_of_mem hb
      exact ⟨_, h.movedBlock_mem hv hown, rfl,
        (h.mem_targets_movedBlock hv).2 (.inr ⟨ht, hnot⟩)⟩

end Rearranged

/-- How the edges of hoisted code compare with those of the code: `o` is what the hoisting leaves
behind, `g` the graph of the code and `g'` that of the hoisted code. A block put in front of either
counts for nothing. -/
structure Rewired (blocks : List Block) (o : HoistOutcome) (g g' : FlowGraph) : Prop where
  fresh : ∀ m ∈ o.preheaders, m.1 ∉ blocks.map (·.name)
  precedes : ∀ m ∈ o.preheaders, [m.1, m.2] <:+: o.blocks.map (·.name)
  first : ∀ m ∈ o.preheaders, (blocks.map (·.name)).head? = some m.2 →
    (o.blocks.map (·.name)).head? = some m.1
  leaves : ∀ m ∈ o.preheaders, ∀ c, g'.Leads m.1 c ↔ c = m.2
  enters : ∀ m ∈ o.preheaders, ∃ l ∈ g.loops.loops, g.nameOf l.header = m.2 ∧
    (∀ a, g'.Leads a m.1 ↔ g.Leads a m.2 ∧ ¬ g.Inside l a) ∧
    ∀ a, g'.Leads a m.2 ↔ a = m.1 ∨ (g.Leads a m.2 ∧ g.Inside l a)
  others : ∀ a c, (∀ m ∈ o.preheaders, a ≠ m.1 ∧ c ≠ m.1 ∧ c ≠ m.2) →
    (g'.Leads a c ↔ g.Leads a c)

namespace Rearranged

variable {stem stem' : String} {blocks blocks' : List Block} {g g' : FlowGraph} {live : Results}
  {planned : List PlannedLoop} {moves : List Move} {m : Move} {a c : String} {e : PlannedLoop}
  (h : Rearranged stem blocks g live planned moves blocks')
include h

theorem not_leads_from (hm : m ∈ moves) : ¬ g.Leads m.2 c := by
  rw [FlowGraph.leads_iff h.graph]
  rintro ⟨b, hb, hname, -⟩
  exact h.preheader_fresh hm (hname ▸ List.mem_map_of_mem hb)

theorem not_leads_to (hm : m ∈ moves) : ¬ g.Leads a m.2 := by
  rw [FlowGraph.leads_iff h.graph]
  obtain ⟨-, -, -, -, -, hknown, -⟩ := FlowGraph.ofBlocks_ok h.graph
  rintro ⟨b, hb, -, ht⟩
  exact h.preheader_fresh hm (hknown b hb _ ht)

theorem preheader_ne {m' : Move} (hm : m ∈ moves) (hm' : m' ∈ moves) :
    m.2 ≠ m'.1.header ∧ m.2 ∉ m'.1.entering := by
  have hwithin := h.within m' hm'
  rw [h.names_remaining] at hwithin
  exact ⟨fun heq => h.preheader_fresh hm (heq ▸ hwithin.1),
    fun hmem => h.preheader_fresh hm (hwithin.2 _ hmem)⟩

variable (hg' : FlowGraph.ofBlocks blocks' stem' = .ok g')
include hg'

theorem leads_from_preheader (hm : m ∈ moves) : g'.Leads m.2 c ↔ c = m.1.header := by
  rw [h.leads_iff hg']
  constructor
  · rintro (⟨m', hm', heq, rfl⟩ | ⟨m', hm', hmem, -⟩ | ⟨hlead, -⟩)
    · rw [h.eq_of_preheader_eq hm hm' heq]
    · exact absurd hmem (h.preheader_ne hm hm').2
    · exact absurd hlead (h.not_leads_from hm)
  · rintro rfl
    exact .inl ⟨m, hm, rfl, rfl⟩

theorem leads_to_preheader (hm : m ∈ moves) : g'.Leads a m.2 ↔ a ∈ m.1.entering := by
  rw [h.leads_iff hg']
  constructor
  · rintro (⟨m', hm', -, heq⟩ | ⟨m', hm', hmem, heq⟩ | ⟨hlead, -⟩)
    · exact absurd heq (h.preheader_ne hm hm').1
    · rwa [h.eq_of_preheader_eq hm hm' heq]
    · exact absurd hlead (h.not_leads_to hm)
  · exact fun hmem => .inr (.inl ⟨m, hm, hmem, rfl⟩)

theorem leads_to_header (hm : m ∈ moves) :
    g'.Leads a m.1.header ↔ a = m.2 ∨ (g.Leads a m.1.header ∧ a ∉ m.1.entering) := by
  rw [h.leads_iff hg']
  constructor
  · rintro (⟨m', hm', rfl, heq⟩ | ⟨m', hm', -, heq⟩ | ⟨hlead, hnot⟩)
    · exact .inl (by rw [h.move_inj hm hm' heq])
    · exact absurd heq.symm (h.preheader_ne hm' hm).1
    · exact .inr ⟨hlead, hnot m hm rfl⟩
  · rintro (rfl | ⟨hlead, hnot⟩)
    · exact .inl ⟨m, hm, rfl, rfl⟩
    · refine .inr (.inr ⟨hlead, fun m' hm' heq => ?_⟩)
      rwa [h.move_inj hm' hm heq]

theorem leads_elsewhere
    (hnot : ∀ m ∈ moves, a ≠ m.2 ∧ c ≠ m.2 ∧ c ≠ m.1.header) : g'.Leads a c ↔ g.Leads a c := by
  rw [h.leads_iff hg']
  constructor
  · rintro (⟨m, hm, heq, -⟩ | ⟨m, hm, -, heq⟩ | ⟨hlead, -⟩)
    · exact absurd heq (hnot m hm).1
    · exact absurd heq (hnot m hm).2.1
    · exact hlead
  · exact fun hlead => .inr (.inr ⟨hlead, fun m hm heq => absurd heq.symm (hnot m hm).2.2⟩)

end Rearranged

namespace Block

/-- Hoisted code makes a graph again, whose edges are those of the code but for the ones that enter
a loop with a preheader: they lead to the preheader, and from there to the header. -/
theorem hoist_rewires (names : HoistNames) (stem : String) (blocks : List Block) (o : HoistOutcome)
    (h : Block.hoist names blocks = .ok o) :
    ∃ g g', FlowGraph.ofBlocks (addTerminators blocks) names.entry = .ok g ∧
      FlowGraph.ofBlocks o.blocks stem = .ok g' ∧ Rewired blocks o g g' := by
  obtain ⟨g, live, planned, moves, hr, hpre, -⟩ := exists_rearranged h
  obtain ⟨g', hg'⟩ := hr.exists_graph stem
  have hmoves : ∀ q ∈ o.preheaders, ∃ m ∈ moves, q = (m.2, m.1.header) := by
    intro q hq
    rw [hpre] at hq
    obtain ⟨m, hm, rfl⟩ := List.mem_map.1 hq
    exact ⟨m, hm, rfl⟩
  have hnames := hr.names_remaining (planned.map (·.2))
  refine ⟨g, g', hr.graph, hg', ?_⟩
  constructor
  · intro q hq
    obtain ⟨m, hm, rfl⟩ := hmoves q hq
    rw [← names_addTerminators]
    exact hr.preheader_fresh hm
  · intro q hq
    obtain ⟨m, hm, rfl⟩ := hmoves q hq
    exact hr.carried.infix_names hr.within hr.pairwise_header hm
  · intro q hq hhead
    obtain ⟨m, hm, rfl⟩ := hmoves q hq
    rw [← names_addTerminators, ← hnames] at hhead
    exact hr.carried.head_of_header hr.within hr.pairwise_header hhead hm
  · intro q hq c
    obtain ⟨m, hm, rfl⟩ := hmoves q hq
    exact hr.leads_from_preheader hg' hm
  · intro q hq
    obtain ⟨m, hm, rfl⟩ := hmoves q hq
    obtain ⟨e, he, hme⟩ := hr.exists_loop hm
    refine ⟨e.1, hr.isPlanned.mem_loops he, by rw [hme, hr.header_eq he], fun a => ?_, fun a => ?_⟩
    · rw [hr.leads_to_preheader hg' hm, hme, hr.mem_entering_iff he]
    · rw [hr.leads_to_header hg' hm, hme, hr.mem_entering_iff he]
      tauto
  · intro a c hnot
    apply hr.leads_elsewhere hg'
    intro m hm
    exact hnot (m.2, m.1.header) (hpre ▸ List.mem_map_of_mem hm)

def enteredTwice : List Block :=
  [⟨"b0", [.branch "p" "side" "head"]⟩,
    ⟨"side", [.atLabel "side", .branch "q" "head" "head"]⟩,
    ⟨"head", [.atLabel "head", .constant "k" (.named "int") (.int 7),
      .branch "p" "head" "done"]⟩,
    ⟨"done", [.atLabel "done", .ret ["k"]]⟩]

theorem enteredTwice_rewires : ∃ o g g', Block.hoist {} enteredTwice = .ok o ∧
    o.preheaders = [("preheader.0", "head")] ∧
    FlowGraph.ofBlocks (addTerminators enteredTwice) "entry" = .ok g ∧
    FlowGraph.ofBlocks o.blocks "entry" = .ok g' ∧ Rewired enteredTwice o g g' := by
  have houtcome : (Block.hoist {} enteredTwice).toOption.map (·.preheaders) =
      some [("preheader.0", "head")] := by
    decide +kernel
  obtain ⟨o, ho, hpre⟩ := exists_of_toOption_map houtcome
  obtain ⟨g, g', hg, hg', hrewired⟩ := hoist_rewires {} "entry" enteredTwice o ho
  exact ⟨o, g, g', ho, hpre, hg, hg', hrewired⟩

end Block

end FlowOpt
