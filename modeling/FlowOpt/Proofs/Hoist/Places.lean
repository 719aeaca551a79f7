import FlowOpt.Proofs.Graph.Rerouting
import FlowOpt.Proofs.Hoist.Rejoin

/-!
# Where the nodes are in the graph of hoisted code

The nodes of the code are found again under their names, and its entry stays the entry: the block
put in front is put there again, unless the preheader of the first block has come there. Every other
preheader is a new node that the edges into its loop are led through.
-/

namespace FlowOpt

open FlowOpt.Digraph

namespace FlowGraph

variable {g : FlowGraph} {blocks : List Block} {stem : String} {b c : Block} {first : Block}
  {rest : List Block}

/-- The node of the same name in another graph; entries are told by their place. -/
def placeIn (g g' : FlowGraph) (v : Nat) : Nat := if v = 0 then 0 else g'.names.idxOf (g.nameOf v)

theorem WellFormed.getElem?_idxOf (hg : g.WellFormed) (hb : b ∈ g.blocks) :
    g.blocks[g.names.idxOf b.name]? = some b := by
  obtain ⟨v, hv⟩ := List.mem_iff_getElem?.1 hb
  have hmem : b.name ∈ g.names := names_eq g ▸ List.mem_map_of_mem hb
  have hname : g.names[v]? = some b.name := by rw [names_eq, List.getElem?_map, hv]; rfl
  rwa [(idxOf_eq_iff hg.names_nodup hmem).2 hname]

/-- A graph begins with the first block that it is made of, unless something leads there; then it
begins with a block of a new name that only leads there. -/
theorem front_cases (h : ofBlocks (first :: rest) stem = .ok g) :
    (g.blocks = first :: rest ∧ (g.node? 0).any (·.synthetic) = false ∧
      ∀ b ∈ first :: rest, first.name ∉ b.targets) ∨
    ∃ c, g.blocks = c :: first :: rest ∧ (g.node? 0).any (·.synthetic) = true ∧
      c.name ∉ (first :: rest).map (·.name) ∧ (∀ t, t ∈ c.targets ↔ t = first.name) ∧
      ∃ b ∈ first :: rest, first.name ∈ b.targets := by
  by_cases hnot : ∀ b ∈ first :: rest, first.name ∉ b.targets
  · left
    have hnodes := nodes_of_untargeted h hnot
    refine ⟨by rw [FlowGraph.blocks, hnodes, map_block_annotate], ?_, hnot⟩
    rw [← getElem?_nodes, hnodes]
    rfl
  · right
    push Not at hnot
    obtain ⟨first', rest', heq, -, -, -, hgraph⟩ := ofBlocks_eq_ok h
    obtain ⟨rfl, rfl⟩ := List.cons.inj heq
    have hfresh := freshIndex_not_mem (numbered_injective stem) ((first :: rest).map (·.name)) 0
    rw [entryNode?, if_pos] at hgraph
    · have hnodes := nodes_of_ofEdges hgraph
      refine ⟨_, by rw [FlowGraph.blocks, hnodes, List.map_append, map_block_annotate]; rfl, ?_,
        hfresh, fun t => by simp, hnot⟩
      rw [← getElem?_nodes, hnodes]
      rfl
    · obtain ⟨b, hb, ht⟩ := hnot
      exact List.any_eq_true.2 ⟨b, hb, List.contains_iff_mem.2 ht⟩

theorem front_of_synthetic (h : ofBlocks (first :: rest) stem = .ok g)
    (hsyn : (g.node? 0).any (·.synthetic) = true) :
    g.blocks[1]? = some first ∧ (∀ w, w ∈ g.graph.succs 0 ↔ w = 1) ∧
      ∃ b ∈ first :: rest, first.name ∈ b.targets := by
  rcases front_cases h with ⟨-, hown, -⟩ | ⟨front, hblocks, -, -, hleads, htarget⟩
  · rw [hsyn] at hown
    cases hown
  · have hzero : g.blocks[0]? = some front := by rw [hblocks]; rfl
    have hone : g.blocks[1]? = some first := by rw [hblocks]; rfl
    exact ⟨hone, fun w => (WellFormed.of_ofBlocks h).mem_succs_of_target hzero hone hleads, htarget⟩

end FlowGraph

/-- The node of the preheader that is put in front of the header `h`, unless that is the entry. -/
def PreheaderAt (planned : List PlannedLoop) (moves : List Move) (g' : FlowGraph) (h d : Nat) :
    Prop :=
  d ≠ 0 ∧ ∃ m ∈ moves, ∃ e ∈ planned, m.1 = e.2 ∧ e.1.header = h ∧
    g'.blocks[d]? = some (m.1.preheaderBlock m.2)

def PreheaderOf (moves : List Move) (g' : FlowGraph) (p : HoistPlan) (d : Nat) : Prop :=
  ∃ m ∈ moves, m.1 = p ∧ g'.blocks[d]? = some (m.1.preheaderBlock m.2)

theorem preheaderAt_iff_exists {planned : List PlannedLoop} {moves : List Move} {g' : FlowGraph}
    {k d : Nat} : PreheaderAt planned moves g' k d ↔
      d ≠ 0 ∧ ∃ e ∈ planned, e.1.header = k ∧ PreheaderOf moves g' e.2 d := by
  refine and_congr_right fun _ => ⟨?_, ?_⟩
  · rintro ⟨m, hm, e, he, hme, hk, hd⟩
    exact ⟨e, he, hk, m, hm, hme, hd⟩
  · rintro ⟨e, he, hk, m, hm, hme, hd⟩
    exact ⟨m, hm, e, he, hme, hk, hd⟩

/-- The entry of moved code is a new block. It leads to the block that comes second in the graph of
the code, or to the preheader of that block if the preheader is not itself the entry. -/
def EntryLed (planned : List PlannedLoop) (moves : List Move) (blocks : List Block)
    (g g' : FlowGraph) : Prop :=
  (∃ c, g'.blocks[0]? = some c ∧ c.name ∉ blocks.map (·.name)) ∧
    (((∀ u, u ∈ g'.graph.succs 0 ↔ u = g.placeIn g' 1) ∧
        ∀ d, ¬ PreheaderAt planned moves g' 1 d) ∨
      ∃ d, PreheaderAt planned moves g' 1 d ∧ ∀ u, u ∈ g'.graph.succs 0 ↔ u = d)

namespace Rearranged

variable {stem stem' : String} {blocks blocks' : List Block} {g g' : FlowGraph} {live : Results}
  {planned : List PlannedLoop} {moves : List Move} {m : Move} {b c : Block}
  {e e' : PlannedLoop} {d k u v w : Nat}
  (h : Rearranged stem blocks g live planned moves blocks')
  (hg' : FlowGraph.ofBlocks blocks' stem' = .ok g')
include h

/-- What leads to a block that is no header of a plan still leads there. -/
theorem exists_targets {t : String} (hb : b ∈ blocks) (ht : t ∈ b.targets)
    (hnot : ∀ m ∈ moves, m.1.header ≠ t) : ∃ c ∈ blocks', t ∈ c.targets := by
  obtain ⟨v, hv, hown⟩ := h.own_of_mem hb
  exact ⟨_, h.movedBlock_mem hv hown, (h.mem_targets_movedBlock hv).2
    (.inr ⟨ht, fun m hm heq => absurd heq (hnot m hm)⟩)⟩

/-- Moved code begins with the block that the code begins with, or with its preheader. -/
theorem head_cases {first : Block} {rest : List Block} (hblocks : blocks = first :: rest) :
    ∃ c more, blocks' = c :: more ∧
      ((c.name = first.name ∧ ∀ m ∈ moves, m.1.header ≠ first.name) ∨
        ∃ m ∈ moves, m.1.header = first.name ∧ c = m.1.preheaderBlock m.2) := by
  have hhead : ((g.remaining (planned.map (·.2))).map (·.name)).head? = some first.name := by
    rw [h.names_remaining, hblocks]
    rfl
  have hcons : ∀ x, (blocks'.map (·.name)).head? = some x →
      ∃ c more, blocks' = c :: more ∧ c.name = x := by
    intro x hx
    obtain ⟨rest', hrest⟩ := List.head?_eq_some_iff.1 hx
    obtain ⟨c, more, rfl, hc, -⟩ := List.map_eq_cons_iff.1 hrest
    exact ⟨c, more, rfl, hc⟩
  by_cases hm : ∃ m ∈ moves, m.1.header = first.name
  · obtain ⟨m, hm, hheader⟩ := hm
    obtain ⟨c, more, hblocks', hname⟩ := hcons m.2
      (h.carried.head_of_header h.within h.pairwise_header (hheader ▸ hhead) hm)
    refine ⟨c, more, hblocks', .inr ⟨m, hm, hheader, ?_⟩⟩
    exact List.inj_on_of_nodup_map h.nodup_names (hblocks' ▸ List.mem_cons_self)
      (h.preheader_mem hm) hname
  · push Not at hm
    obtain ⟨c, more, hblocks', hname⟩ := hcons first.name
      (h.carried.head_of_not_header hhead hm)
    exact ⟨c, more, hblocks', .inl ⟨hname, hm⟩⟩

include hg'

theorem entry_own (hown : (g.node? 0).any (·.synthetic) = false) (hb : g.blocks[0]? = some b) :
    g'.blocks[0]? = some (movedBlock planned moves 0 b) := by
  obtain ⟨first, rest, -, rfl, -, -⟩ := FlowGraph.blocks_of_ofBlocks h.graph
  rcases FlowGraph.front_cases h.graph with ⟨hblocks, -, hnot⟩ | ⟨c, -, hsyn, -⟩
  · obtain rfl : first = b := by simpa [hblocks] using hb
    have hheader : ∀ m ∈ moves, m.1.header ≠ first.name := by
      intro m hm heq
      obtain ⟨c, hc, ht⟩ := h.exists_target_header hm
      exact hnot c hc (heq ▸ ht)
    obtain ⟨c, more, rfl, ⟨hname, -⟩ | ⟨m, hm, heq, -⟩⟩ := h.head_cases rfl
    · have hc := h.block_eq hb hown List.mem_cons_self hname
      rcases FlowGraph.front_cases hg' with ⟨hblocks', -⟩ | ⟨-, -, -, -, -, d, hd, ht⟩
      · rw [hblocks', hc]
        rfl
      · rw [hname] at ht
        rcases h.mem_blocks.1 hd with ⟨v, d, hv, hdown, rfl⟩ | ⟨m, hm, rfl⟩
        · rcases (h.mem_targets_movedBlock hv).1 ht with ⟨m, hm, heq, -⟩ | ⟨ht, -⟩
          · exact absurd (heq ▸ by simp) (h.preheader_fresh hm)
          · exact absurd ht (hnot d (h.block_of_own hv hdown))
        · exact absurd ((h.mem_targets_preheaderBlock hm).1 ht).symm (hheader m hm)
    · exact absurd heq (hheader m hm)
  · rw [hown] at hsyn
    cases hsyn

theorem getElem?_placeIn (hv : g.blocks[v]? = some b)
    (hown : (g.node? v).any (·.synthetic) = false) :
    g'.blocks[g.placeIn g' v]? = some (movedBlock planned moves v b) := by
  unfold FlowGraph.placeIn
  split
  · next hzero =>
    subst hzero
    exact h.entry_own hg' hown hv
  · obtain ⟨u, hu, -⟩ := (FlowGraph.mem_iff_own hg').1 (h.movedBlock_mem hv hown)
    rw [FlowGraph.nameOf_eq hv]
    exact (FlowGraph.WellFormed.of_ofBlocks hg').getElem?_idxOf (List.mem_of_getElem? hu)

section EntryLed

variable {first : Block} (hone : g.blocks[1]? = some first)
include hone

omit hg' in
theorem exists_move_of_preheaderAt (hd : PreheaderAt planned moves g' 1 d) :
    ∃ m ∈ moves, m.1.header = first.name ∧ g'.blocks[d]? = some (m.1.preheaderBlock m.2) := by
  obtain ⟨-, m, hm, e, he, hme, heq, hd⟩ := hd
  obtain ⟨c, hc, hname⟩ := h.header_node he
  obtain rfl := Option.some.inj (hone.symm.trans (heq ▸ hc))
  exact ⟨m, hm, by rw [hme, hname], hd⟩

theorem entryLed_of_not_header {more : List Block} (hblocks' : blocks' = c :: more)
    (hname : c.name = first.name) (hnot : ∀ m ∈ moves, m.1.header ≠ first.name)
    (hb : b ∈ blocks) (ht : first.name ∈ b.targets) : EntryLed planned moves blocks g g' := by
  have hplace := h.getElem?_placeIn hg' hone (FlowGraph.synthetic_eq_false h.graph Nat.one_ne_zero)
  subst hblocks'
  rcases FlowGraph.front_cases hg' with ⟨-, -, huntargeted⟩ |
    ⟨front, hfront, -, hfresh, hleads, -⟩
  · obtain ⟨d, hd, htd⟩ := h.exists_targets hb ht hnot
    exact absurd (hname ▸ htd) (huntargeted d hd)
  · have hzero : g'.blocks[0]? = some front := by rw [hfront]; rfl
    refine ⟨⟨front, hzero, fun hmem => hfresh (h.mem_names.2 (.inl hmem))⟩,
      .inl ⟨fun u => ?_, fun d hd => ?_⟩⟩
    · exact (FlowGraph.WellFormed.of_ofBlocks hg').mem_succs_of_target hzero hplace (hname ▸ hleads)
    · obtain ⟨m, hm, heq, -⟩ := h.exists_move_of_preheaderAt hone hd
      exact hnot m hm heq

theorem entryLed_of_header {more : List Block}
    (hblocks' : blocks' = m.1.preheaderBlock m.2 :: more) (hm : m ∈ moves)
    (heq : m.1.header = first.name) : EntryLed planned moves blocks g g' := by
  have hgw' := FlowGraph.WellFormed.of_ofBlocks hg'
  have hplace := h.getElem?_placeIn hg' hone (FlowGraph.synthetic_eq_false h.graph Nat.one_ne_zero)
  subst hblocks'
  rcases FlowGraph.front_cases hg' with ⟨hfront, -⟩ | ⟨front, hfront, -, hfresh, hleads, -⟩
  · have hzero : g'.blocks[0]? = some (m.1.preheaderBlock m.2) := by rw [hfront]; rfl
    refine ⟨⟨_, hzero, h.preheader_fresh hm⟩, .inl ⟨fun u => ?_, fun d hd => ?_⟩⟩
    · refine hgw'.mem_succs_of_target hzero hplace fun t => ?_
      rw [h.mem_targets_preheaderBlock hm, heq]
      rfl
    · obtain ⟨m', hm', heq', hd'⟩ := h.exists_move_of_preheaderAt hone hd
      obtain rfl := h.move_inj hm hm' (heq.trans heq'.symm)
      exact hd.1 (hgw'.eq_of_name_eq hd' hzero rfl)
  · have hzero : g'.blocks[0]? = some front := by rw [hfront]; rfl
    have hone' : g'.blocks[1]? = some (m.1.preheaderBlock m.2) := by rw [hfront]; rfl
    obtain ⟨e, he, hme⟩ := h.exists_loop hm
    have hheader : e.1.header = 1 := h.eq_of_header he hone (by rw [← heq, hme])
    refine ⟨⟨front, hzero, fun hmem => hfresh (h.mem_names.2 (.inl hmem))⟩,
      .inr ⟨1, ⟨Nat.one_ne_zero, m, hm, e, he, hme, hheader, hone'⟩, fun u => ?_⟩⟩
    exact hgw'.mem_succs_of_target hzero hone' hleads

end EntryLed

/-- A block that was put in front leads to the first block. The entry is then new again, and it
leads there or to the preheader of the first block. -/
theorem entry_led (hsyn : (g.node? 0).any (·.synthetic) = true) :
    (∀ w, w ∈ g.graph.succs 0 ↔ w = 1) ∧ EntryLed planned moves blocks g g' := by
  obtain ⟨first, rest, -, rfl, -, -⟩ := FlowGraph.blocks_of_ofBlocks h.graph
  obtain ⟨hone, hsuccs, b, hb, ht⟩ := FlowGraph.front_of_synthetic h.graph hsyn
  refine ⟨hsuccs, ?_⟩
  obtain ⟨c, more, hblocks', ⟨hname, hnot⟩ | ⟨m, hm, heq, rfl⟩⟩ := h.head_cases rfl
  · exact h.entryLed_of_not_header hg' hone hblocks' hname hnot hb ht
  · exact h.entryLed_of_header hg' hone hblocks' hm heq

theorem placeIn_cases (hv : v < g.size) :
    (∃ b, g.blocks[v]? = some b ∧ (g.node? v).any (·.synthetic) = false ∧
      g'.blocks[g.placeIn g' v]? = some (movedBlock planned moves v b)) ∨
    (v = 0 ∧ (g.node? 0).any (·.synthetic) = true) := by
  obtain ⟨b, hb⟩ := FlowGraph.lt_size_iff.1 hv
  cases hown : (g.node? v).any (·.synthetic) with
  | false => exact .inl ⟨b, hb, rfl, h.getElem?_placeIn hg' hb hown⟩
  | true =>
    have hzero := FlowGraph.eq_zero_of_synthetic h.graph hown
    exact .inr ⟨hzero, hzero ▸ hown⟩

theorem placeIn_lt (hv : v < g.size) : g.placeIn g' v < g'.size := by
  rcases h.placeIn_cases hg' hv with ⟨b, -, -, hb⟩ | ⟨rfl, hsyn⟩
  · exact FlowGraph.lt_size_iff.2 ⟨_, hb⟩
  · exact (FlowGraph.WellFormed.of_ofBlocks hg').nonempty

theorem placeIn_inj (hv : v < g.size) (hw : w < g.size)
    (heq : g.placeIn g' v = g.placeIn g' w) : v = w := by
  have hg := h.wellFormed
  have hnew : ∀ {u b}, g.blocks[u]? = some b → (g.node? u).any (·.synthetic) = false →
      g'.blocks[g.placeIn g' u]? = some (movedBlock planned moves u b) →
      (g.node? 0).any (·.synthetic) = true → g.placeIn g' u ≠ 0 := by
    intro u b hu hown hplace hsyn hzero
    obtain ⟨-, ⟨c, hc, hname⟩, -⟩ := h.entry_led hg' hsyn
    obtain rfl := Option.some.inj (hc.symm.trans (hzero ▸ hplace))
    have hmem := h.mem_of_own hu hown
    exact hname hmem
  rcases h.placeIn_cases hg' hv with ⟨b, hb, hown, hplace⟩ | ⟨rfl, hsyn⟩
  · rcases h.placeIn_cases hg' hw with ⟨c, hc, -, hplace'⟩ | ⟨rfl, hsyn⟩
    · rw [heq] at hplace
      have hsame := Option.some.inj (hplace.symm.trans hplace')
      have hnames : (movedBlock planned moves v b).name = (movedBlock planned moves w c).name :=
        congrArg Block.name hsame
      exact hg.eq_of_name_eq hb hc hnames
    · exact absurd heq (hnew hb hown hplace hsyn)
  · rcases h.placeIn_cases hg' hw with ⟨c, hc, hown, hplace⟩ | ⟨rfl, -⟩
    · exact absurd heq.symm (hnew hc hown hplace hsyn)
    · rfl

/-- The edges of a block of the code lead where they led, but for those that enter a loop with a
plan. -/
theorem placeIn_mem_succs (hv : g.blocks[v]? = some b)
    (hown : (g.node? v).any (·.synthetic) = false) (hw : w < g.size) :
    g.placeIn g' w ∈ g'.graph.succs (g.placeIn g' v) ↔
      w ∈ g.graph.succs v ∧ ∀ e ∈ planned, e.1.header = w → e.1.contains v = true := by
  have hg := h.wellFormed
  have hgw' := FlowGraph.WellFormed.of_ofBlocks hg'
  have hplace := h.getElem?_placeIn hg' hv hown
  by_cases hzero : w = 0
  · subst hzero
    exact iff_of_false (hgw'.entry_not_succ _) fun hs => hg.entry_not_succ v hs.1
  have hownw := FlowGraph.synthetic_eq_false h.graph hzero
  obtain ⟨c, hc⟩ := FlowGraph.lt_size_iff.1 hw
  have hplacew := h.getElem?_placeIn hg' hc hownw
  have hsucc := hg.mem_succs_iff hv hc
  have hsucc' : g.placeIn g' w ∈ g'.graph.succs (g.placeIn g' v) ↔
      (movedBlock planned moves w c).name ∈ (movedBlock planned moves v b).targets :=
    hgw'.mem_succs_iff hplace hplacew
  change _ ↔ c.name ∈ _ at hsucc'
  rw [hsucc', hsucc, h.mem_targets_movedBlock hv]
  constructor
  · rintro (⟨m, hm, heq, -⟩ | ⟨ht, hnot⟩)
    · exact absurd (heq ▸ h.mem_of_own hc hownw) (h.preheader_fresh hm)
    · refine ⟨ht, fun e he heq => ?_⟩
      obtain ⟨m, hm, hme⟩ := h.exists_move he
      obtain ⟨d, hd, hname⟩ := h.header_node he
      obtain rfl := Option.some.inj (hc.symm.trans (heq ▸ hd))
      by_contra hout
      refine hnot m hm (by rw [hme, hname]) ?_
      rw [hme, h.isPlanned.mem_entering hg he hv hown]
      exact ⟨heq ▸ hsucc.2 ht, by simpa using hout⟩
  · rintro ⟨ht, hin⟩
    refine .inr ⟨ht, fun m hm heq hmem => ?_⟩
    obtain ⟨e, he, hme⟩ := h.exists_loop hm
    rw [hme, h.isPlanned.mem_entering hg he hv hown] at hmem
    rw [hin e he (h.eq_of_header he hc (by rw [← heq, hme]))] at hmem
    cases hmem.2

/-- The edges of a block that enter a loop with a plan lead to its preheader. -/
theorem mem_succs_preheader (hv : g.blocks[v]? = some b)
    (hown : (g.node? v).any (·.synthetic) = false) (hm : m ∈ moves) (he : e ∈ planned)
    (hme : m.1 = e.2) (hd : g'.blocks[d]? = some (m.1.preheaderBlock m.2)) :
    d ∈ g'.graph.succs (g.placeIn g' v) ↔
      e.1.header ∈ g.graph.succs v ∧ e.1.contains v = false := by
  have hg := h.wellFormed
  have hplace := h.getElem?_placeIn hg' hv hown
  rw [← h.isPlanned.mem_entering hg he hv hown,
    (FlowGraph.WellFormed.of_ofBlocks hg').mem_succs]
  constructor
  · rintro ⟨b', c', hb', hc', ht⟩
    obtain rfl := Option.some.inj (hplace.symm.trans hb')
    obtain rfl := Option.some.inj (hd.symm.trans hc')
    rcases (h.mem_targets_movedBlock hv).1 ht with ⟨m', hm', heq, -, hmem⟩ | ⟨ht, -⟩
    · obtain rfl := h.eq_of_preheader_eq hm hm' heq
      exact hme ▸ hmem
    · obtain ⟨-, -, -, -, -, hknown, -⟩ := FlowGraph.ofBlocks_ok h.graph
      exact absurd (hknown b (h.block_of_own hv hown) _ ht) (h.preheader_fresh hm)
  · intro hmem
    refine ⟨_, _, hplace, hd, (h.mem_targets_movedBlock hv).2 (.inl ⟨m, hm, rfl, ?_, hme ▸ hmem⟩)⟩
    obtain ⟨hs, -⟩ := (h.isPlanned.mem_entering hg he hv hown).1 hmem
    obtain ⟨b', c, hb', hc, ht⟩ := (hg.mem_succs _ _).1 hs
    obtain rfl := Option.some.inj (hv.symm.trans hb')
    rw [hme, h.header_eq he, FlowGraph.nameOf_eq hc]
    exact ht

theorem exists_preheaderAt (he : e ∈ planned) (hv : g.blocks[v]? = some b)
    (hown : (g.node? v).any (·.synthetic) = false) (hs : e.1.header ∈ g.graph.succs v)
    (hout : e.1.contains v = false) :
    ∃ d, PreheaderAt planned moves g' e.1.header d ∧ d ∈ g'.graph.succs (g.placeIn g' v) := by
  obtain ⟨m, hm, hme⟩ := h.exists_move he
  obtain ⟨d, hd, -⟩ := (FlowGraph.mem_iff_own hg').1 (h.preheader_mem hm)
  have hmem := (h.mem_succs_preheader hg' hv hown hm he hme hd).2 ⟨hs, hout⟩
  refine ⟨d, ⟨?_, m, hm, e, he, hme, rfl, hd⟩, hmem⟩
  rintro rfl
  exact (FlowGraph.WellFormed.of_ofBlocks hg').entry_not_succ _ hmem

omit hg' in
theorem eq_of_plan_eq (he : e ∈ planned) (he' : e' ∈ planned) (heq : e.2 = e'.2) : e = e' := by
  obtain ⟨c, hc, hname⟩ := h.header_node he'
  exact h.header_inj he he' (h.eq_of_header he hc (by rw [hname, heq]))

omit hg' in
theorem eq_of_preheaderOf (he : e ∈ planned) (he' : e' ∈ planned)
    (hd : PreheaderOf moves g' e.2 d) (hd' : PreheaderOf moves g' e'.2 d) : e = e' := by
  obtain ⟨m, hm, hme, hd⟩ := hd
  obtain ⟨m', hm', hme', hd'⟩ := hd'
  have hname := congrArg Block.name (Option.some.inj (hd.symm.trans hd'))
  obtain rfl := h.eq_of_preheader_eq hm hm' hname
  exact h.eq_of_plan_eq he he' (hme.symm.trans hme')

section PreheaderOf

variable (hd : PreheaderOf moves g' e.2 d)
include hd

theorem preheaderOf_unique {d' : Nat} (hd' : PreheaderOf moves g' e.2 d') : d = d' := by
  obtain ⟨m, hm, hme, hd⟩ := hd
  obtain ⟨m', hm', hme', hd'⟩ := hd'
  obtain rfl := h.move_inj hm hm' (by rw [hme, hme'])
  exact (FlowGraph.WellFormed.of_ofBlocks hg').eq_of_name_eq hd hd' rfl

theorem preheaderOf_ne_placeIn (hv : g.blocks[v]? = some b)
    (hown : (g.node? v).any (·.synthetic) = false) : d ≠ g.placeIn g' v := by
  rintro rfl
  obtain ⟨m, hm, -, hd⟩ := hd
  have hname : b.name = m.2 :=
    congrArg Block.name (Option.some.inj ((h.getElem?_placeIn hg' hv hown).symm.trans hd))
  exact h.preheader_fresh hm (hname ▸ h.mem_of_own hv hown)

theorem mem_succs_of_preheaderOf (he : e ∈ planned) :
    u ∈ g'.graph.succs d ↔ u = g.placeIn g' e.1.header := by
  obtain ⟨m, hm, hme, hd⟩ := hd
  obtain ⟨c, hc, hname⟩ := h.header_node he
  have hin := LoopForest.contains_header h.wellFormed.graph (h.mem_loops he)
  refine (FlowGraph.WellFormed.of_ofBlocks hg').mem_succs_of_target hd
    (h.getElem?_placeIn hg' hc (h.own_of_contains he hin)) fun t => ?_
  rw [h.mem_targets_preheaderBlock hm, hme, ← hname]
  rfl

end PreheaderOf

section PreheaderAt

variable (hd : PreheaderAt planned moves g' k d)
include hd

theorem not_preheaderAt_placeIn (hv : v < g.size) : d ≠ g.placeIn g' v := by
  obtain ⟨hne, e, -, -, hof⟩ := preheaderAt_iff_exists.1 hd
  rcases h.placeIn_cases hg' hv with ⟨b, hb, hown, -⟩ | ⟨rfl, -⟩
  · exact h.preheaderOf_ne_placeIn hg' hof hb hown
  · exact hne

omit hg' in
theorem header_eq_of_preheaderAt {k' : Nat} (hd' : PreheaderAt planned moves g' k' d) :
    k = k' := by
  obtain ⟨-, e, he, rfl, hof⟩ := preheaderAt_iff_exists.1 hd
  obtain ⟨-, e', he', rfl, hof'⟩ := preheaderAt_iff_exists.1 hd'
  rw [h.eq_of_preheaderOf he he' hof hof']

theorem preheaderAt_unique {d' : Nat} (hd' : PreheaderAt planned moves g' k d') : d = d' := by
  obtain ⟨-, e, he, rfl, hof⟩ := preheaderAt_iff_exists.1 hd
  obtain ⟨-, e', he', heq, hof'⟩ := preheaderAt_iff_exists.1 hd'
  obtain rfl := h.header_inj he' he heq
  exact h.preheaderOf_unique hg' hof hof'

omit hg' in
theorem loopAt_of_preheaderAt : ∃ e ∈ planned, e.1 = LoopForest.loopAt g.graph 0 k := by
  obtain ⟨-, -, -, e, he, -, rfl, -⟩ := hd
  exact ⟨e, he, (LoopForest.eq_loopAt (h.mem_loops he)).1⟩

end PreheaderAt

theorem placeIn_mem_succs_iff (hv : v < g.size) (hw : w < g.size) :
    g.placeIn g' w ∈ g'.graph.succs (g.placeIn g' v) ↔ w ∈ g.graph.succs v ∧
      ∀ d, PreheaderAt planned moves g' w d →
        (LoopForest.loopAt g.graph 0 w).contains v = true := by
  have hg := h.wellFormed
  rcases h.placeIn_cases hg' hv with ⟨b, hb, hown, -⟩ | ⟨rfl, hsyn⟩
  · rw [h.placeIn_mem_succs hg' hb hown hw]
    refine and_congr_right fun hs => ⟨fun hin d hd => ?_, fun hin e he heq => ?_⟩
    · obtain ⟨-, -, -, e, he, -, rfl, -⟩ := hd
      exact (LoopForest.eq_loopAt (h.mem_loops he)).1 ▸ hin e he rfl
    · subst heq
      by_contra hout
      rw [Bool.not_eq_true] at hout
      obtain ⟨d, hd, -⟩ := h.exists_preheaderAt hg' he hb hown hs hout
      have hin' := hin d hd
      rw [← (LoopForest.eq_loopAt (h.mem_loops he)).1, hout] at hin'
      cases hin'
  · obtain ⟨hsuccs, -, ⟨hplace, hnone⟩ | ⟨d, hd, hdoor⟩⟩ := h.entry_led hg' hsyn
    · have hone : 1 < g.size := (hg.graph.succs_lt 0 1 ((hsuccs 1).2 rfl)).2
      change _ ∈ g'.graph.succs 0 ↔ _
      rw [hsuccs, hplace]
      constructor
      · intro hs
        obtain rfl := h.placeIn_inj hg' hw hone hs
        exact ⟨rfl, fun d hd => absurd hd (hnone d)⟩
      · rintro ⟨rfl, -⟩
        rfl
    · change _ ∈ g'.graph.succs 0 ↔ _
      rw [hsuccs, hdoor]
      constructor
      · intro hs
        exact absurd hs.symm (h.not_preheaderAt_placeIn hg' hd hw)
      · rintro ⟨rfl, hin⟩
        obtain ⟨e, he, heq⟩ := h.loopAt_of_preheaderAt hd
        have hin' := hin d hd
        rw [← heq, h.not_contains_entry he] at hin'
        cases hin'

theorem preheaderAt_mem_succs_iff (hv : v < g.size) (hd : PreheaderAt planned moves g' k d) :
    d ∈ g'.graph.succs (g.placeIn g' v) ↔
      k ∈ g.graph.succs v ∧ (LoopForest.loopAt g.graph 0 k).contains v = false := by
  rcases h.placeIn_cases hg' hv with ⟨b, hb, hown, -⟩ | ⟨rfl, hsyn⟩
  · obtain ⟨-, m, hm, e, he, hme, rfl, hd⟩ := hd
    rw [← (LoopForest.eq_loopAt (h.mem_loops he)).1]
    exact h.mem_succs_preheader hg' hb hown hm he hme hd
  · obtain ⟨e, he, heq⟩ := h.loopAt_of_preheaderAt hd
    rw [← heq, h.not_contains_entry he, and_iff_left rfl]
    change _ ∈ g'.graph.succs 0 ↔ _
    obtain ⟨hsuccs, -, ⟨hplace, hnone⟩ | ⟨d', hd', hdoor⟩⟩ := h.entry_led hg' hsyn
    · have hone : 1 < g.size :=
        (h.wellFormed.graph.succs_lt 0 1 ((hsuccs 1).2 rfl)).2
      rw [hsuccs, hplace]
      constructor
      · exact fun hs => absurd hs (h.not_preheaderAt_placeIn hg' hd hone)
      · rintro rfl
        exact absurd hd (hnone d)
    · rw [hsuccs, hdoor]
      constructor
      · rintro rfl
        exact h.header_eq_of_preheaderAt hd hd'
      · rintro rfl
        exact h.preheaderAt_unique hg' hd hd'

theorem mem_succs_of_preheaderAt (hd : PreheaderAt planned moves g' k d) :
    u ∈ g'.graph.succs d ↔ u = g.placeIn g' k := by
  obtain ⟨-, e, he, rfl, hof⟩ := preheaderAt_iff_exists.1 hd
  exact h.mem_succs_of_preheaderOf hg' hof he

theorem node_cases (hu : u < g'.size) :
    (∃ v, v < g.size ∧ u = g.placeIn g' v) ∨ ∃ k, PreheaderAt planned moves g' k u := by
  by_cases hzero : u = 0
  · exact .inl ⟨0, h.wellFormed.nonempty, hzero⟩
  · obtain ⟨c, hc⟩ := FlowGraph.lt_size_iff.1 hu
    have hmem := (FlowGraph.mem_iff_own hg').2 ⟨u, hc, FlowGraph.synthetic_eq_false hg' hzero⟩
    rcases h.mem_blocks.1 hmem with ⟨v, b, hv, hown, rfl⟩ | ⟨m, hm, rfl⟩
    · exact .inl ⟨v, FlowGraph.lt_size_iff.2 ⟨b, hv⟩,
        (FlowGraph.WellFormed.of_ofBlocks hg').eq_of_name_eq hc (h.getElem?_placeIn hg' hv hown) rfl⟩
    · obtain ⟨e, he, hme⟩ := h.exists_loop hm
      exact .inr ⟨_, hzero, m, hm, e, he, hme, rfl, hc⟩

/-- The graph of the moved code is that of the code with loops entered through preheaders. -/
theorem rerouted : Rerouted g.graph g'.graph (g.placeIn g') (PreheaderAt planned moves g') where
  nonempty := h.wellFormed.nonempty
  entry := rfl
  lt _ := h.placeIn_lt hg'
  inj _ _ := h.placeIn_inj hg'
  isLoop k d hd := by
    obtain ⟨e, he, heq⟩ := h.loopAt_of_preheaderAt hd
    obtain ⟨-, m, -, -, -, -, -, hblock⟩ := hd
    exact ⟨heq ▸ h.mem_loops he, FlowGraph.lt_size_iff.2 ⟨_, hblock⟩⟩
  apart _ _ hv hd := h.not_preheaderAt_placeIn hg' hd hv rfl
  header _ _ _ hd hd' := h.header_eq_of_preheaderAt hd hd'
  cover _ := h.node_cases hg'
  direct _ _ := h.placeIn_mem_succs_iff hg'
  enters _ _ _ := h.preheaderAt_mem_succs_iff hg'
  leaves _ _ _ := h.mem_succs_of_preheaderAt hg'

end Rearranged

end FlowOpt
