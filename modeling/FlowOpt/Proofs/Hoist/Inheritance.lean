import FlowOpt.Proofs.Pass.Conservation

/-!
# What is marked is hoisted once

What is invariant in a loop is invariant in the loops inside it. So the loops that mark an
instruction lie around one another as far as one holds the header of the other, and it is hoisted
for one of them only: the first that is not skipped, where outer loops come first.
-/

namespace FlowOpt

variable {stem : String} {blocks blocks' : List Block} {g : FlowGraph} {live : Results}
  {planned : List PlannedLoop} {moves : List Move} {k : NaturalLoop} {s : Site}

theorem FlowGraph.skipped_applyPlans (g : FlowGraph) (stem : String) (plans : List HoistPlan)
    (skipped : List String) : (g.applyPlans stem plans skipped).skipped = skipped :=
  List.foldlRecOn (motive := fun r : HoistOutcome × Nat => r.1.skipped = skipped) plans _ rfl
    fun _ hr _ _ => hr

/-- What hoisting makes of what is marked: `origins` are the hoisted instructions with the sites
they stood at. -/
structure HoistOutcome.HoistsMarked (g : FlowGraph) (live : Results) (o : HoistOutcome)
    (origins : List (Hoisted × Site)) : Prop where
  hoisted : origins.map (·.1) = o.hoisted
  origin : ∀ e ∈ origins, g.HasSite e.2 ∧ e.1.block = g.nameOf e.2.node ∧ e.1.instr = e.2.instr
  /-- No site is hoisted from twice. -/
  distinct : (origins.map (·.2)).Nodup
  /-- A preheader belongs to one loop, and a loop has one preheader. -/
  preheaders : (o.preheaders.map (·.1)).Nodup ∧ (o.preheaders.map (·.2)).Nodup
  placed : ∀ q ∈ o.preheaders,
    (⟨q.1, .atLabel q.1 :: ((o.movedTo q.1).map (·.instr) ++ [.jump q.2])⟩ : Block) ∈ o.blocks
  /-- What is marked for a loop that is not skipped goes to the first such loop. -/
  first : ∀ l ∈ g.loops.loops, g.nameOf l.header ∉ o.skipped →
    ∀ s ∈ l.invariants g (g.liveAtHeader live l), ∃ k preheader,
      g.firstToMark? live o.skipped s = some k ∧ (preheader, g.nameOf k.header) ∈ o.preheaders ∧
        (⟨g.nameOf s.node, preheader, s.instr⟩, s) ∈ origins
  /-- Nothing else is hoisted. -/
  marked : ∀ e ∈ origins, ∃ l ∈ g.loops.loops, g.nameOf l.header ∉ o.skipped ∧
    e.2 ∈ l.invariants g (g.liveAtHeader live l)

def sitesOf (g : FlowGraph) (moves : List Move) : List (Hoisted × Site) :=
  moves.flatMap fun m => m.1.sites.map fun s => (⟨g.nameOf s.node, m.2, s.instr⟩, s)

namespace Rearranged

variable (h : Rearranged stem blocks g live planned moves blocks')
include h

theorem map_snd_sitesOf : (sitesOf g moves).map (·.2) = takenBy planned := by
  rw [h.takenBy_eq, sitesOf, List.map_flatMap]
  simp [Function.comp_def]

theorem mem_takenBy_of_sitesOf {e : Hoisted × Site} (he : e ∈ sitesOf g moves) :
    e.2 ∈ takenBy planned := by
  rw [← h.map_snd_sitesOf]
  exact List.mem_map_of_mem he

/-- What the first loop to mark it takes is hoisted to the preheader of that loop. -/
theorem exists_preheader_of_first
    (hk : g.firstToMark? live (g.planLoops live).skipped s = some k) :
    ∃ m ∈ moves, m.1.header = g.nameOf k.header ∧ s ∈ m.1.sites := by
  obtain ⟨e, he, rfl, hse⟩ := h.isPlanned.exists_taken_first h.wellFormed hk
  obtain ⟨m, hm, hme⟩ := h.exists_move he
  exact ⟨m, hm, hme ▸ h.header_eq he, hme ▸ hse⟩

theorem hoistsMarked {o : HoistOutcome} (hblocks : o.blocks = blocks')
    (hpre : o.preheaders = moves.map fun m => (m.2, m.1.header))
    (hhoisted : o.hoisted = moves.flatMap fun m =>
      m.1.sites.map fun s => ⟨g.nameOf s.node, m.2, s.instr⟩)
    (hskipped : o.skipped = (g.planLoops live).skipped) :
    o.HoistsMarked g live (sitesOf g moves) := by
  constructor
  case hoisted => exact (map_fst_hoisted id).trans hhoisted.symm
  case origin =>
    intro e he
    refine ⟨h.hasSite_of_taken (h.mem_takenBy_of_sitesOf he), ?_⟩
    obtain ⟨m, -, he⟩ := List.mem_flatMap.1 he
    obtain ⟨s, -, rfl⟩ := List.mem_map.1 he
    exact ⟨rfl, rfl⟩
  case distinct => exact h.map_snd_sitesOf ▸ h.nodup_takenBy
  case preheaders =>
    rw [hpre, List.map_map, List.map_map]
    exact ⟨List.pairwise_map.2 (h.carried.fresh h.within).2, List.pairwise_map.2 h.pairwise_header⟩
  case placed => exact fun q hq => hblocks ▸ h.preheader_holds hpre hhoisted hq
  case first =>
    intro l hl hskip s hs
    obtain ⟨k, hk⟩ := exists_firstToMark hl hskip hs
    obtain ⟨m, hm, hheader, hsm⟩ := h.exists_preheader_of_first (hskipped ▸ hk)
    refine ⟨k, m.2, hk, ?_, List.mem_flatMap.2 ⟨m, hm, List.mem_map.2 ⟨s, hsm, rfl⟩⟩⟩
    rw [hpre, ← hheader]
    exact List.mem_map_of_mem hm
  case marked =>
    intro e he
    obtain ⟨p, hp, hs⟩ := mem_takenBy.1 (h.mem_takenBy_of_sitesOf he)
    exact ⟨p.1, h.isPlanned.mem_loops hp, hskipped ▸ h.isPlanned.not_skipped h.wellFormed hp,
      h.isPlanned.mem_invariants hp hs⟩

end Rearranged

/-- What is marked for a loop is marked for the loops inside that hold it. -/
def FlowGraph.Inherits (g : FlowGraph) (live : Results) : Prop :=
  ∀ l ∈ g.loops.loops, ∀ k ∈ g.loops.loops, l.header ≠ k.header → l.contains k.header = true →
    ∀ s ∈ l.invariants g (g.liveAtHeader live l), k.contains s.node = true →
      s ∈ k.invariants g (g.liveAtHeader live k)

/-- In every graph what is marked for a loop is marked for the loops inside it. So what is marked
for a loop that is not skipped is hoisted once, to the preheader of the first such loop. -/
theorem FlowGraph.invariants_inherited {stem : String} {blocks : List Block} {g : FlowGraph}
    (hg : FlowGraph.ofBlocks blocks stem = .ok g) : ∃ live, g.solve (edgeLiveness g) = .ok live ∧
      g.Inherits live ∧
      ∀ names code, names.entry = stem → Block.addTerminators code = blocks →
        ∃ o origins, Block.hoist names code = .ok o ∧ o.HoistsMarked g live origins := by
  have hw : g.WellFormed := .of_ofBlocks hg
  obtain ⟨live, hlive⟩ := exists_live hw
  refine ⟨live, hlive, fun l hl k hk _ hc s hs hin =>
    mem_invariants_of_around hw hlive hk hl hc hs hin, ?_⟩
  rintro names code rfl rfl
  have ho := Block.hoist_eq_ok_iff.2 ⟨g, live, hg, hlive, rfl⟩
  obtain ⟨g', live', planned, moves, hr, hpre, hhoisted⟩ := exists_rearranged ho
  obtain rfl := Except.ok.inj (hr.graph.symm.trans hg)
  obtain rfl := Except.ok.inj (hr.solved.symm.trans hlive)
  exact ⟨_, _, ho, hr.hoistsMarked rfl hpre hhoisted (FlowGraph.skipped_applyPlans _ _ _ _)⟩

def nesting : List Block :=
  [⟨"b0", [.constant "i" (.named "int") (.int 1), .jump "outer"]⟩,
    ⟨"outer", [.atLabel "outer", .branch "c" "inner" "done"]⟩,
    ⟨"inner", [.atLabel "inner", .constant "k" (.named "int") (.int 5),
      .compute "add" "y" (.named "int") ["i", "k"], .branch "d" "inner" "latch"]⟩,
    ⟨"latch", [.atLabel "latch", .compute "add" "i" (.named "int") ["i", "i"], .jump "outer"]⟩,
    ⟨"done", [.atLabel "done", .ret []]⟩]

def FlowGraph.markedNames (g : FlowGraph) (live : Results) : List (String × List (Option String)) :=
  g.loops.loops.map fun l => (g.nameOf l.header,
    (l.invariants g (g.liveAtHeader live l)).map (·.instr.dest))

theorem nesting_inherited : ∃ g live o origins,
    FlowGraph.ofBlocks (Block.addTerminators nesting) "entry" = .ok g ∧
    g.solve (edgeLiveness g) = .ok live ∧
    g.markedNames live = [("outer", [some "k"]), ("inner", [some "k", some "y"])] ∧
    g.Inherits live ∧ Block.hoist {} nesting = .ok o ∧
    o.hoisted.map (fun e => (e.instr.dest, e.preheader)) =
      [(some "k", "preheader.0"), (some "y", "preheader.1")] ∧
    o.preheaders = [("preheader.0", "outer"), ("preheader.1", "inner")] ∧
    o.HoistsMarked g live origins := by
  -- The loops are found in their order, so that sorting them need not be evaluated.
  have hmarked : (do
      let g ← FlowGraph.ofBlocks (Block.addTerminators nesting) "entry"
      let live ← g.solve (edgeLiveness g)
      return (decide (g.loops.loops.Pairwise (·.depth < ·.depth)), g.markedNames live) :
      Except Error _).toOption =
      some (true, [("outer", [some "k"]), ("inner", [some "k", some "y"])]) := by
    decide +kernel
  have houtcome : (do
      let g ← FlowGraph.ofBlocks (Block.addTerminators nesting) "entry"
      let live ← g.solve (edgeLiveness g)
      let planned ← pure (g.loops.loops.foldl (g.planLoop live) {})
      let o ← pure (g.applyPlans "preheader" planned.plans planned.skipped)
      return (o.hoisted.map (fun e => (e.instr.dest, e.preheader)), o.preheaders) :
      Except Error _).toOption =
      some ([(some "k", "preheader.0"), (some "y", "preheader.1")],
        [("preheader.0", "outer"), ("preheader.1", "inner")]) := by
    decide +kernel
  cases hg : FlowGraph.ofBlocks (Block.addTerminators nesting) "entry" with
  | error e =>
    rw [hg] at hmarked
    cases hmarked
  | ok g =>
    obtain ⟨live, hlive, hinherits, hhoist⟩ := FlowGraph.invariants_inherited hg
    obtain ⟨o, origins, ho, horigins⟩ := hhoist {} nesting rfl rfl
    simp only [hg, hlive, bind, Except.bind, pure, Except.pure, Except.toOption, Option.some.injEq,
      Prod.mk.injEq, decide_eq_true_eq] at hmarked houtcome
    obtain ⟨hsorted, hmarked⟩ := hmarked
    obtain ⟨hhoisted, hpreheaders⟩ := houtcome
    obtain ⟨g', live', hg', hlive', rfl⟩ := Block.hoist_eq_ok_iff.1 ho
    obtain rfl := Except.ok.inj (hg'.symm.trans hg)
    obtain rfl := Except.ok.inj (hlive'.symm.trans hlive)
    rw [← LoopForest.outermostFirst_of_sorted hsorted] at hhoisted hpreheaders
    exact ⟨g', live', _, origins, rfl, hlive, hmarked, hinherits, ho, hhoisted, hpreheaders,
      horigins⟩

end FlowOpt
