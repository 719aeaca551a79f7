import FlowOpt.Proofs.Cut
import FlowOpt.Proofs.Dataflow.Termination
import FlowOpt.Proofs.Hoist.Edges

/-!
# Hoisted code cut again

Code whose jumps lead to labels that stand in it can be hoisted. What comes out is joined and cut
again without a change, and its jumps lead to labels that stand in it too.
-/

namespace FlowOpt

variable {stem : String} {blocks blocks' : List Block} {g : FlowGraph} {live : Results}
  {planned : List PlannedLoop} {moves : List Move} {m : Move} {b c : Block} {v : Nat}
  {names : HoistNames} {o : HoistOutcome}

@[simp] theorem label_redirectAll (name : String) (i : Instruction) :
    (HoistPlan.redirectAll moves name i).label = i.label := by
  rw [HoistPlan.redirectAll_eq]

namespace Rearranged

variable (h : Rearranged stem blocks g live planned moves blocks')
include h

theorem headed_preheaderBlock (hm : m ∈ moves) : (m.1.preheaderBlock m.2).Headed := by
  obtain ⟨e, he, hme⟩ := h.exists_loop hm
  apply Block.headed_labeled
  intro i hi
  rcases List.mem_append.1 hi with hi | hi
  · obtain ⟨s, hs, rfl⟩ := List.mem_map.1 hi
    have hmov := h.isMovable_of_taken (mem_takenBy.2 ⟨e, he, hme ▸ hs⟩)
    by_contra hlabel
    simp [Instruction.isMovable, hlabel] at hmov
  · rw [List.mem_singleton.1 hi]
    rfl

theorem headed_movedBlock (hv : g.blocks[v]? = some b) (hb : b.Headed) :
    (movedBlock planned moves v b).Headed := by
  obtain ⟨i, rest, hinstrs, hlabel, hrest⟩ := hb.instrs_eq
  have hi : g.InstrAt v 0 i := ⟨b, hv, by rw [hinstrs]; rfl⟩
  have hstays := h.not_taken hi (by simp [Instruction.isMovable, Instruction.isLabel, hlabel])
  have hkept : kept (takenBy planned) v 0 b.instrs = i :: kept (takenBy planned) v 1 rest := by
    rw [hinstrs, kept_cons_of_not hstays]
  constructor
  · change ((kept (takenBy planned) v 0 b.instrs).map _).head?.bind _ = some b.name
    rw [hkept]
    simpa using hlabel
  · change ∀ j ∈ ((kept (takenBy planned) v 0 b.instrs).map _).tail, _
    rw [hkept, List.map_cons, List.tail_cons]
    rw [List.forall_mem_map]
    intro j hj
    rw [isLabel_redirectAll]
    exact hrest j ((kept_sublist _ _ _ _).subset hj)

theorem kept_of_outside (hout : ∀ e ∈ planned, e.1.contains v = false) :
    kept (takenBy planned) v 0 b.instrs = b.instrs := by
  apply kept_eq_self
  intro s hs hsv
  obtain ⟨e, he, hs⟩ := mem_takenBy.1 hs
  have hin := (h.contains_site he hs).1
  rw [hsv, hout e he] at hin
  cases hin

theorem bare_movedBlock (hout : ∀ e ∈ planned, e.1.contains v = false) (hb : b.Bare) :
    (movedBlock planned moves v b).Bare := by
  rw [movedBlock, h.kept_of_outside hout]
  refine ⟨fun hnil => hb.1 (List.map_eq_nil_iff.1 hnil), List.forall_mem_map.2 fun i hi => ?_⟩
  rw [isLabel_redirectAll]
  exact hb.2 i hi

/-- A first block that nothing leads to is in no loop. -/
theorem first_outside {rest : List String} (hrest : blocks.map (·.name) = b.name :: rest)
    (hv : g.blocks[v]? = some b) (hnot : ∀ c ∈ blocks, b.name ∉ c.targets) :
    ∀ e ∈ planned, e.1.contains v = false := by
  cases blocks with
  | nil => cases hrest
  | cons first more =>
    rw [List.map_cons, List.cons.injEq] at hrest
    have hblocks : g.blocks = first :: more := by
      rw [FlowGraph.blocks, FlowGraph.nodes_of_untargeted h.graph (hrest.1 ▸ hnot),
        FlowGraph.map_block_annotate]
    have hzero : g.blocks[0]? = some first := by rw [hblocks]; rfl
    obtain rfl := h.wellFormed.eq_of_name_eq hv hzero hrest.1.symm
    exact fun e he => h.not_contains_entry he

theorem names_in_front {rest : List String} (hrest : blocks.map (·.name) = b.name :: rest)
    (hheader : ∀ m ∈ moves, m.1.header ≠ b.name)
    (hnames : ∀ m ∈ moves, ∃ x k, m.2 = FlowGraph.numbered x k) :
    ∃ rest', blocks'.map (·.name) = b.name :: rest' ∧
      Block.frontName rest' = Block.frontName rest := by
  have hhead : (blocks'.map (·.name)).head? = some b.name := by
    apply h.carried.head_of_not_header _ hheader
    rw [h.names_remaining, hrest]
    rfl
  obtain ⟨rest', hrest'⟩ := List.head?_eq_some_iff.1 hhead
  refine ⟨rest', hrest', Block.frontName_congr fun n => ?_⟩
  have hmem := h.mem_names (t := Block.unlabeled n)
  have hnodup := h.nodup_names
  have hnodup₀ := h.nodup
  rw [hrest', hrest, List.mem_cons, List.mem_cons] at hmem
  rw [hrest', List.nodup_cons] at hnodup
  rw [hrest, List.nodup_cons] at hnodup₀
  have hother : ¬ ∃ m ∈ moves, Block.unlabeled n = m.2 := by
    rintro ⟨m, hm, hn⟩
    obtain ⟨x, k, hk⟩ := hnames m hm
    exact Block.numbered_ne_unlabeled x k n (hk ▸ hn.symm)
  rw [or_iff_left hother] at hmem
  constructor
  · intro hn
    exact (hmem.1 (.inr hn)).resolve_left fun heq => hnodup.1 (heq ▸ hn)
  · intro hn
    exact (hmem.2 (.inr hn)).resolve_left fun heq => hnodup₀.1 (heq ▸ hn)

theorem exists_target_header (hm : m ∈ moves) : ∃ c ∈ blocks, m.1.header ∈ c.targets := by
  have hg := h.wellFormed
  obtain ⟨e, he, hme⟩ := h.exists_loop hm
  obtain ⟨-, -, hlatches⟩ := LoopForest.eq_loopAt (h.mem_loops he)
  obtain ⟨v, hv⟩ := List.exists_mem_of_ne_nil _ hlatches
  have hin : e.1.contains v = true :=
    (LoopForest.contains_iff hg.graph (h.mem_loops he)).2 (.latch hv)
  obtain ⟨b, c, hb, hc, ht⟩ := (hg.mem_succs v _).1 ((LoopForest.mem_latches hg.graph).1 hv).2.1
  refine ⟨b, h.block_of_own hb (h.own_of_contains he hin), ?_⟩
  rwa [hme, h.header_eq he, FlowGraph.nameOf_eq hc]

/-- Moved code is as cutting gives it, if the code was and its jumps lead to labels. -/
theorem cut (hcut : Block.Cut blocks) (hlinked : Block.Linked blocks)
    (hnames : ∀ m ∈ moves, ∃ x k, m.2 = FlowGraph.numbered x k) : Block.Cut blocks' := by
  refine ⟨h.nodup_names, fun b hb => ?_⟩
  rcases h.mem_blocks.1 hb with ⟨v, c, hv, hown, rfl⟩ | ⟨m, hm, rfl⟩
  · have hc := h.block_of_own hv hown
    rcases hcut.shape c hc with hheaded | ⟨hbare, rest, hrest, hname⟩
    · exact .inl (h.headed_movedBlock hv hheaded)
    · have hnot : ∀ d ∈ blocks, c.name ∉ d.targets := fun d hd => hlinked.not_bare hcut hc hbare hd
      obtain ⟨rest', hrest', hfront⟩ := h.names_in_front hrest (fun m hm heq =>
        have ⟨d, hd, ht⟩ := h.exists_target_header hm
        hnot d hd (heq ▸ ht)) hnames
      refine .inr ⟨h.bare_movedBlock (h.first_outside hrest hv hnot) hbare, rest', hrest', ?_⟩
      exact hname.trans hfront.symm
  · exact .inl (h.headed_preheaderBlock hm)

theorem linked (hlinked : Block.Linked blocks) : Block.Linked blocks' := by
  have hlabel : ∀ c ∈ blocks, c.Headed → ∃ d ∈ blocks', d.Headed ∧ d.name = c.name := by
    intro c hc hheaded
    obtain ⟨v, hv, hown⟩ := h.own_of_mem hc
    exact ⟨_, h.movedBlock_mem hv hown, h.headed_movedBlock hv hheaded, rfl⟩
  intro b hb t ht
  rcases h.mem_blocks.1 hb with ⟨v, c, hv, hown, rfl⟩ | ⟨m, hm, rfl⟩
  · rcases (h.mem_targets_movedBlock hv).1 ht with ⟨m, hm, rfl, -⟩ | ⟨ht, -⟩
    · exact ⟨_, h.preheader_mem hm, h.headed_preheaderBlock hm, rfl⟩
    · obtain ⟨d, hd, hheaded, rfl⟩ := hlinked c (h.block_of_own hv hown) t ht
      exact hlabel d hd hheaded
  · rw [h.mem_targets_preheaderBlock hm] at ht
    obtain ⟨c, hc, htarget⟩ := h.exists_target_header hm
    obtain ⟨d, hd, hheaded, hname⟩ := hlinked c hc _ htarget
    rw [ht, ← hname]
    exact hlabel d hd hheaded

omit h in
@[simp] theorem isTerminator_redirectAll (name : String) (i : Instruction) :
    (HoistPlan.redirectAll moves name i).isTerminator = i.isTerminator := by
  rw [HoistPlan.redirectAll_eq]
  rfl

theorem fallsThrough_movedBlock (hv : g.blocks[v]? = some b)
    (hf : (movedBlock planned moves v b).fallsThrough = true) : b.fallsThrough = true := by
  by_contra hnot
  rw [Bool.not_eq_true] at hnot
  obtain ⟨before, i, hi, hterm⟩ := Block.fallsThrough_eq_false_iff.1 hnot
  have hmov : i.isMovable = false := by
    by_contra hmov
    rw [Instruction.isTerminator_of_isMovable (Bool.not_eq_false _ ▸ hmov)] at hterm
    cases hterm
  have hstays := h.not_taken (k := before.length) ⟨b, hv, by simp [hi]⟩ hmov
  have hinstrs : (movedBlock planned moves v b).instrs =
      (kept (takenBy planned) v 0 before).map (HoistPlan.redirectAll moves b.name) ++
        [HoistPlan.redirectAll moves b.name i] := by
    rw [movedBlock, hi, kept_append, Nat.zero_add, kept_cons_of_not hstays, List.map_append]
    rfl
  have hends := Block.fallsThrough_eq_false_iff.2
    ⟨_, _, hinstrs, by rw [isTerminator_redirectAll, hterm]⟩
  rw [hf] at hends
  cases hends

theorem addTerminators_eq (hfalls : ∀ b ∈ blocks, b.fallsThrough = true →
      Block.following (blocks.map (·.name)) b.name = none) :
    Block.addTerminators blocks' = blocks' := by
  apply Block.addTerminators_eq_self
  intro b hb
  by_contra hf
  rw [Bool.not_eq_false] at hf
  rcases h.mem_blocks.1 (List.mem_of_mem_dropLast hb) with ⟨v, c, hv, hown, rfl⟩ | ⟨m, hm, rfl⟩
  · have hlast := hfalls c (h.block_of_own hv hown) (h.fallsThrough_movedBlock hv hf)
    rw [← h.names_remaining (planned.map (·.2))] at hlast
    have hlast' := h.carried.following_eq_none
      (h.names_remaining _ ▸ h.mem_of_own hv hown) hlast
    rw [Block.following_eq_none_iff, ← List.map_dropLast] at hlast'
    have hmem : (movedBlock planned moves v c).name ∈ blocks'.dropLast.map (·.name) :=
      List.mem_map_of_mem hb
    exact hlast' hmem
  · have hjump : (m.1.preheaderBlock m.2).fallsThrough = false :=
      Block.fallsThrough_eq_false_iff.2
        ⟨.atLabel m.2 :: m.1.sites.map (·.instr), .jump m.1.header, rfl, rfl⟩
    rw [hjump] at hf
    cases hf

end Rearranged

namespace HoistPlan

theorem exists_numbered (g : FlowGraph) (stem : String) (plans : List HoistPlan)
    (o : HoistOutcome) (next : Nat)
    (h : ∀ p ∈ o.preheaders, ∃ k, p.1 = FlowGraph.numbered stem k) :
    ∀ p ∈ (plans.foldl (fun (o, next) p => p.apply g stem o next) (o, next)).1.preheaders,
      ∃ k, p.1 = FlowGraph.numbered stem k := by
  induction plans generalizing o next with
  | nil => exact h
  | cons plan plans ih =>
    apply ih
    intro p hp
    rcases List.mem_append.1 hp with hp | hp
    · exact h p hp
    · exact ⟨_, congrArg Prod.fst (List.mem_singleton.1 hp)⟩

end HoistPlan

namespace Block

theorem numbered_of_mem_preheaders (h : Block.hoist names blocks = .ok o) :
    ∀ p ∈ o.preheaders, ∃ k, p.1 = FlowGraph.numbered names.preheader k := by
  obtain ⟨g, live, -, -, rfl⟩ := hoist_eq_ok_iff.1 h
  apply HoistPlan.exists_numbered
  simp

/-- Hoisting succeeds where jumps lead to labels that stand in the code. -/
theorem hoist_isOk (names : HoistNames) (hne : blocks ≠ []) (hcut : Cut blocks)
    (hlinked : Linked blocks) : ∃ o, Block.hoist names blocks = .ok o := by
  obtain ⟨g, hg⟩ := hcut.exists_graph hne hlinked names.entry
  obtain ⟨live, hlive⟩ := FlowGraph.exists_live (.of_ofBlocks hg)
  exact ⟨_, hoist_eq_ok_iff.2 ⟨g, live, hg, hlive, rfl⟩⟩

theorem hoist_cut (hcut : Cut blocks) (hlinked : Linked blocks)
    (h : Block.hoist names blocks = .ok o) : Cut o.blocks ∧ Linked o.blocks := by
  obtain ⟨g, live, planned, moves, hr, hpre, -⟩ := exists_rearranged h
  have hlinked' := hlinked.addTerminators hcut
  refine ⟨hr.cut hcut.addTerminators hlinked' fun m hm => ?_, hr.linked hlinked'⟩
  have hmem : (m.2, m.1.header) ∈ o.preheaders := hpre ▸ List.mem_map_of_mem hm
  exact ⟨_, numbered_of_mem_preheaders h _ hmem⟩

theorem hoist_ne_nil (h : Block.hoist names blocks = .ok o) : blocks ≠ [] ∧ o.blocks ≠ [] := by
  obtain ⟨g, live, planned, moves, hr, -⟩ := exists_rearranged h
  obtain ⟨first, rest, -, heq, -⟩ := FlowGraph.blocks_of_ofBlocks hr.graph
  constructor
  · rintro rfl
    cases heq
  · obtain ⟨v, hv, hown⟩ := hr.own_of_mem (heq ▸ List.mem_cons_self)
    exact List.ne_nil_of_mem (hr.movedBlock_mem hv hown)

end Block

def HoistsTo (names : HoistNames) (instrs : List Instruction) (o : HoistOutcome) : Prop :=
  ∃ blocks, Block.split instrs = .ok blocks ∧ Block.hoist names blocks = .ok o

namespace HoistsTo

open Block

variable {instrs : List Instruction} {o' : HoistOutcome}

theorem iff_eq_ok : HoistsTo names instrs o ↔ (split instrs >>= Block.hoist names) = .ok o := by
  unfold HoistsTo
  cases split instrs with
  | error e => simp [bind, Except.bind]
  | ok blocks => simp [bind, Except.bind]

theorem unique (h : HoistsTo names instrs o) (h' : HoistsTo names instrs o') : o = o' :=
  Except.ok.inj ((iff_eq_ok.1 h).symm.trans (iff_eq_ok.1 h'))

/-- Code that names only labels it has can be hoisted. -/
theorem of_closed (names : HoistNames) (h : Closed instrs) : ∃ o, HoistsTo names instrs o := by
  obtain ⟨blocks, hblocks, hne, hlinked⟩ := closed_iff.1 h
  obtain ⟨o, ho⟩ := hoist_isOk names hne (split_eq_ok_iff.1 hblocks).1 hlinked
  exact ⟨o, blocks, hblocks, ho⟩

/-- What comes out is such code again, cut into the blocks that were put together. -/
theorem rejoin (h : HoistsTo names instrs o) (hclosed : Closed instrs) :
    split (flatten o.blocks) = .ok o.blocks ∧ Closed (flatten o.blocks) := by
  obtain ⟨blocks, hblocks, ho⟩ := h
  obtain ⟨blocks', hblocks', hne, hlinked⟩ := closed_iff.1 hclosed
  obtain rfl := Except.ok.inj (hblocks.symm.trans hblocks')
  obtain ⟨hcut, hlinked'⟩ := hoist_cut (split_eq_ok_iff.1 hblocks).1 hlinked ho
  exact ⟨hcut.split_flatten,
    closed_iff.2 ⟨o.blocks, hcut.split_flatten, (hoist_ne_nil ho).2, hlinked'⟩⟩

/-- Code that can be hoisted names only labels it has, unless it names what stands in front of its
first label. -/
theorem closed (h : HoistsTo names instrs o) (hfront : FrontUnnamed instrs) : Closed instrs := by
  obtain ⟨blocks, hblocks, ho⟩ := h
  obtain ⟨g, live, hg, -⟩ := hoist_eq_ok_iff.1 ho
  exact closed_of_graph hblocks hg hfront

end HoistsTo

end FlowOpt
