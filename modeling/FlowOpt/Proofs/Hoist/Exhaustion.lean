import FlowOpt.Proofs.Hoist.Origin

/-!
# Nothing invariant is left

Where everything can be reached and there are no phis, hoisted code has no invariant instruction.
What can be marked in one of its loops comes from an instruction that stays in a loop of the code.
Nothing else that stays there assigns its destination or arguments, and its destination is live at
the header only if something hoisted reads it: so it could be marked already before.
-/

namespace FlowOpt

open FlowOpt.Digraph

/-- What is live before instructions is live before what is kept of them, or something taken reads
it. -/
theorem LiveFrom.kept {after : String → Prop} {instrs : List Instruction} {x : String}
    (taken : List Site) (v n : Nat) (h : LiveFrom after instrs x) :
    LiveFrom after (kept taken v n instrs) x ∨
      ∃ k i, instrs[k]? = some i ∧ x ∈ i.args ∧ ∃ s ∈ taken, s.node = v ∧ s.index = n + k := by
  induction instrs generalizing n with
  | nil => exact .inl h
  | cons i rest ih =>
    have hlater : (∃ k j, rest[k]? = some j ∧ x ∈ j.args ∧
        ∃ s ∈ taken, s.node = v ∧ s.index = n + 1 + k) →
        ∃ k j, (i :: rest)[k]? = some j ∧ x ∈ j.args ∧
          ∃ s ∈ taken, s.node = v ∧ s.index = n + k := by
      rintro ⟨k, j, hj, hx, s, hs, hv, hk⟩
      exact ⟨k + 1, j, hj, hx, s, hs, hv, by omega⟩
    by_cases htaken : ∃ s ∈ taken, s.node = v ∧ s.index = n
    · obtain ⟨s, hs, hv, hn⟩ := htaken
      rw [kept_cons_of_mem hs hv hn]
      rcases h with ⟨h, -⟩ | ⟨-, hx⟩
      · exact (ih (n + 1) h).imp_right hlater
      · exact .inr ⟨0, i, rfl, hx, s, hs, hv, hn⟩
    · push Not at htaken
      rw [kept_cons_of_not htaken]
      rcases h with ⟨h, hd⟩ | harg
      · exact (ih (n + 1) h).imp (fun h => .inl ⟨h, hd⟩) hlater
      · exact .inl (.inr harg)

namespace Rearranged

variable {stem stem' : String} {blocks blocks' : List Block} {g g' : FlowGraph}
  {live live' : Results} {planned : List PlannedLoop} {moves : List Move} {b : Block}
  {e : PlannedLoop} {l l' : NaturalLoop} {s s' t : Site} {x : String} {d v w : Nat}
  (h : Rearranged stem blocks g live planned moves blocks')
  (hg' : FlowGraph.ofBlocks blocks' stem' = .ok g')
include h

omit h in
theorem args_redirectAll (name : String) (i : Instruction) :
    (HoistPlan.redirectAll moves name i).args = i.args := by
  rw [HoistPlan.redirectAll_eq]

section Live

variable (hlive' : g'.solve (edgeLiveness g') = .ok live')
include hg' hlive'

/-- What is live at a header is live before its preheader if it is so behind, or is read there. -/
theorem liveIn_preheader (he : e ∈ planned) (hd : PreheaderAt planned moves g' e.1.header d)
    (hx : g.LiveIn live e.1.header x)
    (hread : g'.LiveIn live' (g.placeIn g' e.1.header) x ∨ ∃ s ∈ e.2.sites, x ∈ s.instr.args) :
    g'.LiveIn live' d x := by
  have hgw' := FlowGraph.WellFormed.of_ofBlocks hg'
  obtain ⟨m, hm, hme, hblock⟩ := ((h.preheaderAt_iff he).1 hd).2
  have hspare : ∀ s ∈ m.1.sites, s.instr.dest ≠ some x := fun s hs =>
    h.dest_ne_of_liveIn he (hme ▸ hs) hx
  rcases hread with hafter | ⟨s, hs, hxs⟩
  · refine hafter.of_succ hgw' hlive' ((h.mem_succs_of_preheaderAt hg' hd).2 rfl) hblock
      fun i hi => ?_
    simp only [HoistPlan.preheaderBlock, Block.labeled, List.mem_cons, List.mem_append,
      List.mem_map, List.not_mem_nil, or_false] at hi
    rcases hi with rfl | ⟨s, hs, rfl⟩ | rfl
    · simp [Instruction.atLabel]
    · exact hspare s hs
    · simp [Instruction.jump]
  · obtain ⟨before, after, hsplit⟩ := List.append_of_mem (hme ▸ hs : s ∈ m.1.sites)
    have hinstrs : (m.1.preheaderBlock m.2).instrs =
        (.atLabel m.2 :: before.map (·.instr)) ++
          s.instr :: (after.map (·.instr) ++ [.jump m.1.header]) := by
      simp [HoistPlan.preheaderBlock, Block.labeled, hsplit]
    have hphi : s.instr.isPhi = false := by
      by_contra hphi
      have heff := Instruction.hasSideEffects_of_isPhi (Bool.not_eq_false _ ▸ hphi)
      rw [Instruction.hasSideEffects_of_isMovable
        (h.isMovable_of_taken (mem_takenBy.2 ⟨e, he, hs⟩))] at heff
      cases heff
    apply FlowGraph.liveIn_of_liveFrom hgw' hlive' hblock
    rw [hinstrs]
    refine (LiveFrom.of_arg hxs hphi).of_append fun i hi => ?_
    rcases List.mem_cons.1 hi with rfl | hi
    · simp [Instruction.atLabel]
    · obtain ⟨u, hu, rfl⟩ := List.mem_map.1 hi
      exact hspare u (hsplit ▸ List.mem_append_left _ hu)

/-- What is live at a successor is live at the end of a block when the code is moved, or something
that is taken out of a loop around the block reads it. -/
theorem liveOut_placeIn (hv : g.blocks[v]? = some b)
    (hown : (g.node? v).any (·.synthetic) = false) (hw : w ∈ g.graph.succs v)
    (hx : g.LiveIn live w x)
    (hplace : g'.LiveIn live' (g.placeIn g' w) x ∨ ReadByTaken planned w x) :
    g'.LiveOut live' (g.placeIn g' v) x ∨ ReadByTaken planned v x := by
  obtain ⟨hvlt, hwlt⟩ := h.wellFormed.graph.succs_lt v w hw
  rcases hplace with hplace | ⟨e, he, hin, hread⟩
  · rcases (h.rerouted hg').edge hvlt hwlt hw with hs | ⟨d, hd, hs⟩
    · exact .inl (.inl ⟨_, hs, hplace⟩)
    · obtain ⟨-, -, -, e, he, -, rfl, -⟩ := id hd
      exact .inl (.inl ⟨d, hs, h.liveIn_preheader hg' hlive' he hd hx (.inl hplace)⟩)
  · cases hout : e.1.contains v with
    | true => exact .inr ⟨e, he, hout, hread⟩
    | false =>
      have hheader : w = e.1.header := by
        by_contra hne
        rw [LoopForest.contains_pred h.wellFormed.graph (h.mem_loops he) hin hne hw] at hout
        cases hout
      subst hheader
      obtain ⟨d, hd, hs⟩ := h.exists_preheaderAt hg' he hv hown hw hout
      exact .inl (.inl ⟨d, hs, h.liveIn_preheader hg' hlive' he hd hx (.inr hread)⟩)

/-- What is live at a block is live there when the code is moved, or something that is taken out of
a loop around it reads it. -/
theorem liveIn_placeIn (hphi : g.NoPhi) (hv : g.blocks[v]? = some b) (hzero : v ≠ 0)
    (hx : g.LiveIn live v x) :
    g'.LiveIn live' (g.placeIn g' v) x ∨ ReadByTaken planned v x := by
  have hg := h.wellFormed
  refine FlowGraph.LiveIn.induction hg h.solved
    (P := fun v x => v ≠ 0 → g'.LiveIn live' (g.placeIn g' v) x ∨ ReadByTaken planned v x)
    (fun v b x hv hfrom hzero => ?_) hv hx hzero
  have hown := FlowGraph.synthetic_eq_false h.graph hzero
  rcases hfrom.kept (takenBy planned) v 0 with hkept | ⟨k, i, hi, hxi, s, hs, rfl, hk⟩
  · have hout : LiveFrom (fun y => g'.LiveOut live' (g.placeIn g' v) y ∨ ReadByTaken planned v y)
        (kept (takenBy planned) v 0 b.instrs) x := by
      refine hkept.mono fun y hy => ?_
      rcases hy with ⟨w, hw, hyw, hplace⟩ | hread
      · have hne : w ≠ 0 := fun hw0 => hg.entry_not_succ v (hw0 ▸ hw)
        exact h.liveOut_placeIn hg' hlive' hv hown hw hyw (hplace hne)
      · obtain ⟨c, hc, i, hi, hip, -⟩ := FlowGraph.exists_of_mem_phiReads hread
        rw [hphi c hc i hi] at hip
        cases hip
    refine hout.or.imp_left fun hlive => ?_
    apply FlowGraph.liveIn_of_liveFrom (.of_ofBlocks hg') hlive' (h.getElem?_placeIn hg' hv hown)
    exact (liveFrom_map (dest_redirectAll _) (args_redirectAll _) (isPhi_redirectAll _)).2 hlive
  · rw [Nat.zero_add] at hk
    obtain rfl := h.instr_eq_of_taken hs ⟨b, hv, hk ▸ hi⟩
    obtain ⟨e, he, hse⟩ := mem_takenBy.1 hs
    exact .inr ⟨e, he, (h.contains_site he hse).1, s, hse, hxi⟩

end Live

end Rearranged

namespace Rearranged

variable {stem stem' : String} {blocks blocks' : List Block} {g g' : FlowGraph}
  {live live' : Results} {planned : List PlannedLoop} {moves : List Move} {l l' : NaturalLoop}
  {s s' t : Site}
  (h : Rearranged stem blocks g live planned moves blocks')
  (hg' : FlowGraph.ofBlocks blocks' stem' = .ok g')
include h hg'

variable (hphi : g.NoPhi) (hreach : ∀ v, v < g.size → g.graph.Reachable 0 v)
  (hl : l ∈ g.loops.loops) (hl' : l' ∈ g'.loops.loops)
  (heq : l'.header = g.placeIn g' l.header)
include hreach hl hl' heq

/-- What is movable in a loop of moved code comes from what stays in the loop of the code. -/
theorem exists_comesFrom (hs' : s' ∈ l'.sites g') (hmov : s'.instr.isMovable = true) :
    ∃ s, ComesFrom planned moves g g' s' s ∧ StaysIn g planned l s := by
  have hg := h.wellFormed
  have hgw' := FlowGraph.WellFormed.of_ofBlocks hg'
  have hloop := (FlowGraph.mem_loops hg).1 hl
  have hloop' := (FlowGraph.mem_loops hgw').1 hl'
  obtain ⟨hin, hi⟩ := (NaturalLoop.mem_sites hgw' hl').1 hs'
  have hnames : s'.instr.NamesVariable := by
    left
    intro hnone
    simp [Instruction.isMovable, hnone] at hmov
  obtain ⟨s, hfrom, hsi⟩ := h.exists_origin hg' hi hnames
  refine ⟨s, hfrom, ?_⟩
  cases hfrom with
  | @kept b hb hown hnode hindex hinstr =>
    have hvin := ((h.rerouted hg').contains_place_iff hg.graph hgw'.graph hreach hg.entry_not_succ
      hloop hloop' heq (FlowGraph.lt_size_iff.2 ⟨b, hb⟩)).1 (hnode ▸ hin)
    obtain ⟨-, hnot⟩ := mem_keptAt.1 (List.mem_of_getElem? hindex)
    refine ⟨(NaturalLoop.mem_sites hg hl).2 ⟨hvin, hsi⟩, fun e he _ hse => ?_⟩
    exact hnot _ (mem_takenBy.2 ⟨e, he, hse⟩) rfl rfl
  | @taken e j he hnode hindex hsite hinstr =>
    have hse := List.mem_of_getElem? hsite
    have hd := (h.preheaderAt_iff he).2 ⟨FlowGraph.ne_zero_of_contains hgw' hl' hin, hnode⟩
    obtain ⟨hein, hne⟩ := ((h.rerouted hg').contains_door_iff hg.graph hgw'.graph hreach
      hg.entry_not_succ hloop hloop' heq hd).1 hin
    refine ⟨?_, fun e' he' hc hse' => hne ?_⟩
    · exact mem_sites_of_around hg (h.isPlanned.mem_loops he) hl hein
        (h.isPlanned.mem_sites he hse)
    · obtain rfl := h.isPlanned.eq_of_mem_sites he he' hse hse'
      exact LoopForest.header_eq_of_contains hg.graph (h.mem_loops he) hloop hc hein

omit hreach hl' heq in
theorem exists_preheaderAt_of_inner {e : PlannedLoop} (he : e ∈ planned)
    (hin : l.contains e.1.header = true) (hne : e.1.header ≠ l.header) :
    ∃ d, PreheaderAt planned moves g' e.1.header d := by
  have hg := h.wellFormed
  have hloop := (FlowGraph.mem_loops hg).1 hl
  have hheader := FlowGraph.ne_zero_of_contains hg (h.isPlanned.mem_loops he)
    (LoopForest.contains_header hg.graph (h.mem_loops he))
  obtain ⟨v, hv, -⟩ := LoopForest.exists_entering hg.graph (h.mem_loops he) hheader
  obtain ⟨hpred, hout⟩ := List.mem_filter.1 hv
  have hs := (hg.graph.symmetric v e.1.header).2 hpred
  have hzero := FlowGraph.ne_zero_of_contains hg hl
    (LoopForest.contains_pred hg.graph hloop hin hne hs)
  obtain ⟨b, -, hb, -⟩ := (hg.mem_succs v _).1 hs
  obtain ⟨d, hd, -⟩ := h.exists_preheaderAt hg' he hb (FlowGraph.synthetic_eq_false h.graph hzero)
    hs (by simpa using hout)
  exact ⟨d, hd⟩

/-- What stays in a loop of the code is found in the loop of moved code. -/
theorem exists_of_staysIn (hs : StaysIn g planned l s) :
    ∃ s' ∈ l'.sites g', ComesFrom planned moves g g' s' s := by
  have hg := h.wellFormed
  have hgw' := FlowGraph.WellFormed.of_ofBlocks hg'
  have hloop := (FlowGraph.mem_loops hg).1 hl
  have hloop' := (FlowGraph.mem_loops hgw').1 hl'
  obtain ⟨hin, b, hb, hi⟩ := (NaturalLoop.mem_sites hg hl).1 hs.1
  have hlt := FlowGraph.lt_size_iff.2 ⟨b, hb⟩
  by_cases htaken : ∃ e ∈ planned, s ∈ e.2.sites
  · obtain ⟨e, he, hse⟩ := htaken
    have hein := (h.contains_site he hse).1
    have hloope := h.mem_loops he
    have hnot : ¬ e.1.contains l.header = true := fun hc => hs.2 e he hc hse
    have hinner := (LoopForest.contains_header_of_common hg.graph hloop hloope hin hein
      (hreach _ hlt)).resolve_right hnot
    have hne : e.1.header ≠ l.header := fun hh =>
      hnot (hh ▸ LoopForest.contains_header hg.graph hloope)
    obtain ⟨d, hd⟩ := h.exists_preheaderAt_of_inner hg' hl he hinner hne
    have hdin := ((h.rerouted hg').contains_door_iff hg.graph hgw'.graph hreach hg.entry_not_succ
      hloop hloop' heq hd).2 ⟨hinner, hne⟩
    obtain ⟨m, hm, hme, hblock⟩ := ((h.preheaderAt_iff he).1 hd).2
    obtain ⟨j, hj⟩ := List.mem_iff_getElem?.1 hse
    refine ⟨⟨d, j + 1, s.instr⟩, ?_, .taken he ⟨m, hm, hme, hblock⟩ rfl hj rfl⟩
    refine (NaturalLoop.mem_sites hgw' hl').2 ⟨hdin, _, hblock, ?_⟩
    change (m.1.sites.map (·.instr) ++ [.jump m.1.header])[j]? = some s.instr
    have hsite : (m.1.sites.map (·.instr))[j]? = some s.instr := by
      rw [hme, List.getElem?_map, hj]
      rfl
    rw [List.getElem?_append_left (List.getElem?_eq_some_iff.1 hsite).1, hsite]
  · have hkept : (s.instr, s.index) ∈ keptAt (takenBy planned) s.node b.instrs := by
      refine mem_keptAt.2 ⟨hi, fun t ht hnode hindex => htaken ?_⟩
      obtain ⟨e, he, hte⟩ := mem_takenBy.1 ht
      refine ⟨e, he, ?_⟩
      rwa [← Site.eq_of_instrAt (h.contains_site he hte).2 ⟨b, hb, hi⟩
        (Site.isAt_iff.2 ⟨hnode, hindex⟩)]
    obtain ⟨j, hj⟩ := List.mem_iff_getElem?.1 hkept
    have hplace := ((h.rerouted hg').contains_place_iff hg.graph hgw'.graph hreach
      hg.entry_not_succ hloop hloop' heq hlt).2 hin
    have hown := FlowGraph.synthetic_eq_false h.graph (FlowGraph.ne_zero_of_contains hg hl hin)
    refine ⟨⟨g.placeIn g' s.node, j, HoistPlan.redirectAll moves b.name s.instr⟩, ?_,
      .kept hb hown rfl hj rfl⟩
    refine (NaturalLoop.mem_sites hgw' hl').2
      ⟨hplace, _, h.getElem?_placeIn hg' hb hown, ?_⟩
    rw [movedBlock, ← kept_eq, List.map_map, List.getElem?_map]
    exact congrArg (Option.map _) hj

theorem not_canMark (hphi : g.NoPhi) (hlive' : g'.solve (edgeLiveness g') = .ok live')
    (hs' : s' ∈ l'.sites g') :
    NaturalLoop.canMark (l'.sites g') (g'.liveAtHeader live' l') [] s' = false := by
  by_contra hmark
  rw [Bool.not_eq_false] at hmark
  have hg := h.wellFormed
  have hgw' := FlowGraph.WellFormed.of_ofBlocks hg'
  have hloop := (FlowGraph.mem_loops hg).1 hl
  have hmarks : NaturalLoop.Marks (l'.sites g') (g'.liveAtHeader live' l') ([] ++ [s']) :=
    NaturalLoop.Marks.concat ⟨by simp, fun before s after heq => by simp at heq⟩ hs' hmark
  have hmem : s' ∈ [] ++ [s'] := by simp
  obtain ⟨x, hx, hdead, honce⟩ := hmarks.ownsDest hmem
  have hmov := hmarks.isMovable hmem
  obtain ⟨s, hfrom, hstays⟩ := h.exists_comesFrom hg' hreach hl hl' heq hs' hmov
  have hlive : g.LiveIn live l.header x → ReadByTaken planned l.header x := by
    intro hlx
    have hzero := FlowGraph.ne_zero_of_contains hg hl (LoopForest.contains_header hg.graph hloop)
    obtain ⟨b, hb⟩ := FlowGraph.lt_size_iff.1 (LoopForest.eq_loopAt hloop).2.1
    refine (h.liveIn_placeIn hg' hlive' hphi hb hzero hlx).resolve_left fun hlx' => ?_
    rw [← heq] at hlx'
    change NameMap.contains (g'.liveAtHeader live' l') x = true at hlx'
    rw [hdead] at hlx'
    cases hlx'
  rcases hstays.blocked hg hphi h.isPlanned hreach hl h.solved (hfrom.isMovable_eq ▸ hmov)
    (hfrom.dest_eq ▸ hx) hlive with ⟨t, ht, hd, hne⟩ | ⟨y, hy, t, ht, hd⟩
  · obtain ⟨t', ht', htfrom⟩ := h.exists_of_staysIn hg' hreach hl hl' heq ht
    obtain rfl := honce t' ht' (htfrom.dest_eq ▸ hd)
    exact hne (h.comesFrom_unique hg' htfrom hfrom)
  · obtain ⟨t', ht', htfrom⟩ := h.exists_of_staysIn hg' hreach hl hl' heq ht
    have halone : [s'] = [] ++ s' :: [] := rfl
    obtain ⟨u, hu, -⟩ := hmarks.arg halone (hfrom.args_eq ▸ hy) ht' (htfrom.dest_eq ▸ hd)
    cases hu

omit hreach hl hl' heq in
/-- Hoisted code has nothing invariant in its loops. -/
theorem invariants_eq_nil (hphi : g.NoPhi) (hreach : ∀ v, v < g.size → g.graph.Reachable 0 v)
    (hlive' : g'.solve (edgeLiveness g') = .ok live') (hl' : l' ∈ g'.loops.loops) :
    l'.invariants g' (g'.liveAtHeader live' l') = [] := by
  have hg := h.wellFormed
  have hgw' := FlowGraph.WellFormed.of_ofBlocks hg'
  obtain ⟨l, hl, heq⟩ := (h.rerouted hg').exists_header hg.graph hgw'.graph hreach
    hg.entry_not_succ ((FlowGraph.mem_loops hgw').1 hl')
  have hmarks := NaturalLoop.marks_invariants g' l' (g'.liveAtHeader live' l')
  cases hinv : l'.invariants g' (g'.liveAtHeader live' l') with
  | nil => rfl
  | cons s rest =>
    have hmark := hmarks.allowed [] s rest hinv
    have hs := hmarks.mem s (hinv ▸ List.mem_cons_self)
    rw [h.not_canMark hg' hreach ((FlowGraph.mem_loops hg).2 hl) hl' heq hphi hlive' hs] at hmark
    cases hmark

end Rearranged

theorem FlowGraph.plans_eq_nil {g : FlowGraph} {live : Results}
    (h : ∀ l ∈ g.loops.loops, l.invariants g (g.liveAtHeader live l) = []) :
    (g.planLoops live).plans = [] := by
  obtain ⟨planned, hplanned⟩ := exists_planned g live
  rw [List.eq_nil_iff_forall_not_mem]
  intro p hp
  obtain ⟨s, hs⟩ := List.exists_mem_of_ne_nil _ (sites_ne_nil_of_mem_plans g live p hp)
  rw [hplanned.plans] at hp
  obtain ⟨e, he, rfl⟩ := List.mem_map.1 hp
  have hmem := hplanned.mem_invariants he hs
  rw [h e.1 (hplanned.mem_loops he)] at hmem
  cases hmem

end FlowOpt
