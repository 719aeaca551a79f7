import FlowOpt.Proofs.Determinism
import FlowOpt.Proofs.Hoist.Meaning

/-!
# Where hoisted code fails

Where operators without side effects may give no result, an instruction in a preheader may fail
although control never comes to where it stood. Hoisted code fails nowhere else, unless the code
does.
-/

namespace FlowOpt

open FlowOpt.Execution

variable {V : Type} {stem : String} {blocks blocks' : List Block} {g : FlowGraph} {live : Results}
  {planned : List PlannedLoop} {moves : List Move} {I : Interp V} {σ : Store V}
  {es es' : List (RunEvent V)} {st t : State V} {first : Block}

/-- If the code does not fail, the hoisted code comes to its end or stops in a preheader. -/
theorem Rearranged.finished_or_stops (h : Rearranged stem blocks g live planned moves blocks')
    (hcode : Hoistable g blocks planned) (hI : I.Regular) (hfirst : blocks.head? = some first)
    (henter : Enters blocks none first.name σ [] es st) (hsafe : ¬ Faults blocks I σ)
    (hrun : RunsFrom blocks' I σ es' t) (ht : Stuck blocks' I t) :
    t.point = .finished ∨ StopsInPreheader blocks' moves I t := by
  have hshown : Hides g planned moves fun _ : RunEvent V => (none : Option Unit) :=
    ⟨fun _ _ _ _ => rfl, fun _ _ _ _ => rfl⟩
  have hstops : ∀ u, StopsInPreheader blocks' moves I u → Stuck blocks' I u :=
    fun u ⟨_, _, _, _, hstop⟩ => hstop.2
  obtain ⟨first', es₀, st₀, hfirst', henter', hstart⟩ := h.starts hcode hI hshown hfirst henter
  obtain ⟨first'', es₁, es₂, st₁, hfirst'', henter'', hr, -⟩ := hrun
  obtain rfl := Option.some.inj (hfirst'.symm.trans hfirst'')
  obtain ⟨-, rfl⟩ := henter'.deterministic h.nodup_names henter''
  rcases hstart with ⟨es₃, st₃, hr₃, hmatches, -⟩ | ⟨es₃, st₃, hr₃, hstop, -⟩
  · obtain ⟨es₄, hrest⟩ := hr₃.of_stuck h.nodup_names hr ht
    refine Execution.finished_or_stops h.nodup_names (fun s es s' u hs hm => ?_)
      (fun _ _ hm => hm.same_place.1) hstops
      (fun _ _ hr hu => finished_of_not_faults hsafe hfirst henter hr hu) hmatches hrest ht
    exact (h.steps hcode hI hshown hs hm).imp
      (fun ⟨es', u', hr', hm', _, hprogress⟩ => ⟨es', u', hr', hm', hprogress⟩)
      fun ⟨es', u', hr', hstop, _⟩ => ⟨es', u', hr', hstop⟩
  · obtain ⟨es₄, hrest⟩ := hr₃.of_stuck h.nodup_names hr ht
    obtain rfl := hrest.eq_of_stuck (hstops st₃ hstop)
    exact .inr hstop

namespace Block

theorem not_faults_addTerminators
    (hlabels : ∀ b ∈ blocks, ∀ i ∈ b.instrs, i.isLabel = true → ∃ l, i = .atLabel l)
    (hn : (blocks.map (·.name)).Nodup) (hfirst : blocks.head? = some first)
    (henter : Enters blocks none first.name σ [] es st) (hsafe : ¬ Faults blocks I σ) :
    ¬ Faults (addTerminators blocks) I σ := by
  have hn' : ((addTerminators blocks).map (·.name)).Nodup := by rwa [names_addTerminators]
  rintro ⟨es', t, ⟨first', es₁, es₂, st₁, hfirst', henter', hr, -⟩, hne, ht⟩
  obtain ⟨first'', hfirst'', hname⟩ := head_addTerminators hfirst
  obtain rfl := Option.some.inj (hfirst'.symm.trans hfirst'')
  obtain ⟨st₀, henter₀, hwith⟩ := enters_addTerminators hlabels henter
  obtain ⟨-, rfl⟩ := (hname ▸ henter₀).deterministic hn' henter'
  have hstep : ∀ s es s' u, Step blocks I s es s' → WithJumps blocks s u →
      (∃ es' u', Run (addTerminators blocks) I u es' u' ∧ WithJumps blocks s' u' ∧
        (Advances (addTerminators blocks) I u u' ∨ s'.left < s.left)) ∨
      ∃ es' u', Run (addTerminators blocks) I u es' u' ∧ False := by
    intro s es s' u hs hw
    obtain ⟨es', u', hs', hw', -⟩ :=
      steps_addTerminators hlabels hn (fun _ => (none : Option Unit)) (fun _ _ _ => rfl) hs hw
    exact .inl ⟨es', u', .single hs', hw', .inl (.of_run_step (.refl u) hs')⟩
  have hend := Execution.finished_or_stops hn' hstep (fun _ _ hw => hw.same_place.1)
    (fun _ h => h.elim) (fun _ _ hr hu => finished_of_not_faults hsafe hfirst henter hr hu) hwith hr
    ht
  exact hne (hend.resolve_right id)

/-- Hoisting adds no failures but those of what it hoists: if the code does not fail, the hoisted
code stops only at its end or before a hoisted instruction. -/
theorem hoist_faults_in_preheader (names : HoistNames) (blocks : List Block) (o : HoistOutcome)
    (h : Block.hoist names blocks = .ok o)
    (hlabels : ∀ b ∈ blocks, ∀ i ∈ b.instrs, i.isLabel = true → ∃ l, i = .atLabel l)
    (hends : ∀ b ∈ addTerminators blocks, b.EndsProperly)
    (hphi : ∀ b ∈ blocks, ∀ i ∈ b.instrs, i.isPhi = false) (I : Interp V) (hI : I.Regular)
    (σ : Store V) (hsafe : ¬ Faults blocks I σ) (events : List (RunEvent V)) (st : State V)
    (hrun : RunsFrom o.blocks I σ events st) (hstuck : Stuck o.blocks I st) :
    st.point = .finished ∨ StopsAtHoisted o I st := by
  obtain ⟨g, live, planned, moves, hr, -, hhoisted⟩ := exists_rearranged h
  have hn : (blocks.map (·.name)).Nodup := names_addTerminators blocks ▸ hr.nodup
  obtain ⟨first', rest, -, hblocks, -⟩ := FlowGraph.blocks_of_ofBlocks hr.graph
  obtain ⟨first, hfirst⟩ : ∃ first, blocks.head? = some first := by
    cases hb : blocks with
    | nil => simp [hb, addTerminators] at hblocks
    | cons first _ => exact ⟨first, rfl⟩
  have hmem := List.mem_of_mem_head? hfirst
  have henter := Enters.of_headPhis_eq_nil hmem (headPhis_eq_nil (hphi first hmem)) none σ []
  have hsafe' := not_faults_addTerminators hlabels hn hfirst henter hsafe
  obtain ⟨st', henter', -⟩ := enters_addTerminators hlabels henter
  obtain ⟨first'', hfirst'', hname⟩ := head_addTerminators hfirst
  exact (hr.finished_or_stops (hoistable hr hlabels hends (.inl hphi)) hI hfirst''
    (hname ▸ henter') hsafe' hrun hstuck).imp_right fun hstop => stopsAtHoisted hhoisted hstop

def dividing : List Block :=
  [⟨"b0", [.jump "head"]⟩,
    ⟨"head", [.atLabel "head", .branch "c" "body" "done"]⟩,
    ⟨"body", [.atLabel "body", .compute "div" "q" (.named "int") ["a", "b"],
      .effect "print" ["q"], .jump "head"]⟩,
    ⟨"done", [.atLabel "done", .ret []]⟩]

def truncating : Interp Int where
  result _ args _ :=
    match args with
    | [a, b] => if b = 0 then none else some (a.tdiv b)
    | _ => some 0
  taken args := args != [0]

theorem truncating_regular : truncating.Regular := ⟨fun _ _ _ _ _ => rfl, fun _ _ _ _ _ => rfl⟩

def divided : List Block :=
  [⟨"b0", [.jump "preheader.0"]⟩,
    ⟨"preheader.0", [.atLabel "preheader.0", .compute "div" "q" (.named "int") ["a", "b"],
      .jump "head"]⟩,
    ⟨"head", [.atLabel "head", .branch "c" "body" "done"]⟩,
    ⟨"body", [.atLabel "body", .effect "print" ["q"], .jump "head"]⟩,
    ⟨"done", [.atLabel "done", .ret []]⟩]

theorem hoist_dividing : ∃ o, Block.hoist {} dividing = .ok o ∧ o.blocks = divided := by
  have houtcome : (Block.hoist {} dividing).toOption.map (·.blocks) = some divided := by
    decide +kernel
  exact exists_of_toOption_map houtcome

theorem dividing_labels : ∀ b ∈ dividing, ∀ i ∈ b.instrs, i.isLabel = true →
    ∃ l, i = .atLabel l :=
  exists_atLabel_of_forall (by decide +kernel)

theorem dividing_safe : ¬ Faults dividing truncating (fun _ => some 0) := by
  have hfirst : Enters dividing none "b0" (fun _ => some (0 : Int)) [] [⟨"b0", .enter⟩]
      ⟨.inside "b0" [.jump "head"], fun _ => some 0, []⟩ :=
    Enters.of_headPhis_eq_nil (b := dividing[0]) (List.getElem_mem _) rfl _ _ _
  have hjump : Step dividing truncating ⟨.inside "b0" [.jump "head"], fun _ => some 0, []⟩
      [⟨"b0", .branch (some "jmp") [] true⟩, ⟨"head", .enter⟩]
      ⟨.inside "head" [.branch "c" "body" "done"], fun _ => some 0, []⟩ :=
    .branch rfl rfl rfl rfl
      (Enters.of_headPhis_eq_nil (b := dividing[1]) (List.getElem_mem _) rfl _ _ _)
  have hbranch : Step dividing truncating
      ⟨.inside "head" [.branch "c" "body" "done"], fun _ => some 0, []⟩
      [⟨"head", .branch (some "br") [0] false⟩, ⟨"done", .enter⟩]
      ⟨.inside "done" [.ret []], fun _ => some 0, []⟩ :=
    .branch rfl rfl rfl rfl
      (Enters.of_headPhis_eq_nil (b := dividing[3]) (List.getElem_mem _) rfl _ _ _)
  have hret : Step dividing truncating ⟨.inside "done" [.ret []], fun _ => some 0, []⟩
      [⟨"done", .leave (some [])⟩] ⟨.finished, fun _ => some 0, []⟩ := .ret rfl rfl rfl
  exact not_faults (by decide)
    ⟨dividing[0], _, _, _, rfl, hfirst, .step hjump (.step hbranch (.single hret)), rfl⟩ rfl

theorem divided_stuck : ∃ events st, RunsFrom divided truncating (fun _ => some 0) events st ∧
    st.point ≠ .finished ∧ Stuck divided truncating st := by
  have hfirst : Enters divided none "b0" (fun _ => some (0 : Int)) [] [⟨"b0", .enter⟩]
      ⟨.inside "b0" [.jump "preheader.0"], fun _ => some 0, []⟩ :=
    Enters.of_headPhis_eq_nil (b := divided[0]) (List.getElem_mem _) rfl _ _ _
  have hjump : Step divided truncating ⟨.inside "b0" [.jump "preheader.0"], fun _ => some 0, []⟩
      [⟨"b0", .branch (some "jmp") [] true⟩, ⟨"preheader.0", .enter⟩]
      ⟨.inside "preheader.0" [.compute "div" "q" (.named "int") ["a", "b"], .jump "head"],
        fun _ => some 0, []⟩ :=
    .branch rfl rfl rfl rfl
      (Enters.of_headPhis_eq_nil (b := divided[1]) (List.getElem_mem _) rfl _ _ _)
  refine ⟨_, _, ⟨divided[0], _, _, _, rfl, hfirst, .single hjump, rfl⟩, nofun, fun es t hstep => ?_⟩
  cases hstep with
  | label hl => cases hl
  | branch _ hi => cases hi
  | ret _ hi => exact absurd hi (by decide)
  | operation _ _ ha hr =>
    have hzeros : (["a", "b"].map fun _ => some (0 : Int)) = [0, 0].map some := rfl
    obtain rfl := args_unique hzeros ha
    cases hr

theorem dividing_ends : ∀ b ∈ addTerminators dividing, b.EndsProperly := by
  decide +kernel

theorem dividing_no_phi : ∀ b ∈ dividing, ∀ i ∈ b.instrs, i.isPhi = false := by
  decide

/-- It stops at the division. -/
theorem dividing_stops_at_hoisted : ∃ o events st, Block.hoist {} dividing = .ok o ∧
    (∀ b ∈ dividing, ∀ i ∈ b.instrs, i.isLabel = true → ∃ l, i = .atLabel l) ∧
    (∀ b ∈ addTerminators dividing, b.EndsProperly) ∧
    (∀ b ∈ dividing, ∀ i ∈ b.instrs, i.isPhi = false) ∧ truncating.Regular ∧
    ¬ Faults dividing truncating (fun _ => some 0) ∧
    RunsFrom o.blocks truncating (fun _ => some 0) events st ∧ Stuck o.blocks truncating st ∧
    StopsAtHoisted o truncating st := by
  obtain ⟨o, ho, hblocks⟩ := hoist_dividing
  obtain ⟨events, st, hrun, hne, hstuck⟩ := divided_stuck
  rw [← hblocks] at hrun hstuck
  have hstop := hoist_faults_in_preheader {} dividing o ho dividing_labels dividing_ends
    dividing_no_phi truncating truncating_regular (fun _ => some 0) dividing_safe events st hrun
    hstuck
  exact ⟨o, events, st, ho, dividing_labels, dividing_ends, dividing_no_phi, truncating_regular,
    dividing_safe, hrun, hstuck, hstop.resolve_left hne⟩

/-- The hoisted code fails although the code does not. -/
theorem dividing_faults_when_hoisted : ∃ o, Block.hoist {} dividing = .ok o ∧
    (∀ b ∈ dividing, ∀ i ∈ b.instrs, i.isLabel = true → ∃ l, i = .atLabel l) ∧
    (∀ b ∈ addTerminators dividing, b.EndsProperly) ∧
    (∀ b ∈ dividing, ∀ i ∈ b.instrs, i.isPhi = false) ∧ truncating.Regular ∧
    ¬ Faults dividing truncating (fun _ => some 0) ∧
    Faults o.blocks truncating (fun _ => some 0) := by
  obtain ⟨o, ho, hblocks⟩ := hoist_dividing
  obtain ⟨events, st, hrun, hne, hstuck⟩ := divided_stuck
  exact ⟨o, ho, dividing_labels, dividing_ends, dividing_no_phi, truncating_regular, dividing_safe,
    hblocks ▸ ⟨events, st, hrun, hne, hstuck⟩⟩

end Block

end FlowOpt
