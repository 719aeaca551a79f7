import FlowOpt.Proofs.Hoist.Simulation
import FlowOpt.Proofs.Terminators

/-!
# Hoisted code does what the code does

Where operators without side effects always give a result, every run of the code is answered by a
run of the hoisted code that shows the same, preheaders and hoisted instructions aside.
-/

namespace FlowOpt

open FlowOpt.Execution

variable {V : Type} {stem : String} {names : HoistNames} {blocks blocks' : List Block}
  {o : HoistOutcome} {g : FlowGraph} {live : Results} {planned : List PlannedLoop}
  {moves : List Move} {I : Interp V} {σ : Store V} {es : List (RunEvent V)} {st : State V}

/-- What an event shows: nothing in a preheader or of an instruction that is hoisted, and nothing
of jumps, which the entering of the next block shows. -/
def HoistOutcome.shown (o : HoistOutcome) (e : RunEvent V) : Option (RunEvent V) :=
  if o.preheaders.any (·.1 == e.block) then none
  else
    match e.action with
    | .operation i _ _ =>
      if o.hoisted.any fun t => t.block == e.block && decide (t.instr = i) then none else some e
    | .branch op _ _ => if op = some "jmp" then none else some e
    | _ => some e

theorem HoistOutcome.shown_jump (o : HoistOutcome) (block : String) (args : List V)
    (taken : Bool) : o.shown ⟨block, .branch (some "jmp") args taken⟩ = none := by
  unfold HoistOutcome.shown
  split <;> rfl

namespace Rearranged

variable (h : Rearranged stem blocks g live planned moves blocks')
include h

theorem hides (hpre : o.preheaders = moves.map fun m => (m.2, m.1.header))
    (hhoisted : o.hoisted = moves.flatMap fun m =>
      m.1.sites.map fun s => ⟨g.nameOf s.node, m.2, s.instr⟩) :
    Hides g planned moves (o.shown : RunEvent V → Option (RunEvent V)) where
  preheader m hm e he := by
    apply if_pos
    rw [hpre, List.any_eq_true]
    exact ⟨_, List.mem_map_of_mem hm, by simp [he]⟩
  taken s hs args r := by
    obtain ⟨e, he, hse⟩ := mem_takenBy.1 hs
    obtain ⟨m, hm, hme⟩ := h.exists_move he
    have hany : (o.hoisted.any fun t => t.block == g.nameOf s.node && decide (t.instr = s.instr)) =
        true := by
      rw [hhoisted, List.any_eq_true]
      exact ⟨⟨g.nameOf s.node, m.2, s.instr⟩, List.mem_flatMap.2 ⟨m, hm,
        List.mem_map.2 ⟨s, hme ▸ hse, rfl⟩⟩, by simp⟩
    unfold HoistOutcome.shown
    split
    · rfl
    · exact if_pos hany

theorem exists_instrAt_header {e : PlannedLoop} {k : Nat} {i : Instruction} (he : e ∈ planned)
    (hi : g.InstrAt e.1.header k i) : ∃ b ∈ blocks, i ∈ b.instrs := by
  obtain ⟨b, hb, hib⟩ := hi
  have hheader := LoopForest.contains_header h.wellFormed.graph (h.mem_loops he)
  exact ⟨b, h.block_of_own hb (h.own_of_contains he hheader), List.mem_of_getElem? hib⟩

variable (hlabels : ∀ b ∈ blocks, ∀ i ∈ b.instrs, i.isLabel = true → ∃ l, i = .atLabel l)
  (hends : ∀ b ∈ blocks, b.EndsProperly)
  (hfalls : ∀ b ∈ blocks, b.fallsThrough = true →
    Block.following (blocks.map (·.name)) b.name = none)
include hlabels hends hfalls

theorem hoistable_of_no_phi (hphi : ∀ b ∈ blocks, ∀ i ∈ b.instrs, i.isPhi = false) :
    Hoistable g blocks planned where
  labels := hlabels
  ends := hends
  falls := hfalls
  heads b hb i hi := hphi b hb i ((List.dropWhile_sublist _).subset hi)
  sources b hb i hi hp := by
    rw [hphi b hb i hi] at hp
    cases hp
  operands e he v _ k i x hi hp := by
    obtain ⟨b, hb, hib⟩ := h.exists_instrAt_header he hi
    rw [hphi b hb i hib] at hp
    cases hp

theorem hoistable_of_strictlyAssigned (hs : g.StrictlyAssigned blocks) :
    Hoistable g blocks planned where
  labels := hlabels
  ends := hends
  falls := hfalls
  heads := hs.heads
  sources b hb i hi hp l hl := by
    obtain ⟨c, hc, -, rfl⟩ := (hs.sources b hb i hi hp l).1 hl
    exact List.mem_map_of_mem hc
  operands e he v hv k i x hi hp hx s hsite := by
    obtain ⟨b, hb, hib⟩ := h.exists_instrAt_header he hi
    have hl : i.isLabel = false := by
      by_contra hl
      obtain ⟨l, rfl⟩ := hlabels b hb i hib (by simpa using hl)
      cases hp
    exact h.operand_ne_dest hs he hi hl hp hv hx hsite

end Rearranged

namespace Block

def PhisInOrder (names : HoistNames) (blocks : List Block) : Prop :=
  (∀ b ∈ blocks, ∀ i ∈ b.instrs, i.isPhi = false) ∨
    ∃ g, FlowGraph.ofBlocks (addTerminators blocks) names.entry = .ok g ∧
      g.StrictlyAssigned (addTerminators blocks)

def StopsAtHoisted (o : HoistOutcome) (I : Interp V) (st : State V) : Prop :=
  ∃ t ∈ o.hoisted, StopsBefore o.blocks I t.preheader t.instr st

section Rearranged

variable (h : Rearranged names.entry (addTerminators blocks) g live planned moves blocks')
include h

theorem hoistable (hlabels : ∀ b ∈ blocks, ∀ i ∈ b.instrs, i.isLabel = true → ∃ l, i = .atLabel l)
    (hends : ∀ b ∈ addTerminators blocks, b.EndsProperly) (hphis : PhisInOrder names blocks) :
    Hoistable g (addTerminators blocks) planned := by
  have hlabels' : ∀ b ∈ addTerminators blocks, ∀ i ∈ b.instrs, i.isLabel = true →
      ∃ l, i = .atLabel l := fun b hb i hi hl => eq_atLabel_of_isLabel hlabels hb hi hl
  have hfalls : ∀ b ∈ addTerminators blocks, b.fallsThrough = true →
      following ((addTerminators blocks).map (·.name)) b.name = none :=
    fun b hb hf => following_eq_none (names_addTerminators blocks ▸ h.nodup) hb hf
  rcases hphis with hphi | ⟨g', hg', hs⟩
  · apply h.hoistable_of_no_phi hlabels' hends hfalls
    intro b hb i hi
    rcases mem_instrs_addTerminators hb hi with ⟨c, hc, hic⟩ | ⟨l, rfl⟩ | ⟨l, rfl⟩
    · exact hphi c hc i hic
    · rfl
    · rfl
  · obtain rfl : g' = g := Except.ok.inj (hg'.symm.trans h.graph)
    exact h.hoistable_of_strictlyAssigned hlabels' hends hfalls hs

end Rearranged

theorem stopsAtHoisted (hhoisted : o.hoisted = moves.flatMap fun m =>
    m.1.sites.map fun s => ⟨g.nameOf s.node, m.2, s.instr⟩)
    (hstop : StopsInPreheader o.blocks moves I st) : StopsAtHoisted o I st := by
  obtain ⟨m, hm, s, hs, hstop⟩ := hstop
  refine ⟨⟨g.nameOf s.node, m.2, s.instr⟩, ?_, hstop⟩
  rw [hhoisted]
  exact List.mem_flatMap.2 ⟨m, hm, List.mem_map_of_mem hs⟩

/-- Every run of the code is answered by a run of the hoisted code, unless that stops before a
hoisted instruction. -/
theorem hoist_runs (h : Block.hoist names blocks = .ok o)
    (hlabels : ∀ b ∈ blocks, ∀ i ∈ b.instrs, i.isLabel = true → ∃ l, i = .atLabel l)
    (hends : ∀ b ∈ addTerminators blocks, b.EndsProperly) (hphis : PhisInOrder names blocks)
    (hI : I.Regular) (hrun : RunsFrom blocks I σ es st) :
    (∃ es' st', RunsFrom o.blocks I σ es' st' ∧ es'.filterMap o.shown = es.filterMap o.shown ∧
        st'.point.block? = st.point.block? ∧ observable st'.effects = observable st.effects) ∨
      ∃ es' st', RunsFrom o.blocks I σ es' st' ∧ es'.filterMap o.shown <+: es.filterMap o.shown ∧
        StopsAtHoisted o I st' := by
  obtain ⟨g, live, planned, moves, hr, hpre, hhoisted⟩ := exists_rearranged h
  obtain ⟨es₁, st₁, hrun₁, hblock₁, heffects₁, hshown₁⟩ :=
    runs_addTerminators hlabels (names_addTerminators blocks ▸ hr.nodup) o.shown_jump hrun
  rcases hr.runs (hoistable hr hlabels hends hphis) hI (hr.hides hpre hhoisted) hrun₁ with
    ⟨es', st', hrun', hmatches, heq⟩ | ⟨es', st', hrun', hstop, hprefix⟩
  · obtain ⟨hblock, heffects⟩ := hmatches.same_place
    exact .inl ⟨es', st', hrun', heq.trans hshown₁, hblock.trans hblock₁, heffects₁ ▸ heffects⟩
  · exact .inr ⟨es', st', hrun', hshown₁ ▸ hprefix, stopsAtHoisted hhoisted hstop⟩

/-- The hoisted code does what the code does: every run of the code from a store where all variables
have values is answered by a run of the hoisted code through the same blocks, preheaders aside. It
executes the same instructions with the same values, those hoisted aside. -/
theorem hoist_preserves_meaning (names : HoistNames) (blocks : List Block) (o : HoistOutcome)
    (h : Block.hoist names blocks = .ok o)
    (hlabels : ∀ b ∈ blocks, ∀ i ∈ b.instrs, i.isLabel = true → ∃ l, i = .atLabel l)
    (hends : ∀ b ∈ addTerminators blocks, b.EndsProperly) (hphis : PhisInOrder names blocks)
    (I : Interp V) (hI : I.Regular) (htotal : I.Total) (σ : Store V) (hσ : ∀ x, σ x ≠ none)
    (events : List (RunEvent V)) (st : State V) (hrun : RunsFrom blocks I σ events st) :
    ∃ events' st', RunsFrom o.blocks I σ events' st' ∧
      events'.filterMap o.shown = events.filterMap o.shown ∧
      st'.point.block? = st.point.block? ∧ observable st'.effects = observable st.effects := by
  rcases hoist_runs h hlabels hends hphis hI hrun with hanswer | ⟨es', st', hrun', -, t, ht, hstop⟩
  · exact hanswer
  · obtain ⟨g, live, planned, moves, hr, -, hhoisted⟩ := exists_rearranged h
    have hmovable : t.instr.isMovable = true := by
      rw [hhoisted, List.mem_flatMap] at ht
      obtain ⟨m, hm, ht⟩ := ht
      obtain ⟨s, hs, rfl⟩ := List.mem_map.1 ht
      obtain ⟨e, he, hme⟩ := hr.exists_loop hm
      exact hr.isMovable_of_taken (mem_takenBy.2 ⟨e, he, hme ▸ hs⟩)
    exact (not_stopsBefore htotal hmovable (hrun'.store_ne_none hσ) hstop).elim

def summing : Interp Int where
  result i args _ :=
    match i.value with
    | some (.int n) => some n.toInt
    | _ => some args.sum
  taken args := args != [0]

theorem summing_total : summing.Total := by
  intro i args effects _ hnone
  simp only [summing] at hnone
  split at hnone <;> cases hnone

theorem accumulating_runs : ∃ events st,
    RunsFrom accumulating summing (fun _ => some 0) events st ∧
      ⟨"done", .leave (some [])⟩ ∈ events := by
  have hfirst : Enters accumulating none "b0" (fun _ => some (0 : Int)) [] [⟨"b0", .enter⟩]
      ⟨.inside "b0" accumulating[0].body, fun _ => some 0, []⟩ :=
    Enters.of_headPhis_eq_nil (b := accumulating[0]) (List.getElem_mem _) rfl _ _ _
  have hconst : ∀ block x n rest (σ : Store Int) effects, Step accumulating summing
      ⟨.inside block (.constant x (.named "int") (.int n) :: rest), σ, effects⟩
      [⟨block, .operation (.constant x (.named "int") (.int n)) [] n.toInt⟩]
      ⟨.inside block rest, σ.assign (some x) (some n.toInt), effects ++ [_]⟩ :=
    fun block x n rest σ effects => .operation rfl rfl rfl rfl
  have hjump : ∀ (σ : Store Int) effects, σ "a" = some 1 → Step accumulating summing
      ⟨.inside "b0" [.jump "head"], σ, effects⟩
      [⟨"b0", .branch (some "jmp") [] true⟩, ⟨"head", .enter⟩, ⟨"head", .phi (some "x") (some 1)⟩]
      ⟨.inside "head" accumulating[1].body, σ.assignAll accumulating[1].headPhis [some 1],
        effects⟩ := fun σ effects ha =>
    .branch rfl rfl rfl rfl
      (.intro (b := accumulating[1]) (List.getElem_mem _) rfl (.cons ⟨"a", rfl, ha.symm⟩ .nil))
  have hadd : ∀ rest (σ : Store Int) effects, σ "x" = some 1 → σ "k" = some 5 →
      Step accumulating summing
        ⟨.inside "head" (.compute "add" "b" (.named "int") ["x", "k"] :: rest), σ, effects⟩
        [⟨"head", .operation (.compute "add" "b" (.named "int") ["x", "k"]) [1, 5] 6⟩]
        ⟨.inside "head" rest, σ.assign (some "b") (some 6), effects ++ [_]⟩ :=
    fun rest σ effects hx hk => .operation rfl rfl (by simp [Instruction.compute, hx, hk]) rfl
  have hbranch : ∀ (σ : Store Int) effects, σ "c" = some 0 → Step accumulating summing
      ⟨.inside "head" [.branch "c" "head" "done"], σ, effects⟩
      [⟨"head", .branch (some "br") [0] false⟩, ⟨"done", .enter⟩]
      ⟨.inside "done" accumulating[2].body, σ, effects⟩ := fun σ effects hc =>
    .branch rfl rfl (by simp [Instruction.branch, hc]) rfl
      (Enters.of_headPhis_eq_nil (b := accumulating[2]) (List.getElem_mem _) rfl _ _ _)
  have hret : ∀ (σ : Store Int) effects, Step accumulating summing
      ⟨.inside "done" [.ret []], σ, effects⟩ [⟨"done", .leave (some [])⟩]
      ⟨.finished, σ, effects⟩ := fun σ effects => .ret rfl rfl rfl
  have hrun := Run.step (hconst "b0" "a" 1 [.jump "head"] (fun _ => some 0) [])
    (.step (hjump _ _ rfl)
      (.step (hconst "head" "k" 5 _ _ _)
        (.step (hadd _ _ _ rfl rfl) (.step (hbranch _ _ rfl) (.single (hret _ _))))))
  exact ⟨_, _, ⟨accumulating[0], _, _, _, rfl, hfirst, hrun, rfl⟩, by simp⟩

/-- The run is answered with the constant in the preheader. -/
theorem accumulating_preserves_meaning : ∃ o events st, Block.hoist {} accumulating = .ok o ∧
    o.preheaders = [("preheader.0", "head")] ∧
    (∀ b ∈ addTerminators accumulating, b.EndsProperly) ∧ PhisInOrder {} accumulating ∧
    summing.Regular ∧ summing.Total ∧
    RunsFrom accumulating summing (fun _ => some 0) events st ∧
    ⟨"done", .leave (some [])⟩ ∈ events ∧
    ∃ events' st', RunsFrom o.blocks summing (fun _ => some 0) events' st' ∧
      events'.filterMap o.shown = events.filterMap o.shown ∧
      st'.point.block? = st.point.block? ∧ observable st'.effects = observable st.effects := by
  obtain ⟨o, ho, hpre⟩ := hoist_accumulating
  have hends : ∀ b ∈ addTerminators accumulating, b.EndsProperly := by
    decide +kernel
  have hphis : PhisInOrder {} accumulating := .inr accumulating_strictlyAssigned
  have hregular : summing.Regular := ⟨fun _ _ _ _ _ => rfl, fun _ _ _ _ _ => rfl⟩
  obtain ⟨events, st, hrun, hleave⟩ := accumulating_runs
  exact ⟨o, events, st, ho, hpre, hends, hphis, hregular, summing_total, hrun, hleave,
    hoist_preserves_meaning {} accumulating o ho accumulating_labels hends hphis summing hregular
      summing_total (fun _ => some 0) (fun _ => Option.some_ne_none _) events st hrun⟩

end Block

end FlowOpt
