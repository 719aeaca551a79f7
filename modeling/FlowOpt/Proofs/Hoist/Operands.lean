import FlowOpt.Proofs.Except
import FlowOpt.Proofs.Hoist.Layout

/-!
# What the phis of a header read behind its preheader

A phi of a header takes the preheader for the block it stands for, so it reads behind the hoisted
instructions what was read before them. In strict single-assignment form none of these assigns such
an operand: the assignment would dominate the block that is left, and with it the header would, so
that block would lie in the loop.
-/

namespace FlowOpt

open FlowOpt.Digraph

/-- Code of a graph where every variable has one assignment and every use is dominated by it. Phis
stand at the heads of blocks, with one label for every predecessor, and their operands are used at
the ends of these. -/
structure FlowGraph.StrictlyAssigned (g : FlowGraph) (blocks : List Block) : Prop where
  once : (blocks.flatMap (·.destinations)).Nodup
  heads : ∀ b ∈ blocks, ∀ i ∈ b.body, i.isPhi = false
  sources : ∀ b ∈ blocks, ∀ i ∈ b.instrs, i.isPhi = true →
    ∀ l, l ∈ i.labels ↔ ∃ c ∈ blocks, b.name ∈ c.targets ∧ c.name = l
  uses : ∀ v k i x, g.graph.Reachable 0 v → g.InstrAt v k i → i.isPhi = false → x ∈ i.args →
    ∀ u n a, g.InstrAt u n a → a.dest = some x →
      (u = v ∧ n < k) ∨ (u ≠ v ∧ g.graph.Dominates 0 u v)
  operands : ∀ p w k i x, g.graph.Reachable 0 p → g.InstrAt w k i → i.isPhi = true →
    (x, g.nameOf p) ∈ i.args.zip i.labels →
    ∀ u n a, g.InstrAt u n a → a.dest = some x → g.graph.Dominates 0 u p

variable {names : HoistNames} {stem : String} {blocks blocks' : List Block} {o : HoistOutcome}
  {g : FlowGraph} {live : Results} {planned : List PlannedLoop} {moves : List Move} {b c : Block}
  {e : PlannedLoop} {m : Move} {s : Site} {x : String} {v k : Nat} {i : Instruction}

namespace Rearranged

variable (h : Rearranged stem blocks g live planned moves blocks')
include h

/-- A header with phis is entered from one reachable block. -/
theorem reachable_of_mem_entering (he : e ∈ planned) (hi : g.InstrAt e.1.header k i)
    (hl : i.isLabel = false) (hphi : i.isPhi = true) (hv : v ∈ e.1.entering g.graph) :
    g.graph.Reachable 0 v := by
  have hg := h.wellFormed
  obtain ⟨before, after, -, hplan⟩ := h.isPlanned.isPlan_of_mem he
  obtain ⟨c, hc, hic⟩ := hi
  have hhas := FlowGraph.hasPhi_of_mem hc
    (List.mem_filter.2 ⟨List.mem_of_getElem? hic, by simp [hl]⟩) hphi
  have hne := FlowGraph.ne_zero_of_contains hg (h.isPlanned.mem_loops he)
    (LoopForest.contains_header hg.graph (h.mem_loops he))
  obtain ⟨u, hu, hr⟩ := LoopForest.exists_entering hg.graph (h.mem_loops he) hne
  rwa [hplan.entering_unique hhas hv hu]

/-- Nothing hoisted out of a loop assigns what the header's phis read where the loop is entered. -/
theorem operand_ne_dest (hs : g.StrictlyAssigned blocks) (he : e ∈ planned)
    (hi : g.InstrAt e.1.header k i) (hl : i.isLabel = false) (hphi : i.isPhi = true)
    (hv : v ∈ e.1.entering g.graph) (hx : (x, g.nameOf v) ∈ i.args.zip i.labels)
    (hsite : s ∈ e.2.sites) : s.instr.dest ≠ some x := by
  intro hd
  have hg := h.wellFormed
  have hloops := h.mem_loops he
  have hr := h.reachable_of_mem_entering he hi hl hphi hv
  have hmarks := NaturalLoop.marks_invariants g e.1 (g.liveAtHeader live e.1)
  obtain ⟨hin, hat⟩ := (NaturalLoop.mem_sites hg (h.isPlanned.mem_loops he)).1
    (hmarks.mem s (h.isPlanned.mem_invariants he hsite))
  have hassigned := hs.operands v _ k i x hr hi hphi hx _ _ _ hat hd
  have hheader := LoopForest.header_dominates hg.graph hloops hin (hassigned.reachable hr)
  have hdom := hheader.trans hassigned
  obtain ⟨hpred, hout⟩ := List.mem_filter.1 hv
  have hsucc := (hg.graph.symmetric v e.1.header).2 hpred
  rw [LoopForest.contains_of_dominates hg.graph hloops hr hsucc hdom] at hout
  cases hout

end Rearranged

theorem mem_zip_map {α β γ : Type} {f : β → γ} {l : List α} {l' : List β} {a : α} {c : γ}
    (h : (a, c) ∈ l.zip (l'.map f)) : ∃ b, (a, b) ∈ l.zip l' ∧ f b = c := by
  rw [List.zip_map_right, List.mem_map] at h
  obtain ⟨⟨a', b⟩, hmem, heq⟩ := h
  obtain ⟨rfl, rfl⟩ := Prod.mk.inj heq
  exact ⟨b, hmem, rfl⟩

/-- In strict single-assignment form, what a phi of a header reads behind its preheader is not
assigned by what was hoisted there. -/
theorem Block.hoist_spares_operands (names : HoistNames) (blocks : List Block) (o : HoistOutcome)
    (g : FlowGraph) (h : Block.hoist names blocks = .ok o)
    (hgraph : FlowGraph.ofBlocks (Block.addTerminators blocks) names.entry = .ok g)
    (hl : ∀ b ∈ blocks, ∀ i ∈ b.instrs, i.isLabel = true → ∃ l, i = .atLabel l)
    (hs : g.StrictlyAssigned (Block.addTerminators blocks)) :
    ∀ p ∈ o.preheaders, ∀ b ∈ o.blocks, b.name = p.2 → ∀ i ∈ b.instrs, i.isPhi = true →
      ∀ x, (x, p.1) ∈ i.args.zip i.labels →
        ∀ t ∈ o.hoisted, t.preheader = p.1 → t.instr.dest ≠ some x := by
  obtain ⟨g', live, planned, moves, hr, hpre, hhoisted⟩ := exists_rearranged h
  obtain rfl : g' = g := Except.ok.inj (hr.graph.symm.trans hgraph)
  intro p hp b' hb' hname i' hi' hphi x hx t ht htp
  rw [hpre, List.mem_map] at hp
  obtain ⟨m, hm, rfl⟩ := hp
  obtain ⟨e, he, hme⟩ := hr.exists_loop hm
  obtain ⟨c, hc, hcname⟩ := hr.header_node he
  have hheader := LoopForest.contains_header hr.wellFormed.graph (hr.mem_loops he)
  have hown := hr.own_of_contains he hheader
  -- The phi is one of the header, with new labels.
  rw [hr.block_eq hc hown hb' (hname.trans ((congrArg _ hme).trans hcname.symm)),
    List.mem_map] at hi'
  obtain ⟨i, hi, rfl⟩ := hi'
  rw [HoistPlan.redirectAll_eq] at hphi hx
  obtain ⟨l, hxl, hto⟩ := mem_zip_map hx
  have hic : i ∈ c.instrs := (kept_sublist _ _ _ _).subset hi
  obtain ⟨k, hk⟩ := List.mem_iff_getElem?.1 hic
  have hcb : c ∈ Block.addTerminators blocks := hr.block_of_own hc hown
  have hlabel : i.isLabel = false := by
    by_contra hil
    rw [Bool.not_eq_false] at hil
    obtain ⟨n, rfl⟩ := Block.eq_atLabel_of_isLabel hl hcb hic hil
    simp [Instruction.isPhi, Instruction.atLabel] at hphi
  obtain ⟨d, hd, -, hdname⟩ := (hs.sources c hcb i hic hphi l).1 (List.of_mem_zip hxl).2
  have hmem := hr.mem_entering_of_relabel hm hphi (hdname ▸ List.mem_map_of_mem hd) hto
  obtain ⟨before, after, -, hplan⟩ := hr.isPlanned.isPlan_of_mem he
  rw [hme, hplan.entering, List.mem_map] at hmem
  obtain ⟨v, hv, rfl⟩ := hmem
  obtain ⟨m', hm', s, hsite, rfl⟩ : ∃ m' ∈ moves, ∃ s ∈ m'.1.sites,
      ⟨g'.nameOf s.node, m'.2, s.instr⟩ = t := by
    rw [hhoisted, List.mem_flatMap] at ht
    obtain ⟨m', hm', ht⟩ := ht
    exact ⟨m', hm', List.mem_map.1 ht⟩
  obtain rfl := hr.eq_of_preheader_eq hm' hm htp
  exact hr.operand_ne_dest hs he ⟨c, hc, hk⟩ hlabel hphi (List.mem_filter.1 hv).1 hxl
    (hme ▸ hsite)

namespace Block

def accumulating : List Block :=
  [⟨"b0", [.constant "a" (.named "int") (.int 1), .jump "head"]⟩,
    ⟨"head", [.atLabel "head", .phi "x" (some (.named "int")) ["a", "b"] ["b0", "head"],
      .constant "k" (.named "int") (.int 5), .compute "add" "b" (.named "int") ["x", "k"],
      .branch "c" "head" "done"]⟩,
    ⟨"done", [.atLabel "done", .ret []]⟩]

def accumulatingSites : List Site :=
  accumulating.zipIdx.flatMap fun (b, v) => b.instrs.zipIdx.map fun (i, k) => ⟨v, k, i⟩

theorem addTerminators_accumulating : addTerminators accumulating = accumulating := by
  decide +kernel

theorem accumulating_strictlyAssigned : ∃ g,
    FlowGraph.ofBlocks (addTerminators accumulating) "entry" = .ok g ∧
      g.StrictlyAssigned (addTerminators accumulating) := by
  have hshape : (FlowGraph.ofBlocks accumulating "entry").toOption.map (·.blocks) =
      some accumulating := by
    decide +kernel
  rw [addTerminators_accumulating]
  cases hg : FlowGraph.ofBlocks accumulating "entry" with
  | error e => simp [hg, Except.toOption] at hshape
  | ok g =>
    have hblocks : g.blocks = accumulating := by
      simpa only [hg, Except.toOption, Option.map_some, Option.some.injEq] using hshape
    have hsite : ∀ v k i, g.InstrAt v k i → (⟨v, k, i⟩ : Site) ∈ accumulatingSites := by
      rintro v k i ⟨b, hb, hi⟩
      rw [hblocks] at hb
      exact List.mem_flatMap.2 ⟨(b, v), List.mem_zipIdx_iff_getElem?.2 hb,
        List.mem_map.2 ⟨(i, k), List.mem_zipIdx_iff_getElem?.2 hi, rfl⟩⟩
    refine ⟨g, rfl, by decide, by decide, ?_, ?_, ?_⟩
    · have hlabels : ∀ b ∈ accumulating, ∀ i ∈ b.instrs, i.isPhi = true →
          i.labels = (accumulating.filter (·.targets.contains b.name)).map (·.name) := by
        decide +kernel
      intro b hb i hi hphi l
      rw [hlabels b hb i hi hphi]
      simp [and_assoc]
    · have hlocal : ∀ s ∈ accumulatingSites, s.instr.isPhi = false → ∀ x ∈ s.instr.args,
          ∀ t ∈ accumulatingSites, t.instr.dest = some x →
            t.node = s.node ∧ t.index < s.index := by
        decide +kernel
      intro v k i x _ hi hphi hx u n a ha hd
      exact .inl (hlocal _ (hsite v k i hi) hphi x hx _ (hsite u n a ha) hd)
    · have hends : ∀ s ∈ accumulatingSites, s.instr.isPhi = true →
          ∀ y ∈ s.instr.args.zip s.instr.labels, ∀ t ∈ accumulatingSites,
            t.instr.dest = some y.1 → accumulating[t.node]?.map (·.name) = some y.2 := by
        decide +kernel
      intro p w k i x hp hi hphi hx u n a ha hd
      have hname := hends _ (hsite w k i hi) hphi _ hx _ (hsite u n a ha) hd
      obtain ⟨b, hb, hbname⟩ := Option.map_eq_some_iff.1 hname
      obtain ⟨c, hc⟩ : ∃ c, g.blocks[p]? = some c :=
        ⟨_, List.getElem?_eq_getElem (FlowGraph.size_eq_length g ▸ hp.lt)⟩
      rw [FlowGraph.nameOf_eq hc] at hbname
      obtain rfl := (FlowGraph.WellFormed.of_ofBlocks hg).eq_of_name_eq (hblocks ▸ hb) hc hbname
      exact .refl _

theorem exists_atLabel_of_forall {blocks : List Block}
    (h : ∀ b ∈ blocks, ∀ i ∈ b.instrs, i.isLabel = true → i = .atLabel (i.label.getD "")) :
    ∀ b ∈ blocks, ∀ i ∈ b.instrs, i.isLabel = true → ∃ l, i = .atLabel l :=
  fun b hb i hi hl => ⟨_, h b hb i hi hl⟩

theorem accumulating_labels : ∀ b ∈ accumulating, ∀ i ∈ b.instrs, i.isLabel = true →
    ∃ l, i = .atLabel l :=
  exists_atLabel_of_forall (by decide +kernel)

theorem hoist_accumulating : ∃ o, Block.hoist {} accumulating = .ok o ∧
    o.preheaders = [("preheader.0", "head")] := by
  have houtcome : (Block.hoist {} accumulating).toOption.map (·.preheaders) =
      some [("preheader.0", "head")] := by
    decide +kernel
  exact exists_of_toOption_map houtcome

/-- The phi of the header still reads its operand behind the constant. -/
theorem accumulating_spares_operands : ∃ o g, Block.hoist {} accumulating = .ok o ∧
    o.preheaders = [("preheader.0", "head")] ∧
    FlowGraph.ofBlocks (addTerminators accumulating) "entry" = .ok g ∧
    (∀ b ∈ accumulating, ∀ i ∈ b.instrs, i.isLabel = true → ∃ l, i = .atLabel l) ∧
    g.StrictlyAssigned (addTerminators accumulating) ∧
    ∀ p ∈ o.preheaders, ∀ b ∈ o.blocks, b.name = p.2 → ∀ i ∈ b.instrs, i.isPhi = true →
      ∀ x, (x, p.1) ∈ i.args.zip i.labels →
        ∀ t ∈ o.hoisted, t.preheader = p.1 → t.instr.dest ≠ some x := by
  obtain ⟨o, ho, hpre⟩ := hoist_accumulating
  obtain ⟨g, hg, hs⟩ := accumulating_strictlyAssigned
  exact ⟨o, g, ho, hpre, hg, accumulating_labels, hs,
    hoist_spares_operands {} accumulating o g ho hg accumulating_labels hs⟩

def rereading : List Block :=
  [⟨"b0", [.constant "a" (.named "int") (.int 1), .jump "head"]⟩,
    ⟨"head", [.atLabel "head", .phi "x" (some (.named "int")) ["a", "b"] ["b0", "body"],
      .branch "c" "body" "done"]⟩,
    ⟨"body", [.atLabel "body", .constant "a" (.named "int") (.int 5),
      .compute "add" "b" (.named "int") ["x", "x"], .jump "head"]⟩,
    ⟨"done", [.atLabel "done", .effect "print" ["x"], .ret []]⟩]

/-- Without single assignment a hoisted constant overwrites what the phi reads. -/
theorem rereading_overwrites_operand : ∃ o, Block.hoist {} rereading = .ok o ∧
    ∃ p ∈ o.preheaders, ∃ b ∈ o.blocks, b.name = p.2 ∧ ∃ i ∈ b.instrs, i.isPhi = true ∧
      ∃ x, (x, p.1) ∈ i.args.zip i.labels ∧
        ∃ t ∈ o.hoisted, t.preheader = p.1 ∧ t.instr.dest = some x := by
  have hoverwrites : (Block.hoist {} rereading).toOption.any (fun o =>
      o.preheaders.any fun p => o.blocks.any fun b => b.name == p.2 &&
        b.instrs.any fun i => i.isPhi && (i.args.zip i.labels).any fun y => y.2 == p.1 &&
          o.hoisted.any fun t => t.preheader == p.1 && t.instr.dest == some y.1) = true := by
    decide +kernel
  obtain ⟨o, ho, hoverwrites⟩ := exists_of_toOption_any hoverwrites
  simp only [List.any_eq_true, Bool.and_eq_true, beq_iff_eq] at hoverwrites
  obtain ⟨p, hp, b, hb, hname, i, hi, hphi, ⟨x, l⟩, hx, rfl, t, ht, htp, hd⟩ := hoverwrites
  exact ⟨o, ho, p, hp, b, hb, hname, i, hi, hphi, x, hx, t, ht, htp, hd⟩

end Block

end FlowOpt
