import FlowOpt.Pass.Basic
import FlowOpt.Proofs.Cut

/-!
# Code with its jumps written out

Once the jumps are written out, no block but the last is left at its end. Writing them out again
changes nothing, and the joined blocks are cut as they were. So a pass, which writes them out before
it starts, does the same with the code whether that was done before or not.
-/

namespace FlowOpt

variable {blocks : List Block}

namespace Block

theorem hoist_addTerminators (names : HoistNames) (blocks : List Block) :
    hoist names (addTerminators blocks) = hoist names blocks := by
  unfold hoist
  rw [addTerminators_idem]

end Block

/-- What two runs of a pass report and leave behind is the same, or they end with the same error. -/
def PassRun.EndsLike (r r' : PassRun) : Prop :=
  r'.events = r.events ∧ ((∃ e, r.result = .error e ∧ r'.result = .error e) ∨
    (∃ c c', r.result = .ok c ∧ r'.result = .ok c') ∧ r'.function = r.function)

theorem Function.explicitGraph_of_explicit {f : Function} (h : Block.split f.instrs = .ok blocks)
    (stem : String) :
    { f with instrs := Block.flatten (Block.addTerminators blocks) }.explicitGraph stem =
      f.explicitGraph stem := by
  have hcut := (Block.Cut.of_split h).addTerminators.split_flatten
  unfold Function.explicitGraph
  rw [h, hcut]
  change FlowGraph.ofBlocks (Block.addTerminators (Block.addTerminators blocks)) stem = _
  rw [Block.addTerminators_idem]
  rfl

theorem Pass.ssa_endsLike {f : Function} (h : Block.split f.instrs = .ok blocks)
    (undefined entry : String) : ((Pass.ssa undefined entry).run f).EndsLike
      ((Pass.ssa undefined entry).run
        { f with instrs := Block.flatten (Block.addTerminators blocks) }) := by
  have hgraph := Function.explicitGraph_of_explicit h entry
  have hparams : { f with instrs := Block.flatten (Block.addTerminators blocks) }.paramNames =
      f.paramNames := rfl
  unfold Pass.ssa
  simp only [hgraph, hparams]
  cases hbuilt : (do
      let g ← f.explicitGraph entry
      return (g, ← SsaForm.ofGraph g f.paramNames undefined) : Except Error _) with
  | error e => exact ⟨rfl, .inl ⟨e, rfl, rfl⟩⟩
  | ok built => exact ⟨rfl, .inr ⟨⟨_, _, rfl, rfl⟩, rfl⟩⟩

/-- Blocks in which nothing is left to write out, and which passes treat like the code. -/
structure Block.ExplicitForm (instrs : List Instruction) (explicit : List Block) : Prop where
  ends : ∀ b ∈ explicit.dropLast, ∃ before i, b.instrs = before ++ [i] ∧ i.isTerminator = true
  again : addTerminators explicit = explicit
  rejoin : split (flatten explicit) = .ok explicit
  ssa : ∀ f : Function, f.instrs = instrs → ∀ undefined entry,
    ((Pass.ssa undefined entry).run f).EndsLike
      ((Pass.ssa undefined entry).run { f with instrs := flatten explicit })
  hoist : ∀ names, (split (flatten explicit) >>= Block.hoist names) =
    (split instrs >>= Block.hoist names)

/-- Writing out the jumps brings code into that form. -/
theorem Block.addTerminators_explicitForm {instrs : List Instruction} {blocks : List Block}
    (h : Block.split instrs = .ok blocks) : ExplicitForm instrs (addTerminators blocks) where
  ends _ hb := fallsThrough_eq_false_iff.1 (fallsThrough_of_mem_dropLast hb)
  again := addTerminators_idem blocks
  rejoin := (Cut.of_split h).addTerminators.split_flatten
  ssa f hf undefined entry := Pass.ssa_endsLike (hf ▸ h) undefined entry
  hoist names := by
    rw [(Cut.of_split h).addTerminators.split_flatten, h]
    exact hoist_addTerminators names blocks

theorem Block.circling_explicitForm : Block.split circling = .ok circlingBlocks ∧
    addTerminators circlingBlocks ≠ circlingBlocks ∧
    ExplicitForm circling (addTerminators circlingBlocks) := by
  have hsplit : Block.split circling = .ok circlingBlocks := by decide +kernel
  exact ⟨hsplit, by decide +kernel, addTerminators_explicitForm hsplit⟩

end FlowOpt
