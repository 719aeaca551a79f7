import FlowOpt.Proofs.Except
import FlowOpt.Proofs.Hoist.Rejoin
import FlowOpt.Proofs.Ssa.Rejoin

/-!
# Passes one after another

A pass works on blocks, and the code between two passes is a flat list of instructions. Where jumps
lead to labels nothing is lost on the way: joined and cut again, the blocks that any number of
passes leave are the same blocks under the same names, and their jumps lead to labels again.
-/

namespace FlowOpt

namespace Block

variable {instrs : List Instruction} {blocks blocks' : List Block}

/-- What one pass makes of blocks, whatever names it is given for what it puts in. -/
inductive PassedTo : List Block → List Block → Prop
  | hoist {blocks : List Block} {names : HoistNames} {o : HoistOutcome}
      (h : Block.hoist names blocks = .ok o) : PassedTo blocks o.blocks
  | ssa {blocks : List Block} {stem undefined : String} {params : List String} {g : FlowGraph}
      {form : SsaForm} (hg : FlowGraph.ofBlocks (addTerminators blocks) stem = .ok g)
      (h : SsaForm.ofGraph g params undefined = .ok form) : PassedTo blocks form.blocks

theorem PassedTo.cut (h : PassedTo blocks blocks') (hcut : Cut blocks) (hlinked : Linked blocks) :
    Cut blocks' ∧ Linked blocks' := by
  cases h with
  | hoist h => exact hoist_cut hcut hlinked h
  | ssa hg h => exact SsaForm.cut_of_ofGraph hcut.addTerminators (hlinked.addTerminators hcut) hg h

/-- Any number of passes leave blocks as cutting gives them. -/
theorem cut_of_passes (h : Relation.ReflTransGen PassedTo blocks blocks') (hcut : Cut blocks)
    (hlinked : Linked blocks) : Cut blocks' ∧ Linked blocks' := by
  induction h with
  | refl => exact ⟨hcut, hlinked⟩
  | tail _ hpass ih => exact hpass.cut ih.1 ih.2

def Relayed (instrs instrs' : List Instruction) : Prop :=
  ∃ blocks blocks', split instrs = .ok blocks ∧ PassedTo blocks blocks' ∧
    flatten blocks' = instrs'

/-- What passes leave of code whose jumps lead to labels, one of them or any number, can be joined
and is cut into the same blocks again, and its jumps lead to labels too. So the same passes lead to
it when the code is joined and cut before each of them. -/
theorem passes_rejoin (hsplit : split instrs = .ok blocks)
    (hlabels : ∀ t ∈ named instrs, t ∈ declared instrs)
    (h : Relation.ReflTransGen PassedTo blocks blocks') :
    split (flatten blocks') = .ok blocks' ∧
      (∀ t ∈ named (flatten blocks'), t ∈ declared (flatten blocks')) ∧
      Relation.ReflTransGen Relayed instrs (flatten blocks') := by
  obtain ⟨hcut, rfl⟩ := split_eq_ok_iff.1 hsplit
  have hlinked : Linked blocks := hcut.linked_iff.2 hlabels
  obtain ⟨hcut', hlinked'⟩ := cut_of_passes h hcut hlinked
  refine ⟨hcut'.split_flatten, hcut'.linked_iff.1 hlinked', ?_⟩
  clear hcut' hlinked'
  induction h with
  | refl => exact .refl
  | @tail mid last hmid hpass ih =>
    exact ih.tail ⟨mid, last, (cut_of_passes hmid hcut hlinked).1.split_flatten, hpass, rfl⟩

def precedingLabel : List Instruction :=
  [.jump "b0", .atLabel "b0", .constant "k" (.named "int") (.int 7), .branch "p" "b0" "done",
    .atLabel "done", .ret ["k"]]

/-- Hoisting with names that begin like it, and then single assignment form. -/
theorem precedingLabel_rejoins : ∃ blocks o g form, split precedingLabel = .ok blocks ∧
    (∀ t ∈ named precedingLabel, t ∈ declared precedingLabel) ∧
    Block.hoist ⟨"b0", "b"⟩ blocks = .ok o ∧ o.preheaders = [("b.0", "b0")] ∧
    FlowGraph.ofBlocks (addTerminators o.blocks) "b1" = .ok g ∧
    SsaForm.ofGraph g ["p"] "b1" = .ok form ∧
    Relation.ReflTransGen PassedTo blocks form.blocks ∧
    split (flatten form.blocks) = .ok form.blocks ∧
    (∀ t ∈ named (flatten form.blocks), t ∈ declared (flatten form.blocks)) ∧
    Relation.ReflTransGen Relayed precedingLabel (flatten form.blocks) := by
  have hlabels : ∀ t ∈ named precedingLabel, t ∈ declared precedingLabel := by decide
  have hpre : (split precedingLabel >>= Block.hoist ⟨"b0", "b"⟩).toOption.map (·.preheaders) =
      some [("b.0", "b0")] := by
    decide +kernel
  obtain ⟨o, hhoisted, hpre⟩ := exists_of_toOption_map hpre
  obtain ⟨blocks, hsplit, ho⟩ := bind_eq_ok.1 hhoisted
  obtain ⟨hcut, hflat⟩ := split_eq_ok_iff.1 hsplit
  have hlinked : Linked blocks := hcut.linked_iff.2 (hflat ▸ hlabels)
  obtain ⟨hcut', hlinked'⟩ := hoist_cut hcut hlinked ho
  obtain ⟨g, hg⟩ := hcut'.exists_graph (hoist_ne_nil ho).2 hlinked' "b1"
  obtain ⟨form, hform⟩ := Ssa.ofGraph_isOk (.of_ofBlocks hg) ["p"] "b1"
  have hpasses : Relation.ReflTransGen PassedTo blocks form.blocks :=
    (Relation.ReflTransGen.single (.hoist ho)).tail (.ssa hg hform)
  exact ⟨blocks, o, g, form, hsplit, hlabels, ho, hpre, hg, hform, hpasses,
    passes_rejoin hsplit hlabels hpasses⟩

end Block

end FlowOpt
