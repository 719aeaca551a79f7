import FlowOpt.Proofs.Dataflow.LiveVariables
import FlowOpt.Proofs.Except

/-!
# Liveness without phis

There are two ways to find what is live before a block: to scan its instructions from the last to
the first, or to take away what it assigns and add what it reads first. Without phis both give the
same facts. Analyses that do the same at every node take the same steps, so the two end with the
same results.
-/

namespace FlowOpt

namespace Block

instance decidableReadsFirst : ∀ (instrs : List Instruction) (x : String),
    Decidable (ReadsFirst instrs x)
  | [], _ => isFalse id
  | i :: rest, x =>
    have := decidableReadsFirst rest x
    inferInstanceAs (Decidable (x ∈ i.args ∨ (i.dest ≠ some x ∧ ReadsFirst rest x)))

end Block

section Scan

variable {i : Instruction} {instrs : List Instruction}

theorem get?_liveBefore (hi : i.isPhi = false) (live : FactMap) (x : String) :
    (i.liveBefore live).get? x =
      if x ∈ i.args then some .live else if i.dest = some x then none else live.get? x := by
  have hfilter := NameMap.get?_filter_key (fun y => i.dest != some y) live x
  unfold Instruction.liveBefore
  rw [if_neg (Bool.eq_false_iff.1 hi), NameMap.get?_insertAll_map _ i.args (fun _ => Fact.live),
    hfilter]
  simp only [bne_iff_ne, ne_eq, ite_not]

/-- Before all of them: what they read before they assign it, and of the rest what they do not
assign. -/
theorem get?_foldr_liveBefore (hphi : ∀ i ∈ instrs, i.isPhi = false) (live : FactMap) (x : String) :
    (instrs.foldr Instruction.liveBefore live).get? x =
      if Block.ReadsFirst instrs x then some .live
      else if x ∈ instrs.filterMap (·.dest) then none else live.get? x := by
  induction instrs with
  | nil => simp [Block.ReadsFirst]
  | cons i rest ih =>
    have hdest : x ∈ (i :: rest).filterMap (·.dest) ↔
        i.dest = some x ∨ x ∈ rest.filterMap (·.dest) := by
      simp [List.mem_filterMap]
    have hreads : Block.ReadsFirst (i :: rest) x ↔
        x ∈ i.args ∨ (i.dest ≠ some x ∧ Block.ReadsFirst rest x) := Iff.rfl
    rw [List.foldr_cons, get?_liveBefore (hphi i List.mem_cons_self),
      ih fun j hj => hphi j (List.mem_cons_of_mem _ hj)]
    by_cases harg : x ∈ i.args
    · simp [hreads, harg]
    · by_cases hd : i.dest = some x
      · simp [hreads, harg, hd]
      · simp [hreads, hdest, harg, hd]

end Scan

theorem get?_liveVariables (node : FlowNode) (input : FactMap) (x : String) :
    NameMap.get? (liveVariables.transfer node input) x =
      if Block.ReadsFirst node.block.instrs x then some .live
      else if node.versions.contains x then none else input.get? x := by
  have htransfer : liveVariables.transfer node input =
      NameMap.insertAll (input.filter fun y _ => !node.versions.contains y)
        (node.block.exposed.map fun y => (y, Fact.live)) := rfl
  rw [htransfer, NameMap.get?_insertAll_map _ _ fun _ => Fact.live,
    NameMap.get?_filter_key fun y => !node.versions.contains y]
  simp only [Block.mem_exposed]
  cases node.versions.contains x <;> rfl

namespace FlowGraph

variable {g : FlowGraph} {a a' : Analysis} {node : FlowNode}

theorem solveWithin?_congr (hdirection : a.direction = a'.direction) (hmerge : a.merge = a'.merge)
    (htransfer : ∀ node ∈ g.nodes, a.transfer node = a'.transfer node) (fuel : Nat) :
    g.solveWithin? fuel a = g.solveWithin? fuel a' := by
  have hnodes : ∀ v node, g.node? v = some node → a.transfer node = a'.transfer node :=
    fun v node hn => htransfer node (mem_nodes hn)
  unfold solveWithin?
  rw [hdirection]
  cases a'.direction with
  | forward => simp only [Worklist.run_congr hmerge hnodes]
  | backward =>
    have hturned : ∀ v node, g.switchDirections.graph.node? v = some node →
        a.transfer node = a'.transfer node := hnodes
    simp only [Worklist.run_congr hmerge hturned]

def PhiFree (g : FlowGraph) : Prop := ∀ b ∈ g.blocks, ∀ i ∈ b.instrs, i.isPhi = false

instance (g : FlowGraph) : Decidable g.PhiFree :=
  inferInstanceAs (Decidable (∀ b ∈ g.blocks, ∀ i ∈ b.instrs, i.isPhi = false))

theorem PhiFree.phiReads_eq_nil (hphi : g.PhiFree) (name : String) : g.phiReads name = [] := by
  rw [List.eq_nil_iff_forall_not_mem]
  intro x hx
  obtain ⟨b, hb, i, hi, hp, -⟩ := exists_of_mem_phiReads hx
  exact Bool.false_ne_true ((hphi b hb i hi).symm.trans hp)

/-- The scan of a block and the summary of it give the same facts. -/
theorem Built.transfer_edgeLiveness (hg : g.Built) (hphi : g.PhiFree) (hn : node ∈ g.nodes)
    (input : FactMap) : (edgeLiveness g).transfer node input = liveVariables.transfer node input := by
  have hb : node.block ∈ g.blocks := List.mem_map.2 ⟨node, hn, rfl⟩
  have hscan : (edgeLiveness g).transfer node input =
      node.block.instrs.foldr Instruction.liveBefore input := by
    simp only [edgeLiveness, hphi.phiReads_eq_nil, List.map_nil]
    rfl
  apply NameMap.ext_get?
  intro x
  rw [hscan, get?_foldr_liveBefore (hphi _ hb), get?_liveVariables]
  simp only [hg.contains_versions hn, Block.destinations]

/-- Without phis both analyses of what is live do the same at every node, take the same steps, and
end with the same results. -/
theorem edgeLiveness_eq_liveVariables (hg : g.Built) (hphi : g.PhiFree) :
    (∀ node ∈ g.nodes, ∀ input,
      (edgeLiveness g).transfer node input = liveVariables.transfer node input) ∧
    (∀ fuel, g.solveWithin? fuel (edgeLiveness g) = g.solveWithin? fuel liveVariables) ∧
    ∃ results, g.solve (edgeLiveness g) = .ok results ∧ g.solve liveVariables = .ok results := by
  have htransfer : ∀ node ∈ g.nodes, ∀ input,
      (edgeLiveness g).transfer node input = liveVariables.transfer node input :=
    fun node hn => hg.transfer_edgeLiveness hphi hn
  have hsame : ∀ fuel, g.solveWithin? fuel (edgeLiveness g) = g.solveWithin? fuel liveVariables :=
    solveWithin?_congr rfl rfl fun node hn => funext (htransfer node hn)
  obtain ⟨results, hlive⟩ := exists_marked hg.graph hg.nonempty (marking_liveVariables g) rfl
  refine ⟨htransfer, hsame, results, ?_, hlive⟩
  unfold solve at hlive ⊢
  rw [hsame]
  exact hlive

def growing : List Block :=
  [⟨"top", [.constant "n" (.named "int") (.int 3), .jump "head"]⟩,
    ⟨"head", [.atLabel "head", .compute "mul" "n" (.named "int") ["n", "n"],
      .compute "lt" "c" (.named "bool") ["n", "m"], .compute "add" "n" (.named "int") ["n", "m"],
      .branch "c" "head" "done"]⟩,
    ⟨"done", [.atLabel "done", .effect "print" ["n"], .ret []]⟩]

theorem growing_same_liveness : ∃ g, Built g ∧ g.PhiFree ∧
    (∀ node ∈ g.nodes, ∀ input,
      (edgeLiveness g).transfer node input = liveVariables.transfer node input) ∧
    (∀ fuel, g.solveWithin? fuel (edgeLiveness g) = g.solveWithin? fuel liveVariables) ∧
    ∃ results, g.solve (edgeLiveness g) = .ok results ∧ g.solve liveVariables = .ok results := by
  have hends : (ofBlocks growing "entry").toOption.any (fun g => decide g.PhiFree) = true := by
    decide +kernel
  obtain ⟨g, hg, hphi⟩ := exists_of_toOption_any hends
  have hbuilt : Built g := .ofBlocks hg
  have hphi : g.PhiFree := of_decide_eq_true hphi
  exact ⟨g, hbuilt, hphi, edgeLiveness_eq_liveVariables hbuilt hphi⟩

end FlowGraph

end FlowOpt
