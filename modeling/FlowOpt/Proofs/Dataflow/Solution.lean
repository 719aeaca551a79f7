import FlowOpt.Dataflow.Kind
import FlowOpt.Proofs.Dataflow.Worklist
import FlowOpt.Proofs.Except
import FlowOpt.Proofs.Program.Equality

/-!
# The equations of an analysis

An analysis asks for facts at both ends of every block: into a block flows the merge of what leaves
its neighbours, and out of it what the block makes of that. If the worklist ends, it ends with such
facts, whatever the analysis does and whichever blocks wait first. A constant that is not a number
differs from itself, so facts with one never settle.
-/

namespace FlowOpt

def Fact.isNaN : Fact → Bool
  | .const (.float x) => x.isNaN
  | _ => false

theorem Fact.beq_self {f : Fact} (h : f.isNaN = false) : (f == f) = true := by
  cases f with
  | version n => exact beq_self_eq_true n
  | const c =>
    refine Literal.beq_self fun x hx => ?_
    subst hx
    exact h
  | notConst => rfl
  | live => rfl

namespace FactMap

def NaNFree (m : FactMap) : Prop := ∀ e ∈ m.entries, e.2.isNaN = false

instance (m : FactMap) : Decidable m.NaNFree :=
  inferInstanceAs (Decidable (∀ e ∈ m.entries, e.2.isNaN = false))

theorem NaNFree.beq_self {m : FactMap} (h : m.NaNFree) : (m == m) = true :=
  beq_self_of_forall_mem fun e he =>
    Bool.and_eq_true_iff.2 ⟨beq_self_eq_true e.1, Fact.beq_self (h e he)⟩

end FactMap

namespace Results

variable (results : Results)

def entering : Direction → NameMap FactMap
  | .forward => results.inputs
  | .backward => results.outputs

def leaving : Direction → NameMap FactMap
  | .forward => results.outputs
  | .backward => results.inputs

def NaNFree : Prop :=
  (∀ e ∈ results.inputs.entries, e.2.NaNFree) ∧ ∀ e ∈ results.outputs.entries, e.2.NaNFree

instance : Decidable results.NaNFree :=
  inferInstanceAs (Decidable ((∀ e ∈ results.inputs.entries, e.2.NaNFree) ∧
    ∀ e ∈ results.outputs.entries, e.2.NaNFree))

variable {results}

theorem NaNFree.leaving (h : results.NaNFree) (d : Direction) :
    ∀ e ∈ (results.leaving d).entries, e.2.NaNFree := by
  cases d with
  | forward => exact h.2
  | backward => exact h.1

end Results

def Analysis.merged (a : Analysis) : List FactMap → FactMap
  | [] => a.merge [{}]
  | maps => a.merge maps

namespace Worklist

theorem incoming_eq (a : Analysis) (graph : Digraph FlowNode) (outputs : Array FactMap) (v : Nat) :
    incoming a graph outputs v = a.merged ((graph.preds v).map fun p => outputs[p]?.getD {}) := by
  unfold incoming
  cases graph.preds v <;> rfl

end Worklist

namespace FlowGraph

variable {g left : FlowGraph} {a : Analysis} {results : Results} {queue : List Nat} {fuel v : Nat}
  {d : Direction}

def along (g : FlowGraph) : Direction → FlowGraph
  | .forward => g
  | .backward => g.switchDirections

@[simp] theorem along_along (g : FlowGraph) (d : Direction) : (g.along d).along d = g := by
  cases d with
  | forward => rfl
  | backward =>
    obtain ⟨graph, reversed⟩ := g
    exact congrArg (FlowGraph.mk graph) (Bool.not_not reversed)

@[simp] theorem size_along (g : FlowGraph) (d : Direction) : (g.along d).size = g.size := by
  cases d <;> rfl

@[simp] theorem ids_along (g : FlowGraph) (d : Direction) : (g.along d).graph.ids = g.ids := by
  cases d <;> rfl

@[simp] theorem node?_along (g : FlowGraph) (d : Direction) (v : Nat) :
    (g.along d).graph.node? v = g.node? v := by
  cases d <;> rfl

theorem Built.along (h : g.Built) (d : Direction) : (g.along d).Built := by
  cases d with
  | forward => exact h
  | backward => exact h.turned

/-- The solver with the blocks waiting in some order, and the graph as it leaves it: turned for the
run, and turned back behind it. -/
def solveFrom? (g : FlowGraph) (queue : List Nat) (fuel : Nat) (a : Analysis) :
    Option (Results × FlowGraph) :=
  let flow := g.along a.direction
  (Worklist.run a flow.graph fuel (Worklist.startIn flow.size queue)).map fun st =>
    let back := flow.along a.direction
    let inputs := back.keyed st.inputs
    let outputs := back.keyed st.outputs
    match a.direction with
    | .forward => (⟨inputs, outputs, st.iterations⟩, back)
    | .backward => (⟨outputs, inputs, st.iterations⟩, back)

/-- In the order of the blocks it is the solver, and the graph is what it was. -/
theorem solveFrom?_ids (g : FlowGraph) (fuel : Nat) (a : Analysis) :
    g.solveFrom? g.ids fuel a = (g.solveWithin? fuel a).map (·, g) := by
  simp only [solveFrom?, solveWithin?, along_along, size_along, Option.map_map]
  cases hd : a.direction <;> rfl

theorem exists_solveFrom?_of_run {st : Worklist.State}
    (h : Worklist.run a (g.along a.direction).graph fuel
      (Worklist.startIn (g.along a.direction).graph.size queue) = some st) :
    ∃ results, g.solveFrom? queue fuel a = some (results, g) := by
  have hrun : Worklist.run a (g.along a.direction).graph fuel
      (Worklist.startIn (g.along a.direction).size queue) = some st := h
  simp only [solveFrom?, along_along, hrun, Option.map_some]
  cases a.direction <;> exact ⟨_, rfl⟩

theorem solveFrom?_eq_some (h : g.solveFrom? queue fuel a = some (results, left)) :
    left = g ∧ ∃ st, Worklist.run a (g.along a.direction).graph fuel
        (Worklist.startIn (g.along a.direction).graph.size queue) = some st ∧
      results.entering a.direction = g.keyed st.inputs ∧
      results.leaving a.direction = g.keyed st.outputs := by
  simp only [solveFrom?, along_along] at h
  obtain ⟨st, hrun, heq⟩ := Option.map_eq_some_iff.1 h
  cases hd : a.direction with
  | forward =>
    simp only [hd, Prod.mk.injEq] at heq
    obtain ⟨rfl, rfl⟩ := heq
    exact ⟨rfl, st, hd ▸ hrun, rfl, rfl⟩
  | backward =>
    simp only [hd, Prod.mk.injEq] at heq
    obtain ⟨rfl, rfl⟩ := heq
    exact ⟨rfl, st, hd ▸ hrun, rfl, rfl⟩

def factsAt (g : FlowGraph) (maps : NameMap FactMap) (v : Nat) : FactMap :=
  (maps.get? (g.nameOf v)).getD {}

/-- The equations: every block has facts at both ends, its neighbours' merged before it in the
direction of the analysis, and behind it facts equal to what it makes of those. -/
structure Solves (g : FlowGraph) (a : Analysis) (results : Results) : Prop where
  entering : ∀ v node, g.node? v = some node →
    (results.entering a.direction).get? node.block.name =
      some (a.merged (((g.along a.direction).graph.preds v).map
        (g.factsAt (results.leaving a.direction))))
  leaving : ∀ v node, g.node? v = some node →
    ∃ m, (results.leaving a.direction).get? node.block.name = some m ∧
      (m == a.transfer node (g.factsAt (results.entering a.direction) v)) = true

theorem factsAt_eq {maps : NameMap FactMap} {node : FlowNode} (hn : g.node? v = some node) :
    g.factsAt maps v = (maps.get? node.block.name).getD {} := by
  rw [factsAt, nameOf, hn]
  rfl

theorem Solves.factsAt_entering (h : g.Solves a results) {node : FlowNode}
    (hn : g.node? v = some node) : g.factsAt (results.entering a.direction) v =
      a.merged (((g.along a.direction).graph.preds v).map
        (g.factsAt (results.leaving a.direction))) := by
  rw [factsAt_eq hn, h.entering v node hn, Option.getD_some]

theorem Solves.factsAt_leaving (h : g.Solves a results) {node : FlowNode}
    (hn : g.node? v = some node) : (g.factsAt (results.leaving a.direction) v ==
      a.transfer node (g.factsAt (results.entering a.direction) v)) = true := by
  obtain ⟨m, hm, hbeq⟩ := h.leaving v node hn
  rwa [factsAt_eq hn, hm, Option.getD_some]

theorem nanFree_factsAt {maps : NameMap FactMap} (h : ∀ e ∈ maps.entries, e.2.NaNFree) (v : Nat) :
    (g.factsAt maps v).NaNFree := by
  unfold factsAt
  cases hm : maps.get? (g.nameOf v) with
  | none => exact fun _ he => absurd he List.not_mem_nil
  | some m => exact h _ (NameMap.mem_entries_iff.2 hm)

theorem Built.get?_keyed (hg : g.Built) (maps : Array FactMap) {node : FlowNode}
    (hn : g.node? v = some node) : (g.keyed maps).get? node.block.name = some (maps[v]?.getD {}) := by
  apply FlowGraph.get?_keyed hg.names_nodup
  rw [← map_block_node?, hn, Option.map_some]

theorem Built.factsAt_keyed (hg : g.Built) (maps : Array FactMap) (hv : v < g.size) :
    g.factsAt (g.keyed maps) v = maps[v]?.getD {} := by
  have hn : g.node? v = some g.graph.nodes[v] := Array.getElem?_eq_getElem hv
  rw [factsAt_eq hn, hg.get?_keyed maps hn, Option.getD_some]

theorem Built.pred_lt (hg : g.Built) {p : Nat} (hp : p ∈ (g.along d).graph.preds v) :
    p < g.size := by
  rw [← size_along g d]
  exact (hg.along d).graph.pred_lt hp

theorem Built.incoming_keyed (hg : g.Built) (a : Analysis) (outputs : Array FactMap) (v : Nat) :
    Worklist.incoming a (g.along d).graph outputs v =
      a.merged (((g.along d).graph.preds v).map (g.factsAt (g.keyed outputs))) := by
  rw [Worklist.incoming_eq]
  congr 1
  apply List.map_congr_left
  intro p hp
  exact (hg.factsAt_keyed outputs (hg.pred_lt hp)).symm

theorem Built.solves (hg : g.Built) (hq : queue.Perm g.ids)
    (h : g.solveFrom? queue fuel a = some (results, left))
    (hf : ∀ v < g.size, (g.factsAt (results.leaving a.direction) v).NaNFree) :
    left = g ∧ g.Solves a results := by
  obtain ⟨rfl, st, hrun, hin, hout⟩ := solveFrom?_eq_some h
  have hperm : queue.Perm (left.along a.direction).graph.ids := (ids_along left a.direction) ▸ hq
  have hsym := (hg.along a.direction).graph.symmetric
  have hfed := (Worklist.Fed.startIn a hperm).run hsym hrun
  obtain ⟨-, hsettled⟩ := (Worklist.Progress.startIn a hperm).run hsym hrun
  have hinput : ∀ v node, left.node? v = some node → st.inputs[v]?.getD {} =
      Worklist.incoming a (left.along a.direction).graph st.outputs v := by
    intro v node hn
    rw [← node?_along left a.direction] at hn
    rw [hfed v (Array.getElem?_eq_some_iff.1 hn).1, Option.getD_some]
  refine ⟨rfl, fun v node hn => ?_, fun v node hn => ?_⟩
  · rw [hin, hout, hg.get?_keyed _ hn, hinput v node hn, hg.incoming_keyed]
  · have hget := hg.get?_keyed st.outputs hn
    refine ⟨_, hout ▸ hget, ?_⟩
    have hfree := hf v (Array.getElem?_eq_some_iff.1 hn).1
    rw [factsAt_eq hn, hout, hget, Option.getD_some] at hfree
    rw [factsAt_eq hn, hin, hg.get?_keyed _ hn, Option.getD_some, hinput v node hn]
    rcases hsettled v node (by rwa [node?_along]) with heq | heq
    · rw [heq, Option.getD_some] at hfree ⊢
      exact hfree.beq_self
    · cases ho : st.outputs[v]? with
      | none => simp [ho] at heq
      | some m =>
        rw [ho] at heq
        exact heq

/-- Whatever an analysis does, a solver that ends has solved its equations, and has left the graph
as it was. -/
theorem solver_solves_equations (hg : g.Built) (h : g.solveWithin? fuel a = some results)
    (hf : results.NaNFree) : g.solveFrom? g.ids fuel a = some (results, g) ∧ g.Solves a results := by
  have hfrom : g.solveFrom? g.ids fuel a = some (results, g) := by
    rw [solveFrom?_ids, h, Option.map_some]
  have hfree := nanFree_factsAt (g := g) (hf.leaving a.direction)
  exact ⟨hfrom, (hg.solves (.refl _) hfrom fun v _ => hfree v).2⟩

def scaling : List Block :=
  [⟨"top", [.constant "x" (.named "float") (.float (.zero false)), .jump "head"]⟩,
    ⟨"head", [.atLabel "head", .compute "add" "y" (.named "float") ["x", "x"],
      .branch "c" "head" "done"]⟩,
    ⟨"done", [.atLabel "done", .effect "print" ["y"], .ret []]⟩]

/-- Against the edges, constants that flow round the loop settle as well. -/
theorem scaling_solves : ∃ g results, Built g ∧
    g.solveWithin? 9 (AnalysisKind.constants.directed .backward) = some results ∧
    results.NaNFree ∧
    g.solveFrom? g.ids 9 (AnalysisKind.constants.directed .backward) = some (results, g) ∧
    g.Solves (AnalysisKind.constants.directed .backward) results := by
  have hends : (ofBlocks scaling "entry").toOption.any (fun g =>
      (g.solveWithin? 9 (AnalysisKind.constants.directed .backward)).any fun results =>
        decide results.NaNFree) = true := by
    decide +kernel
  obtain ⟨g, hg, hends⟩ := exists_of_toOption_any hends
  simp only [Option.any_eq_true, decide_eq_true_eq] at hends
  obtain ⟨results, hresults, hfree⟩ := hends
  have hbuilt : Built g := .ofBlocks hg
  obtain ⟨hleft, hsolves⟩ := solver_solves_equations hbuilt hresults hfree
  exact ⟨g, results, hbuilt, hresults, hfree, hleft, hsolves⟩

end FlowGraph

end FlowOpt
