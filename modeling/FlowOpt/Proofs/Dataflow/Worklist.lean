import FlowOpt.Dataflow.Worklist
import FlowOpt.Proofs.FlowGraph.Construction

/-!
# Where the worklist ends

A block that does not wait has the output that the analysis makes of what flows into it: when it was
taken it got that output, and since then no output changed that flows into it. So when nothing
waits, every block has its output.
-/

namespace FlowOpt

namespace Worklist

variable {a a' : Analysis} {graph : Digraph FlowNode} {st st' : State} {queue nodes : List Nat}
  {outputs outputs' : Array FactMap} {u v fuel : Nat}

theorem mem_enqueue : v ∈ enqueue queue nodes ↔ v ∈ queue ∨ v ∈ nodes := by
  unfold enqueue
  induction nodes generalizing queue with
  | nil => simp
  | cons u nodes ih =>
    rw [List.foldl_cons, ih, List.mem_cons]
    split
    · next h =>
      rw [List.contains_iff_mem] at h
      constructor
      · rintro (hv | hv)
        · exact .inl hv
        · exact .inr (.inr hv)
      · rintro (hv | rfl | hv)
        · exact .inl hv
        · exact .inl h
        · exact .inr hv
    · rw [List.mem_append, List.mem_singleton, or_assoc]

/-- What flows into a node depends on the outputs of its predecessors alone. -/
theorem incoming_congr (h : ∀ p ∈ graph.preds v, outputs[p]?.getD {} = outputs'[p]?.getD {}) :
    incoming a graph outputs v = incoming a graph outputs' v := by
  unfold incoming
  split
  · rfl
  · next hne =>
    rw [List.map_congr_left h]

theorem getD_pred_of_not_mem_succs (hs : graph.Symmetric) (hu : u ∉ graph.succs v)
    (m : FactMap) : ∀ p ∈ graph.preds u,
      outputs[p]?.getD {} = (outputs.setIfInBounds v m)[p]?.getD {} := by
  intro p hp
  have hne : v ≠ p := by
    rintro rfl
    exact hu ((hs v u).2 hp)
  rw [Array.getElem?_setIfInBounds_ne hne]

theorem step_congr (hmerge : a.merge = a'.merge)
    (htransfer : ∀ v node, graph.node? v = some node → a.transfer node = a'.transfer node)
    (st : State) (v : Nat) (queue : List Nat) :
    step a graph st v queue = step a' graph st v queue := by
  have hin : incoming a graph st.outputs v = incoming a' graph st.outputs v := by
    unfold incoming
    rw [hmerge]
  unfold step
  cases hn : graph.node? v with
  | none => rfl
  | some node => simp only [hin, htransfer v node hn]

theorem run_congr (hmerge : a.merge = a'.merge)
    (htransfer : ∀ v node, graph.node? v = some node → a.transfer node = a'.transfer node)
    (fuel : Nat) (st : State) : run a graph fuel st = run a' graph fuel st := by
  induction fuel generalizing st with
  | zero => rfl
  | succ fuel ih =>
    unfold run
    cases st.queue with
    | nil => rfl
    | cons v queue =>
      simp only
      rw [step_congr hmerge htransfer, ih]

/-- What a step does: it takes the node from the queue, with what flows in as its input, and if the
output of the node is a different one from then on, its successors wait. -/
theorem step_cases (a : Analysis) (graph : Digraph FlowNode) (st : State) (v : Nat)
    (queue : List Nat) :
    (graph.node? v = none ∧
      step a graph st v queue = ⟨queue, st.inputs, st.outputs, st.iterations + 1⟩) ∨
    ∃ node new, graph.node? v = some node ∧
      a.transfer node (incoming a graph st.outputs v) = new ∧
      (((st.outputs[v]? == some new) = true ∧ step a graph st v queue =
          ⟨queue, st.inputs.setIfInBounds v (incoming a graph st.outputs v), st.outputs,
            st.iterations + 1⟩) ∨
        ((st.outputs[v]? == some new) = false ∧ step a graph st v queue =
          ⟨enqueue queue (graph.succs v),
            st.inputs.setIfInBounds v (incoming a graph st.outputs v),
            st.outputs.setIfInBounds v new, st.iterations + 1⟩)) := by
  unfold Worklist.step
  cases hn : graph.node? v with
  | none => exact .inl ⟨rfl, rfl⟩
  | some node =>
    refine .inr ⟨node, _, rfl, rfl, ?_⟩
    simp only
    split
    · next h => exact .inl ⟨h, rfl⟩
    · next h => exact .inr ⟨Bool.not_eq_true _ ▸ h, rfl⟩

/-- The output of the node is what the analysis makes of what flows in, or equal to it as facts are
compared. -/
def Settled (a : Analysis) (graph : Digraph FlowNode) (outputs : Array FactMap) (v : Nat) : Prop :=
  ∀ node, graph.node? v = some node →
    outputs[v]? = some (a.transfer node (incoming a graph outputs v)) ∨
      (outputs[v]? == some (a.transfer node (incoming a graph outputs v))) = true

structure Progress (a : Analysis) (graph : Digraph FlowNode) (st : State) : Prop where
  size_eq : st.outputs.size = graph.size
  settled : ∀ v, v ∉ st.queue → Settled a graph st.outputs v

theorem Settled.of_congr (h : Settled a graph outputs v) (hv : outputs[v]? = outputs'[v]?)
    (hp : ∀ p ∈ graph.preds v, outputs[p]?.getD {} = outputs'[p]?.getD {}) :
    Settled a graph outputs' v := by
  intro node hn
  rw [← hv, ← incoming_congr hp]
  exact h node hn

def startIn (size : Nat) (queue : List Nat) : State := { start size with queue }

theorem not_mem_ids (h : queue.Perm graph.ids) (hv : v ∉ queue) : graph.size ≤ v := by
  by_contra hlt
  exact hv (h.mem_iff.2 (List.mem_range.2 (not_le.1 hlt)))

theorem Progress.startIn (a : Analysis) (h : queue.Perm graph.ids) :
    Progress a graph (startIn graph.size queue) where
  size_eq := Array.size_replicate
  settled _ hv _ hn := absurd (not_mem_ids h hv) (not_le.2 (Array.getElem?_eq_some_iff.1 hn).1)

theorem Progress.start (a : Analysis) (graph : Digraph FlowNode) :
    Progress a graph (start graph.size) := .startIn a (.refl graph.ids)

theorem Progress.step (hs : graph.Symmetric) (h : Progress a graph st)
    (hq : st.queue = v :: queue) : Progress a graph (step a graph st v queue) := by
  have hsettled : ∀ u, u ∉ queue → u ≠ v → Settled a graph st.outputs u := by
    intro u hu hne
    apply h.settled
    rw [hq, List.mem_cons]
    exact not_or.2 ⟨hne, hu⟩
  rcases step_cases a graph st v queue with
    ⟨hn, hstep⟩ | ⟨node, new, hn, rfl, ⟨hsame, hstep⟩ | ⟨-, hstep⟩⟩
  · rw [hstep]
    refine ⟨h.size_eq, fun u hu => ?_⟩
    by_cases huv : u = v
    · subst huv
      intro node hnode
      simp [hn] at hnode
    · exact hsettled u hu huv
  · rw [hstep]
    refine ⟨h.size_eq, fun u hu => ?_⟩
    by_cases huv : u = v
    · subst huv
      intro node' hnode
      obtain rfl := Option.some.inj (hn.symm.trans hnode)
      exact .inr hsame
    · exact hsettled u hu huv
  · rw [hstep]
    refine ⟨by simpa using h.size_eq, fun u hu => ?_⟩
    rw [mem_enqueue, not_or] at hu
    have hlt : v < st.outputs.size := h.size_eq ▸ (Array.getElem?_eq_some_iff.1 hn).1
    have hpred : ∀ p ∈ graph.preds u, st.outputs[p]?.getD {} = (st.outputs.setIfInBounds v
        (a.transfer node (incoming a graph st.outputs v)))[p]?.getD {} :=
      getD_pred_of_not_mem_succs hs hu.2 _
    by_cases huv : u = v
    · subst huv
      intro node' hnode
      obtain rfl := Option.some.inj (hn.symm.trans hnode)
      left
      rw [← incoming_congr hpred, Array.getElem?_setIfInBounds_self_of_lt hlt]
    · apply (hsettled u hu.1 huv).of_congr _ hpred
      rw [Array.getElem?_setIfInBounds_ne (Ne.symm huv)]

/-- What every step keeps holds at the end, when nothing waits. -/
theorem run_induction {P : State → Prop}
    (hstep : ∀ st v queue, P st → st.queue = v :: queue → P (step a graph st v queue))
    (h : P st) (hr : run a graph fuel st = some st') : P st' ∧ st'.queue = [] := by
  induction fuel generalizing st with
  | zero =>
    unfold Worklist.run at hr
    split at hr
    · next hempty =>
      obtain rfl := Option.some.inj hr
      exact ⟨h, List.isEmpty_iff.1 hempty⟩
    · cases hr
  | succ fuel ih =>
    unfold Worklist.run at hr
    split at hr
    · next hq =>
      obtain rfl := Option.some.inj hr
      exact ⟨h, hq⟩
    · next v queue hq => exact ih (hstep st v queue h hq) hr

@[simp] theorem getD_outputs_start (size u : Nat) :
    (Worklist.start size).outputs[u]?.getD {} = ({} : FactMap) := by
  simp only [Worklist.start, Array.getElem?_replicate]
  split
  · rfl
  · rfl

theorem outputs_step {P : Nat → FactMap → Prop} (hstart : ∀ u, P u {})
    (hstep : ∀ (outputs : Array FactMap) u node, graph.node? u = some node →
      (∀ w : Nat, P w (outputs[w]?.getD {})) → P u (a.transfer node (incoming a graph outputs u)))
    (h : ∀ w : Nat, P w (st.outputs[w]?.getD {})) (v : Nat) (queue : List Nat) (w : Nat) :
    P w ((step a graph st v queue).outputs[w]?.getD {}) := by
  rcases step_cases a graph st v queue with
    ⟨-, heq⟩ | ⟨node, new, hn, rfl, ⟨-, heq⟩ | ⟨-, heq⟩⟩
  · exact heq ▸ h w
  · exact heq ▸ h w
  · rw [heq]
    by_cases hw : w = v
    · subst hw
      rw [Array.getElem?_setIfInBounds_self]
      split
      · exact hstep st.outputs w node hn h
      · exact hstart w
    · rw [Array.getElem?_setIfInBounds_ne (Ne.symm hw)]
      exact h w

theorem outputs_induction {P : Nat → FactMap → Prop} (hstart : ∀ u, P u {})
    (hstep : ∀ (outputs : Array FactMap) u node, graph.node? u = some node →
      (∀ w : Nat, P w (outputs[w]?.getD {})) → P u (a.transfer node (incoming a graph outputs u)))
    (h : ∀ w : Nat, P w (st.outputs[w]?.getD {})) (hr : run a graph fuel st = some st') (u : Nat) :
    P u (st'.outputs[u]?.getD {}) :=
  (run_induction (P := fun st => ∀ w : Nat, P w (st.outputs[w]?.getD {}))
    (fun _ v queue hP _ => outputs_step hstart hstep hP v queue) h hr).1 u

theorem Progress.run (hs : graph.Symmetric) (h : Progress a graph st)
    (hr : run a graph fuel st = some st') :
    st'.outputs.size = graph.size ∧ ∀ v, Settled a graph st'.outputs v := by
  obtain ⟨hend, hq⟩ := run_induction (fun _ _ _ h hq => Progress.step hs h hq) h hr
  refine ⟨hend.size_eq, fun v => hend.settled v ?_⟩
  rw [hq]
  exact List.not_mem_nil

structure Fed (a : Analysis) (graph : Digraph FlowNode) (st : State) : Prop where
  size_eq : st.inputs.size = graph.size
  fed : ∀ v < graph.size, v ∉ st.queue → st.inputs[v]? = some (incoming a graph st.outputs v)

theorem Fed.startIn (a : Analysis) (h : queue.Perm graph.ids) :
    Fed a graph (startIn graph.size queue) where
  size_eq := Array.size_replicate
  fed _ hlt hv := absurd (not_mem_ids h hv) (not_le.2 hlt)

theorem Fed.start (a : Analysis) (graph : Digraph FlowNode) : Fed a graph (start graph.size) :=
  .startIn a (.refl graph.ids)

theorem Fed.step (hs : graph.Symmetric) (h : Fed a graph st) (hq : st.queue = v :: queue) :
    Fed a graph (step a graph st v queue) := by
  have hfed : ∀ u < graph.size, u ∉ queue → u ≠ v →
      st.inputs[u]? = some (incoming a graph st.outputs u) := by
    intro u hlt hu hne
    apply h.fed u hlt
    rw [hq, List.mem_cons]
    exact not_or.2 ⟨hne, hu⟩
  -- The one taken gets what flows in, the others keep it.
  have hset : ∀ u < graph.size, u ∉ queue →
      (st.inputs.setIfInBounds v (incoming a graph st.outputs v))[u]? =
        some (incoming a graph st.outputs u) := by
    intro u hlt hu
    by_cases huv : u = v
    · subst huv
      exact Array.getElem?_setIfInBounds_self_of_lt (h.size_eq ▸ hlt)
    · rw [Array.getElem?_setIfInBounds_ne (Ne.symm huv)]
      exact hfed u hlt hu huv
  rcases step_cases a graph st v queue with
    ⟨hn, hstep⟩ | ⟨node, new, -, -, ⟨-, hstep⟩ | ⟨-, hstep⟩⟩
  · rw [hstep]
    refine ⟨h.size_eq, fun u hlt hu => hfed u hlt hu ?_⟩
    rintro rfl
    have hsome : graph.node? u = some graph.nodes[u] := Array.getElem?_eq_getElem hlt
    rw [hn] at hsome
    cases hsome
  · rw [hstep]
    exact ⟨by simpa using h.size_eq, hset⟩
  · rw [hstep]
    refine ⟨by simpa using h.size_eq, fun u hlt hu => ?_⟩
    rw [mem_enqueue, not_or] at hu
    rw [← incoming_congr (getD_pred_of_not_mem_succs hs hu.2 _)]
    exact hset u hlt hu.1

theorem Fed.run (hs : graph.Symmetric) (h : Fed a graph st)
    (hr : run a graph fuel st = some st') :
    ∀ v < graph.size, st'.inputs[v]? = some (incoming a graph st'.outputs v) := by
  obtain ⟨hend, hq⟩ := run_induction (fun _ _ _ h hq => Fed.step hs h hq) h hr
  intro v hlt
  apply hend.fed v hlt
  rw [hq]
  exact List.not_mem_nil

end Worklist

namespace FlowGraph

variable {g : FlowGraph} {a : Analysis} {results : Results} {fuel v : Nat}

theorem symmetric_reverse {α : Type} {g : Digraph α} (h : g.Symmetric) : g.reverse.Symmetric :=
  fun v w => (h w v).symm

theorem map_nameOf_ids (g : FlowGraph) : g.ids.map g.nameOf = g.names := by
  rw [names_eq]
  apply List.ext_getElem
  · rw [List.length_map, List.length_map, ← size_eq_length]
    exact List.length_range
  · intro v _ hv
    have hlt : v < g.blocks.length := by simpa using hv
    rw [List.getElem_map, List.getElem_map, nameOf_eq (List.getElem?_eq_getElem (by simpa [ids,
      Digraph.ids, size_eq_length] using hlt))]
    simp [ids, Digraph.ids]

theorem get?_keyed (hn : g.names.Nodup) (maps : Array FactMap) {b : Block}
    (hb : g.blocks[v]? = some b) : (g.keyed maps).get? b.name = some (maps[v]?.getD {}) := by
  have hlt : v < g.size := size_eq_length g ▸ (List.getElem?_eq_some_iff.1 hb).1
  have hnames : (g.ids.map fun v => (g.nameOf v, maps[v]?.getD {})).map (·.1) = g.names := by
    rw [List.map_map]
    exact map_nameOf_ids g
  rw [keyed, NameMap.get?_ofList_iff (hnames ▸ hn)]
  exact List.mem_map.2 ⟨v, List.mem_range.2 hlt, by rw [nameOf_eq hb]⟩

theorem solveWithin?_of_solve (h : g.solve a = .ok results) :
    g.solveWithin? g.stateBound a = some results := by
  unfold solve at h
  split at h
  · next hs => rw [hs, Except.ok.inj h]
  · cases h

/-- The run behind the results of a backward analysis. -/
theorem exists_run_of_backward (ha : a.direction = .backward) (h : g.solve a = .ok results) :
    ∃ fuel st, Worklist.run a g.graph.reverse fuel (Worklist.start g.size) = some st ∧
      results.inputs = g.keyed st.outputs := by
  have hs := solveWithin?_of_solve h
  unfold solveWithin? at hs
  rw [ha] at hs
  obtain ⟨st, hrun, rfl⟩ := Option.map_eq_some_iff.1 hs
  exact ⟨_, st, hrun, rfl⟩

/-- The outputs that a backward analysis ends with, one for each node, and its results under the
names of the blocks. -/
theorem exists_outputs_of_backward (hg : g.WellFormed) (ha : a.direction = .backward)
    (h : g.solve a = .ok results) : ∃ outputs : Array FactMap,
      (∀ v, Worklist.Settled a g.graph.reverse outputs v) ∧
      ∀ (v : Nat) (b : Block), g.blocks[v]? = some b →
        results.inputs.get? b.name = some (outputs[v]?.getD {}) := by
  obtain ⟨fuel, st, hrun, hinputs⟩ := exists_run_of_backward ha h
  obtain ⟨-, hsettled⟩ := (Worklist.Progress.start a g.graph.reverse).run
    (symmetric_reverse hg.graph.symmetric) hrun
  exact ⟨st.outputs, hsettled, fun v b hb => hinputs ▸ get?_keyed hg.names_nodup st.outputs hb⟩

theorem exists_run_of_forward (hs : g.graph.Symmetric) (hn : g.names.Nodup)
    (ha : a.direction = .forward) (h : g.solveWithin? fuel a = some results) :
    ∃ st, Worklist.run a g.graph fuel (Worklist.start g.size) = some st ∧
      (∀ v, Worklist.Settled a g.graph st.outputs v) ∧
      ∀ (v : Nat) (b : Block), g.blocks[v]? = some b →
        results.inputs.get? b.name = some (Worklist.incoming a g.graph st.outputs v) ∧
          results.outputs.get? b.name = some (st.outputs[v]?.getD {}) := by
  unfold solveWithin? at h
  rw [ha] at h
  obtain ⟨st, hrun, rfl⟩ := Option.map_eq_some_iff.1 h
  have hfed := (Worklist.Fed.start a g.graph).run hs hrun
  obtain ⟨-, hsettled⟩ := (Worklist.Progress.start a g.graph).run hs hrun
  refine ⟨st, hrun, hsettled, fun v b hb => ⟨?_, get?_keyed hn st.outputs hb⟩⟩
  have hlt : v < g.size := size_eq_length g ▸ (List.getElem?_eq_some_iff.1 hb).1
  refine (get?_keyed hn st.inputs hb).trans ?_
  rw [hfed v hlt]
  rfl

theorem exists_outputs_of_forward (hg : g.WellFormed) (ha : a.direction = .forward)
    (h : g.solve a = .ok results) : ∃ outputs : Array FactMap,
      (∀ v, Worklist.Settled a g.graph outputs v) ∧
      ∀ (v : Nat) (b : Block), g.blocks[v]? = some b →
        results.inputs.get? b.name = some (Worklist.incoming a g.graph outputs v) := by
  obtain ⟨st, -, hsettled, hresults⟩ :=
    exists_run_of_forward hg.graph.symmetric hg.names_nodup ha (solveWithin?_of_solve h)
  exact ⟨st.outputs, hsettled, fun v b hb => (hresults v b hb).1⟩

end FlowGraph

end FlowOpt
