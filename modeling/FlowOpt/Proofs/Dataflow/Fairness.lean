import FlowOpt.Proofs.Dataflow.Termination

/-!
# Nothing waits for ever

The queue gives up first what joined it first. So also in a run that does not end whatever waits is
taken, after as many steps as there are nodes before it.
-/

namespace FlowOpt

namespace Worklist

variable {a : Analysis} {graph : Digraph FlowNode} {st st' : State} {queue nodes : List Nat}
  {v k n fuel : Nat}

theorem after_induction {P : State → Prop}
    (hstep : ∀ st v queue, P st → st.queue = v :: queue → P (step a graph st v queue))
    (h : P st) (hr : after a graph k st = some st') : P st' := by
  induction k generalizing st with
  | zero => exact Option.some.inj hr ▸ h
  | succ k ih =>
    unfold after at hr
    split at hr
    · cases hr
    · next v queue hq => exact ih (hstep st v queue h hq) hr

theorem after_add (k n : Nat) (st : State) :
    after a graph (k + n) st = (after a graph k st).bind (after a graph n) := by
  induction k generalizing st with
  | zero => rw [Nat.zero_add, after, Option.bind_some]
  | succ k ih =>
    rw [Nat.succ_add, after, after]
    split
    · rfl
    · exact ih _

theorem exists_after_of_le (hle : k ≤ n) (h : after a graph n st = some st') :
    ∃ mid, after a graph k st = some mid ∧ after a graph (n - k) mid = some st' := by
  rw [← Nat.add_sub_cancel' hle, after_add] at h
  exact Option.bind_eq_some_iff.1 h

theorem exists_after_of_run (h : run a graph fuel st = some st') :
    ∃ k, after a graph k st = some st' := by
  induction fuel generalizing st with
  | zero =>
    unfold Worklist.run at h
    split at h
    · exact ⟨0, h⟩
    · cases h
  | succ fuel ih =>
    unfold Worklist.run at h
    split at h
    · exact ⟨0, h⟩
    · next v queue hq =>
      obtain ⟨k, hk⟩ := ih h
      exact ⟨k + 1, by rw [after, hq]; exact hk⟩

theorem prefix_enqueue (queue nodes : List Nat) : queue <+: enqueue queue nodes := by
  unfold enqueue
  induction nodes generalizing queue with
  | nil => exact List.prefix_rfl
  | cons v nodes ih =>
    rw [List.foldl_cons]
    split
    · exact ih queue
    · exact (List.prefix_append queue [v]).trans (ih _)

theorem prefix_step (a : Analysis) (graph : Digraph FlowNode) (st : State) (v : Nat)
    (queue : List Nat) : queue <+: (step a graph st v queue).queue := by
  rcases step_cases a graph st v queue with
    ⟨-, hstep⟩ | ⟨node, new, -, -, ⟨-, hstep⟩ | ⟨-, hstep⟩⟩
  · rw [hstep]
  · rw [hstep]
  · rw [hstep]
    exact prefix_enqueue _ _

theorem step_of_none (hn : graph.node? v = none) (queue : List Nat) :
    step a graph st v queue = ⟨queue, st.inputs, st.outputs, st.iterations + 1⟩ := by
  unfold step
  rw [hn]

/-- A step gives a node what flows in as its input, and an output with the variables that the
analysis makes of that. The other nodes keep theirs. -/
theorem step_of_node {node : FlowNode} (hn : graph.node? v = some node)
    (hin : st.inputs.size = graph.size) (hout : st.outputs.size = graph.size) (queue : List Nat) :
    (∀ u : Nat, (step a graph st v queue).inputs[u]?.getD {} =
      if u = v then incoming a graph st.outputs v else st.inputs[u]?.getD {}) ∧
    ∀ (u : Nat) (x : String),
      NameMap.contains ((step a graph st v queue).outputs[u]?.getD {}) x =
        if u = v then NameMap.contains (a.transfer node (incoming a graph st.outputs v)) x
        else NameMap.contains (st.outputs[u]?.getD {}) x := by
  have hlt : v < graph.size := (Array.getElem?_eq_some_iff.1 hn).1
  have hinputs := getD_setIfInBounds (incoming a graph st.outputs v) (hin ▸ hlt : v < st.inputs.size)
  rcases step_cases a graph st v queue with
    ⟨hnone, -⟩ | ⟨node', new, hn', rfl, ⟨hsame, hstep⟩ | ⟨-, hstep⟩⟩
  · rw [hn] at hnone
    cases hnone
  · obtain rfl := Option.some.inj (hn.symm.trans hn')
    rw [hstep]
    refine ⟨hinputs, fun u x => ?_⟩
    split
    · next huv =>
      rw [Array.getElem?_eq_getElem (hout ▸ hlt : v < st.outputs.size)] at hsame
      rw [huv, Array.getElem?_eq_getElem (hout ▸ hlt : v < st.outputs.size), Option.getD_some,
        Bool.eq_iff_iff]
      exact NameMap.contains_eq_of_beq hsame
    · rfl
  · obtain rfl := Option.some.inj (hn.symm.trans hn')
    rw [hstep]
    refine ⟨hinputs, fun u x => ?_⟩
    rw [getD_setIfInBounds _ (hout ▸ hlt : v < st.outputs.size)]
    split <;> rfl

/-- What waits is taken when those before it are. -/
theorem exists_taken (hk : st.queue[k]? = some v) (h : after a graph (k + 1) st = some st') :
    ∃ mid queue, after a graph k st = some mid ∧ mid.queue = v :: queue ∧
      step a graph mid v queue = st' := by
  induction k generalizing st with
  | zero =>
    unfold after at h
    split at h
    · cases h
    · next u queue hq =>
      obtain rfl : u = v := by simpa [hq] using hk
      exact ⟨st, queue, rfl, hq, Option.some.inj h⟩
  | succ k ih =>
    unfold after at h
    split at h
    · cases h
    · next u queue hq =>
      have hlater : (step a graph st u queue).queue[k]? = some v := by
        rw [hq, List.getElem?_cons_succ] at hk
        obtain ⟨more, hmore⟩ := prefix_step a graph st u queue
        rw [← hmore, List.getElem?_append_left (List.getElem?_eq_some_iff.1 hk).1, hk]
      obtain ⟨mid, rest, hmid, hrest⟩ := ih hlater h
      exact ⟨mid, rest, by rw [after, hq]; exact hmid, hrest⟩

end Worklist

end FlowOpt
