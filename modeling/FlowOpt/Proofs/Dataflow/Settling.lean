import FlowOpt.Proofs.Dataflow.Carrying
import Mathlib.Data.Set.Card
import Mathlib.Order.Filter.AtTopBot.Basic

/-!
# Where versions settle

Nothing but versions that chase each other round a cycle keeps a run from ending. Where all that lead
to a node rest, its own output changes once more at most; so rest spreads along the edges. Round a
cycle it has nowhere to come from. But if no two versions of a variable can be carried to a node, its
output rests as soon as its variables are known, and nothing waits for ever. When all nodes rest,
every step takes a node from the queue and puts none into it.
-/

namespace FlowOpt

namespace Worklist

variable {a : Analysis} {graph : Digraph FlowNode} {st st' : State} {queue : List Nat}
  {v w n : Nat}

theorem after_step (h : after a graph n st = some st') (hq : st'.queue = w :: queue) :
    after a graph (n + 1) st = some (step a graph st' w queue) := by
  rw [after_add, h, Option.bind_some, after, hq]
  rfl

theorem exists_step_of_after (h : after a graph (n + 1) st = some st') :
    ∃ mid w queue, after a graph n st = some mid ∧ mid.queue = w :: queue ∧
      step a graph mid w queue = st' := by
  rw [after_add, Option.bind_eq_some_iff] at h
  obtain ⟨mid, hmid, hlast⟩ := h
  rw [after] at hlast
  split at hlast
  · cases hlast
  · next w queue hq => exact ⟨mid, w, queue, hmid, hq, Option.some.inj hlast⟩

theorem exists_run_of_after_eq_none (h : after a graph n st = none) :
    ∃ st', run a graph n st = some st' := by
  induction n generalizing st with
  | zero => cases h
  | succ n ih =>
    unfold after at h
    unfold Worklist.run
    cases hq : st.queue with
    | nil => exact ⟨st, rfl⟩
    | cons w queue =>
      rw [hq] at h
      exact ih h

theorem exists_run_of_shortens {N : Nat} {init : State}
    (h : ∀ n ≥ N, ∀ st w queue, after a graph n init = some st → st.queue = w :: queue →
      (step a graph st w queue).queue = queue) (hst : after a graph N init = some st) :
    ∃ st', run a graph st.queue.length st = some st' := by
  induction hlen : st.queue.length generalizing N st with
  | zero => exact ⟨st, by simp [Worklist.run, List.eq_nil_of_length_eq_zero hlen]⟩
  | succ k ih =>
    obtain ⟨w, queue, hq⟩ := List.exists_cons_of_length_eq_add_one hlen
    rw [Worklist.run, hq]
    refine ih (fun n hn => h n ((Nat.le_succ N).trans hn)) (after_step hst hq) ?_
    rw [h N le_rfl st w queue hst hq]
    simpa [hq] using hlen

theorem output_step_cases (hsize : st.outputs.size = graph.size) {node : FlowNode}
    (hn : graph.node? v = some node) (w : Nat) (queue : List Nat) :
    (step a graph st w queue).outputs[v]?.getD {} = st.outputs[v]?.getD {} ∨
      (step a graph st w queue).outputs[v]?.getD {} =
        a.transfer node (incoming a graph st.outputs v) := by
  rcases step_cases a graph st w queue with
    ⟨-, hstep⟩ | ⟨node', new, hn', rfl, ⟨-, hstep⟩ | ⟨-, hstep⟩⟩
  · exact .inl (hstep ▸ rfl)
  · exact .inl (hstep ▸ rfl)
  · have hlt : w < st.outputs.size := hsize ▸ (Array.getElem?_eq_some_iff.1 hn').1
    rw [hstep, getD_setIfInBounds _ hlt]
    split
    · next hvw =>
      subst hvw
      rw [Option.some.inj (hn'.symm.trans hn)]
      exact .inr rfl
    · exact .inl rfl

theorem size_outputs_after (hs : graph.Symmetric)
    (h : after a graph n (start graph.size) = some st) : st.outputs.size = graph.size :=
  (after_induction (fun _ _ _ h hq => Progress.step hs h hq) (.start a graph) h).size_eq

end Worklist

namespace FlowGraph

open Filter

variable {g : FlowGraph} {a : Analysis} {st st' : Worklist.State} {queue : List Nat}
  {v w n N : Nat}
  {x : String} {keeps : Nat → String → Prop}

/-- From some step on every step leaves the output of the node as it is. -/
def Rests (g : FlowGraph) (a : Analysis) (v : Nat) : Prop :=
  ∀ᶠ n in atTop, ∀ st w queue, Worklist.after a g.graph n (Worklist.start g.size) = some st →
    st.queue = w :: queue →
      (Worklist.step a g.graph st w queue).outputs[v]?.getD {} = st.outputs[v]?.getD {}

/-- From step `N` on every step leaves what flows into the node as it is. -/
def FedAlike (g : FlowGraph) (a : Analysis) (v N : Nat) : Prop :=
  ∀ n ≥ N, ∀ st w queue, Worklist.after a g.graph n (Worklist.start g.size) = some st →
    st.queue = w :: queue →
      Worklist.incoming a g.graph (Worklist.step a g.graph st w queue).outputs v =
        Worklist.incoming a g.graph st.outputs v

theorem exists_fedAlike (h : ∀ u ∈ g.graph.preds v, g.Rests a u) : ∃ N, g.FedAlike a v N := by
  obtain ⟨N, hN⟩ := eventually_atTop.1 ((eventually_all_finset (g.graph.preds v).toFinset).2
    fun u hu => h u (List.mem_toFinset.1 hu))
  refine ⟨N, fun n hn st w queue hst hq => Worklist.incoming_congr fun u hu => ?_⟩
  exact hN n hn u (List.mem_toFinset.2 hu) st w queue hst hq

/-- The output that was once made of what flows in is made of it again and again. -/
theorem FedAlike.made {node : FlowNode} (h : g.FedAlike a v N) (hs : g.graph.Symmetric)
    (hnode : g.graph.node? v = some node) (hn : N ≤ n)
    (hst : Worklist.after a g.graph n (Worklist.start g.size) = some st)
    (hmade : st.outputs[v]?.getD {} = a.transfer node (Worklist.incoming a g.graph st.outputs v))
    {m : Nat} (hm : n ≤ m) (hst' : Worklist.after a g.graph m (Worklist.start g.size) = some st') :
    st'.outputs[v]?.getD {} = a.transfer node (Worklist.incoming a g.graph st'.outputs v) := by
  induction m, hm using Nat.le_induction generalizing st' with
  | base => rwa [← Option.some.inj (hst.symm.trans hst')]
  | succ m hm ih =>
    obtain ⟨mid, w, queue, hmid, hq, rfl⟩ := Worklist.exists_step_of_after hst'
    rw [h m (hn.trans hm) mid w queue hmid hq]
    rcases Worklist.output_step_cases (a := a) (Worklist.size_outputs_after hs hmid) hnode w queue
      with hsame | hnew
    · rw [hsame]
      exact ih hmid
    · exact hnew

theorem Rests.of_preds (hs : g.graph.Symmetric) {node : FlowNode}
    (hnode : g.graph.node? v = some node) (h : ∀ u ∈ g.graph.preds v, g.Rests a u) :
    g.Rests a v := by
  obtain ⟨N, hfed⟩ := exists_fedAlike h
  by_cases hmade : ∃ n ≥ N, ∃ st, Worklist.after a g.graph n (Worklist.start g.size) = some st ∧
      st.outputs[v]?.getD {} = a.transfer node (Worklist.incoming a g.graph st.outputs v)
  · obtain ⟨n, hn, st, hst, hmade⟩ := hmade
    refine eventually_atTop.2 ⟨n, fun m hm st' w queue hst' hq => ?_⟩
    rcases Worklist.output_step_cases (a := a) (Worklist.size_outputs_after hs hst') hnode w queue
      with hsame | hnew
    · exact hsame
    · exact hnew.trans (hfed.made hs hnode hn hst hmade hm hst').symm
  · refine eventually_atTop.2 ⟨N, fun n hn st w queue hst hq => ?_⟩
    rcases Worklist.output_step_cases (a := a) (Worklist.size_outputs_after hs hst) hnode w queue
      with hsame | hnew
    · exact hsame
    · refine absurd ⟨n + 1, hn.trans (Nat.le_succ n), _, Worklist.after_step hst hq, ?_⟩ hmade
      rw [hfed n hn st w queue hst hq]
      exact hnew

theorem Assigns.mem_varNames (h : g.Assigns v x) : x ∈ g.varNames := by
  obtain ⟨b, hb, hx⟩ := h
  obtain ⟨i, hi, hd⟩ := List.mem_filterMap.1 hx
  exact mem_varNames_of_dest (List.mem_of_getElem? hb) hi hd

section Run

variable (ha : g.CarriesForward a keeps) (hg : g.Built)
include ha hg

/-- A node to which no two versions of a variable can be carried gets to know them all, and rests. -/
theorem CarriesForward.rests_of_unique
    (hunique : ∀ x f f', g.Behind keeps v x f → g.Behind keeps v x f' → f = f') :
    g.Rests a v := by
  have hfact : ∀ x, ∀ᶠ n in atTop, ∀ st,
      Worklist.after a g.graph n (Worklist.start g.size) = some st →
        ∀ f, NameMap.get? (st.outputs[v]?.getD {}) x = some f ↔ g.Behind keeps v x f := by
    intro x
    by_cases hx : ∃ f, g.Behind keeps v x f
    · obtain ⟨f, hf⟩ := hx
      obtain ⟨k, d, -, hd, p, hp, -⟩ := id hf
      filter_upwards [eventually_atTop.2
        (ha.eventually_known hg (hg.carries_iff.1 hd).1 ⟨p, hp⟩)] with n hknown st hst f'
      refine ⟨(ha.carried hg hst).outputs v x f', fun hf' => ?_⟩
      obtain ⟨f'', hf''⟩ := NameMap.contains_iff.1 (hknown st hst)
      rw [hf'', hunique x _ _ ((ha.carried hg hst).outputs v x f'' hf'') hf']
    · refine .of_forall fun n st hst f => ⟨(ha.carried hg hst).outputs v x f, fun hf => ?_⟩
      exact absurd ⟨f, hf⟩ hx
  have hall : ∀ᶠ n in atTop, ∀ st,
      Worklist.after a g.graph n (Worklist.start g.size) = some st →
        ∀ x f, NameMap.get? (st.outputs[v]?.getD {}) x = some f ↔ g.Behind keeps v x f := by
    filter_upwards [(eventually_all_finset g.varNames.toFinset).2 fun x _ => hfact x]
      with n hn st hst x f
    by_cases hx : x ∈ g.varNames
    · exact hn x (List.mem_toFinset.2 hx) st hst f
    · refine ⟨(ha.carried hg hst).outputs v x f, fun hf => ?_⟩
      obtain ⟨k, d, -, hd, -⟩ := hf
      exact absurd (hg.carries_iff.1 hd).1.mem_varNames hx
  filter_upwards [hall, (tendsto_add_atTop_nat 1).eventually hall] with n hnow hnext st w queue hst hq
  refine NameMap.ext_get? fun x => Option.ext fun f => ?_
  rw [hnext _ (Worklist.after_step hst hq), hnow st hst]

/-- All nodes rest if on the cycles no two versions of a variable can be carried to a node. -/
theorem CarriesForward.rests
    (hunique : ∀ v, g.graph.LeadsTo v v → ∀ x f f', g.Behind keeps v x f →
      g.Behind keeps v x f' → f = f') (hv : v < g.size) : g.Rests a v := by
  -- By induction on the number of nodes that lead to the node.
  induction hk : {u | g.graph.LeadsTo u v}.ncard using Nat.strong_induction_on generalizing v with
  | _ k ih =>
    by_cases hround : g.graph.LeadsTo v v
    · exact ha.rests_of_unique hg (hunique v hround)
    · obtain ⟨node, hnode⟩ := exists_node hv
      refine .of_preds hg.graph.symmetric hnode fun u hu => ?_
      have hedge : v ∈ g.graph.succs u := (hg.graph.symmetric u v).2 hu
      have hlt : u < g.size := (hg.graph.succs_lt u v hedge).1
      by_cases hround' : g.graph.LeadsTo u u
      · exact ha.rests_of_unique hg (hunique u hround')
      · refine ih _ ?_ hlt rfl
        rw [← hk]
        have hfinite : {w | g.graph.LeadsTo w v}.Finite :=
          (Set.finite_lt_nat g.size).subset fun w ⟨z, ⟨p, hp⟩, _⟩ => hp.entry_lt
        refine Set.ncard_lt_ncard ⟨fun w ⟨z, hz, hu⟩ => ⟨u, hz.step hu hlt, hedge⟩, fun hsub => ?_⟩
          hfinite
        exact hround' (hsub ⟨u, .of_lt hlt, hedge⟩)

theorem CarriesForward.beq_self_output
    (hst : Worklist.after a g.graph n (Worklist.start g.size) = some st) (v : Nat) :
    (st.outputs[v]?.getD {} == st.outputs[v]?.getD {}) = true := by
  apply FactMap.NaNFree.beq_self
  rintro ⟨x, f⟩ he
  obtain ⟨k, -, rfl, -⟩ := (ha.carried hg hst).outputs v x f (NameMap.mem_entries_iff.1 he)
  rfl

/-- A step that leaves the output of the node as it is puts no node into the queue. -/
theorem CarriesForward.queue_of_same
    (hst : Worklist.after a g.graph n (Worklist.start g.size) = some st)
    (hsame : (Worklist.step a g.graph st w queue).outputs[w]?.getD {} = st.outputs[w]?.getD {}) :
    (Worklist.step a g.graph st w queue).queue = queue := by
  rcases Worklist.step_cases a g.graph st w queue with
    ⟨-, hstep⟩ | ⟨node, new, hnode, -, ⟨-, hstep⟩ | ⟨hdiff, hstep⟩⟩
  · rw [hstep]
  · rw [hstep]
  · have hlt : w < st.outputs.size := Worklist.size_outputs_after hg.graph.symmetric hst ▸
      (Array.getElem?_eq_some_iff.1 hnode).1
    have hself := ha.beq_self_output hg hst w
    rw [hstep, Worklist.getD_setIfInBounds _ hlt, if_pos rfl] at hsame
    rw [Array.getElem?_eq_getElem hlt] at hdiff hsame hself
    rw [hsame] at hdiff
    exact absurd (hdiff.symm.trans hself) Bool.false_ne_true

/-- When all nodes rest, every step shortens the queue, until the run ends. -/
theorem CarriesForward.exists_run (hrests : ∀ v < g.size, g.Rests a v) :
    ∃ fuel st, Worklist.run a g.graph fuel (Worklist.start g.size) = some st := by
  obtain ⟨N, hN⟩ := eventually_atTop.1 ((eventually_all_finset (Finset.range g.size)).2
    fun v hv => hrests v (Finset.mem_range.1 hv))
  cases hst : Worklist.after a g.graph N (Worklist.start g.size) with
  | none => exact ⟨N, Worklist.exists_run_of_after_eq_none hst⟩
  | some st =>
    have hrun : ∃ st', Worklist.run a g.graph st.queue.length st = some st' := by
      refine Worklist.exists_run_of_shortens (fun n hn st w queue hst hq => ?_) hst
      apply ha.queue_of_same hg hst
      by_cases hw : w < g.size
      · exact hN n hn w (Finset.mem_range.2 hw) st w queue hst hq
      · have hnone : g.graph.node? w = none := Array.getElem?_eq_none (not_lt.1 hw)
        rw [Worklist.step_of_none hnone]
    obtain ⟨st', hrun⟩ := hrun
    exact ⟨N + st.queue.length, st', by rw [Worklist.run_after hst, hrun]⟩

theorem CarriesForward.exists_results
    (hunique : ∀ v, g.graph.LeadsTo v v → ∀ x f f', g.Behind keeps v x f →
      g.Behind keeps v x f' → f = f') : ∃ fuel results, g.solveWithin? fuel a = some results := by
  obtain ⟨fuel, st, hrun⟩ := ha.exists_run hg fun v hv => ha.rests hg hunique hv
  refine ⟨fuel, ?_⟩
  unfold solveWithin?
  rw [ha.direction]
  simp only [hrun]
  exact ⟨_, rfl⟩

end Run

end FlowGraph

end FlowOpt
