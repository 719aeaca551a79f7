import FlowOpt.Proofs.Dataflow.Fairness
import FlowOpt.Proofs.Dataflow.LiveVariables
import FlowOpt.Proofs.FlowGraph.Exact

/-!
# How versions are carried

Two analyses carry versions of variables along the edges: reaching ones past blocks that do not
assign the variable, defined ones past any block. Whatever a run says at any of its steps was carried
there. The merge lets the last predecessor win, so a version may replace another and replace it again
later, and a run need not end. But a variable that is known at a node stays known there, and since
nothing waits for ever, what is known at one node gets known behind it.
-/

namespace FlowOpt

namespace FactMap

variable {maps : List FactMap} {x : String} {f : Fact}

theorem exists_of_get?_union (h : (union maps).get? x = some f) : ∃ m ∈ maps, m.get? x = some f := by
  have hfold : ∀ (maps : List FactMap) (merged : FactMap),
      (maps.foldl (fun merged m => NameMap.insertAll merged m.entries) merged).get? x = some f →
        merged.get? x = some f ∨ ∃ m ∈ maps, m.get? x = some f := by
    intro maps
    induction maps with
    | nil => exact fun _ h => .inl h
    | cons m maps ih =>
      intro merged h
      rw [List.exists_mem_cons_iff, ← or_assoc]
      refine (ih _ h).imp_left fun h => ?_
      rw [NameMap.get?_insertAll_entries] at h
      exact (Option.or_eq_some_iff.1 h).symm.imp_left And.right
  exact (hfold maps {} h).resolve_left (by simp)

end FactMap

section Own

variable {n : FlowNode} {input : FactMap} {x : String}

theorem get?_reachingDefinitions (n : FlowNode) (input : FactMap) (x : String) :
    NameMap.get? (reachingDefinitions.transfer n input) x =
      ((n.versions.get? x).map Fact.version).or (input.get? x) := by
  have hown : reachingDefinitions.transfer n input =
      NameMap.insertAll input (n.versions.map fun _ k => Fact.version k).entries := rfl
  rw [hown, NameMap.get?_insertAll_entries, NameMap.get?_map]

theorem get?_definedVariables (n : FlowNode) (input : FactMap) (x : String) :
    NameMap.get? (definedVariables.transfer n input) x =
      (input.get? x).or ((n.versions.get? x).map Fact.version) := by
  have hown : definedVariables.transfer n input =
      NameMap.insertAll (NameMap.insertAll {} (n.versions.map fun _ k => Fact.version k).entries)
        input.entries := rfl
  rw [hown, NameMap.get?_insertAll_entries, NameMap.get?_insertAll_entries, NameMap.get?_map,
    NameMap.get?_default, Option.or_none]

end Own

namespace FlowGraph

variable {g : FlowGraph} {a : Analysis} {results : Results} {fuel d v : Nat} {x : String} {k : Nat}
  {keeps : Nat → String → Prop}

def Assigns (g : FlowGraph) (v : Nat) (x : String) : Prop :=
  ∃ b, g.blocks[v]? = some b ∧ x ∈ b.destinations

def Carries (g : FlowGraph) (v : Nat) (x : String) (k : Nat) : Prop :=
  ∃ n, g.node? v = some n ∧ n.versions.get? x = some k

theorem assigns_iff {n : FlowNode} (hn : g.node? v = some n) :
    g.Assigns v x ↔ x ∈ n.block.destinations := by
  have hb : g.blocks[v]? = some n.block := by rw [← map_block_node?, hn, Option.map_some]
  simp [Assigns, hb]

/-- A version is the number of the blocks before that assign the variable. -/
theorem Built.get?_versions (hg : g.Built) {n : FlowNode} (hn : g.node? v = some n) (x : String) :
    n.versions.get? x = if x ∈ n.block.destinations then
      some ((g.blocks.take v).countP (x ∈ ·.destinations)) else none := by
  induction hg with
  | ofBlocks h => exact (depicts_of_ofBlocks h).versions v n x hn
  | turned _ ih => exact ih hn

theorem Built.carries_iff (hg : g.Built) : g.Carries v x k ↔
    g.Assigns v x ∧ (g.blocks.take v).countP (x ∈ ·.destinations) = k := by
  constructor
  · rintro ⟨n, hn, hk⟩
    rw [hg.get?_versions hn] at hk
    split at hk
    · next hx => exact ⟨(assigns_iff hn).2 hx, Option.some.inj hk⟩
    · cases hk
  · rintro ⟨⟨b, hb, hx⟩, rfl⟩
    obtain ⟨n, hn, rfl⟩ := Option.map_eq_some_iff.1 ((map_block_node? g v).trans hb)
    exact ⟨n, hn, by rw [hg.get?_versions hn, if_pos hx]⟩

theorem Assigns.countP_lt {w : Nat} (h : g.Assigns v x) (hlt : v < w) :
    (g.blocks.take v).countP (x ∈ ·.destinations) <
      (g.blocks.take w).countP (x ∈ ·.destinations) := by
  obtain ⟨b, hb, hx⟩ := h
  have hnext : (g.blocks.take (v + 1)).countP (x ∈ ·.destinations) =
      (g.blocks.take v).countP (x ∈ ·.destinations) + 1 := by
    rw [List.take_add_one, hb, List.countP_append]
    simp [hx]
  have hle : (g.blocks.take (v + 1)).countP (x ∈ ·.destinations) ≤
      (g.blocks.take w).countP (x ∈ ·.destinations) :=
    (List.take_sublist_take_left hlt).countP_le
  omega

/-- No two blocks give a variable the same version. -/
theorem Built.carries_unique (hg : g.Built) {w : Nat} (hv : g.Carries v x k)
    (hw : g.Carries w x k) : v = w := by
  obtain ⟨hv, hvk⟩ := hg.carries_iff.1 hv
  obtain ⟨hw, hwk⟩ := hg.carries_iff.1 hw
  rcases Nat.lt_trichotomy v w with hlt | heq | hlt
  · have := hv.countP_lt hlt
    omega
  · exact heq
  · have := hw.countP_lt hlt
    omega

/-- An analysis that carries versions forward. Behind a block a fact is the block's own, or it came
in and the block keeps it. -/
structure CarriesForward (g : FlowGraph) (a : Analysis) (keeps : Nat → String → Prop) : Prop where
  direction : a.direction = .forward
  merge : a.merge = .union
  cases : ∀ {v n input x f}, g.node? v = some n →
    NameMap.get? (a.transfer n input) x = some f →
      (∃ k, f = .version k ∧ g.Carries v x k) ∨ (input.get? x = some f ∧ keeps v x)
  contains : ∀ {v n input x}, g.node? v = some n →
    (NameMap.contains (a.transfer n input) x = true ↔
      NameMap.contains input x = true ∨ g.Assigns v x)

theorem Built.contains_or (hg : g.Built) {n : FlowNode} (hn : g.node? v = some n)
    (input : FactMap) (x : String) :
    (((n.versions.get? x).map Fact.version).or (input.get? x)).isSome = true ↔
      NameMap.contains input x = true ∨ g.Assigns v x := by
  rw [Option.isSome_or, Option.isSome_map, Bool.or_eq_true, or_comm, assigns_iff hn,
    ← hg.contains_versions (mem_nodes hn)]
  rfl

theorem Built.reachingDefinitions_carries (hg : g.Built) :
    g.CarriesForward reachingDefinitions fun v x => ¬ g.Assigns v x where
  direction := rfl
  merge := rfl
  cases {v n input x f} hn h := by
    rw [get?_reachingDefinitions, Option.or_eq_some_iff] at h
    rcases h with h | ⟨hnone, h⟩
    · obtain ⟨k, hk, rfl⟩ := Option.map_eq_some_iff.1 h
      exact .inl ⟨k, rfl, n, hn, hk⟩
    · refine .inr ⟨h, fun hx => ?_⟩
      rw [assigns_iff hn, ← hg.contains_versions (mem_nodes hn), NameMap.contains] at hx
      rw [Option.map_eq_none_iff] at hnone
      simp [hnone] at hx
  contains {v n input x} hn := by
    rw [NameMap.contains, get?_reachingDefinitions, hg.contains_or hn]

/-- What comes in is kept in any case. -/
theorem Built.definedVariables_carries (hg : g.Built) :
    g.CarriesForward definedVariables fun _ _ => True where
  direction := rfl
  merge := rfl
  cases {v n input x f} hn h := by
    rw [get?_definedVariables, Option.or_eq_some_iff] at h
    rcases h with h | ⟨-, h⟩
    · exact .inr ⟨h, trivial⟩
    · obtain ⟨k, hk, rfl⟩ := Option.map_eq_some_iff.1 h
      exact .inl ⟨k, rfl, n, hn, hk⟩
  contains {v n input x} hn := by
    rw [NameMap.contains, get?_definedVariables, ← hg.contains_or hn, Option.isSome_or,
      Option.isSome_or, Bool.or_comm]

/-- A path from a node that carries the version to the end of another, on which all nodes behind the
first one keep the variable. -/
def CarriedTo (g : FlowGraph) (keeps : Nat → String → Prop) (x : String) (k d v : Nat) : Prop :=
  g.Carries d x k ∧ ∃ p, g.graph.Path d v p ∧ ∀ w ∈ p.tail, keeps w x

theorem CarriedTo.step {w : Nat} (h : g.CarriedTo keeps x k d v) (hw : w ∈ g.graph.succs v)
    (hlt : w < g.size) (hkeeps : keeps w x) : g.CarriedTo keeps x k d w := by
  obtain ⟨hd, p, hp, hpass⟩ := h
  have hne : p ≠ [] := List.ne_nil_of_mem hp.mem_last
  refine ⟨hd, p ++ [w], hp.step hw hlt, fun u hu => ?_⟩
  rw [List.tail_append_of_ne_nil hne, List.mem_append, List.mem_singleton] at hu
  rcases hu with hu | rfl
  · exact hpass u hu
  · exact hkeeps

theorem exists_of_get?_incoming {outputs : Array FactMap} {f : Fact} (ha : a.merge = .union)
    (h : NameMap.get? (Worklist.incoming a g.graph outputs v) x = some f) :
    ∃ u ∈ g.graph.preds v, NameMap.get? (outputs[u]?.getD {}) x = some f := by
  unfold Worklist.incoming at h
  rw [ha] at h
  split at h
  · obtain ⟨m, hm, hx⟩ := FactMap.exists_of_get?_union h
    rw [List.mem_singleton.1 hm] at hx
    cases hx
  · obtain ⟨m, hm, hx⟩ := FactMap.exists_of_get?_union h
    obtain ⟨u, hu, rfl⟩ := List.mem_map.1 hm
    exact ⟨u, hu, hx⟩

/-- A fact that was carried to the end of a node. -/
def Behind (g : FlowGraph) (keeps : Nat → String → Prop) (v : Nat) (x : String) (f : Fact) : Prop :=
  ∃ k d, f = .version k ∧ g.CarriedTo keeps x k d v

/-- A fact that was carried to the start of a node. -/
def Before (g : FlowGraph) (keeps : Nat → String → Prop) (v : Nat) (x : String) (f : Fact) : Prop :=
  ∃ u, v ∈ g.graph.succs u ∧ g.Behind keeps u x f

structure Carried (g : FlowGraph) (keeps : Nat → String → Prop) (st : Worklist.State) : Prop where
  outputs : ∀ (v : Nat) (x : String) (f : Fact),
    NameMap.get? (st.outputs[v]?.getD {}) x = some f → g.Behind keeps v x f
  inputs : ∀ (v : Nat) (x : String) (f : Fact),
    NameMap.get? (st.inputs[v]?.getD {}) x = some f → g.Before keeps v x f

/-- What is known of a state of a run. Of the variables at the start of a node it forgets none, and
what flows in by now knows them still. -/
structure Widening (g : FlowGraph) (a : Analysis) (st : Worklist.State) : Prop where
  progress : Worklist.Progress a g.graph st
  fed : Worklist.Fed a g.graph st
  inputs : ∀ (v : Nat) (x : String), NameMap.contains (st.inputs[v]?.getD {}) x = true →
    NameMap.contains (Worklist.incoming a g.graph st.outputs v) x = true
  outputs : ∀ (v : Nat) (x : String), NameMap.contains (st.outputs[v]?.getD {}) x = true →
    NameMap.contains (st.inputs[v]?.getD {}) x = true ∨ g.Assigns v x

structure Widens (st st' : Worklist.State) : Prop where
  inputs : ∀ (v : Nat) (x : String), NameMap.contains (st.inputs[v]?.getD {}) x = true →
    NameMap.contains (st'.inputs[v]?.getD {}) x = true
  outputs : ∀ (v : Nat) (x : String), NameMap.contains (st.outputs[v]?.getD {}) x = true →
    NameMap.contains (st'.outputs[v]?.getD {}) x = true

theorem Widens.refl (st : Worklist.State) : Widens st st := ⟨fun _ _ => id, fun _ _ => id⟩

theorem Widens.trans {st st' st'' : Worklist.State} (h : Widens st st') (h' : Widens st' st'') :
    Widens st st'' :=
  ⟨fun v x hx => h'.inputs v x (h.inputs v x hx), fun v x hx => h'.outputs v x (h.outputs v x hx)⟩

/-- The second state knows at a node all that the first would find out there. -/
structure Overtakes (g : FlowGraph) (a : Analysis) (w : Nat) (st st' : Worklist.State) : Prop where
  inputs : ∀ x, NameMap.contains (Worklist.incoming a g.graph st.outputs w) x = true →
    NameMap.contains (st'.inputs[w]?.getD {}) x = true
  outputs : ∀ x, NameMap.contains (Worklist.incoming a g.graph st.outputs w) x = true ∨
    g.Assigns w x → NameMap.contains (st'.outputs[w]?.getD {}) x = true

theorem Overtakes.widens {w : Nat} {st st' st'' : Worklist.State} (h : g.Overtakes a w st st')
    (h' : Widens st' st'') : g.Overtakes a w st st'' :=
  ⟨fun x hx => h'.inputs w x (h.inputs x hx), fun x hx => h'.outputs w x (h.outputs x hx)⟩

theorem exists_node {u : Nat} (hu : u < g.size) : ∃ n, g.node? u = some n :=
  ⟨_, Array.getElem?_eq_getElem hu⟩

section Run

variable {st st' : Worklist.State} {queue : List Nat} {w n N : Nat}
  (ha : g.CarriesForward a keeps) (hg : g.Built)
include ha hg

theorem CarriesForward.before_of_incoming {outputs : Array FactMap} {f : Fact}
    (h : ∀ (u : Nat) (f : Fact), NameMap.get? (outputs[u]?.getD {}) x = some f →
      g.Behind keeps u x f)
    (hf : NameMap.get? (Worklist.incoming a g.graph outputs v) x = some f) :
    g.Before keeps v x f := by
  obtain ⟨u, hu, hout⟩ := exists_of_get?_incoming ha.merge hf
  exact ⟨u, (hg.graph.symmetric u v).2 hu, h u f hout⟩

theorem CarriesForward.carried_step (h : g.Carried keeps st) :
    g.Carried keeps (Worklist.step a g.graph st v queue) := by
  constructor
  · intro w x
    refine Worklist.outputs_step (P := fun w m => ∀ f, NameMap.get? m x = some f →
      g.Behind keeps w x f) (by simp) ?_ (fun w => h.outputs w x) v queue w
    intro outputs u n hn hout f hf
    have hlt : u < g.size := (Array.getElem?_eq_some_iff.1 hn).1
    rcases ha.cases hn hf with ⟨k, rfl, hk⟩ | ⟨hin, hkeeps⟩
    · exact ⟨k, u, rfl, hk, [u], .start hlt, by simp⟩
    · obtain ⟨w, hw, k, d, rfl, hd⟩ := ha.before_of_incoming hg hout hin
      exact ⟨k, d, rfl, hd.step hw hlt hkeeps⟩
  · intro w x f hf
    have hset : NameMap.get? ((st.inputs.setIfInBounds v
        (Worklist.incoming a g.graph st.outputs v))[w]?.getD {}) x = some f →
          g.Before keeps w x f := by
      intro hf
      by_cases hw : w = v
      · subst hw
        rw [Array.getElem?_setIfInBounds_self] at hf
        split at hf
        · exact ha.before_of_incoming hg (fun u => h.outputs u x) hf
        · simp at hf
      · rw [Array.getElem?_setIfInBounds_ne (Ne.symm hw)] at hf
        exact h.inputs w x f hf
    rcases Worklist.step_cases a g.graph st v queue with
      ⟨-, heq⟩ | ⟨node, new, -, -, ⟨-, heq⟩ | ⟨-, heq⟩⟩
    · rw [heq] at hf
      exact h.inputs w x f hf
    · rw [heq] at hf
      exact hset hf
    · rw [heq] at hf
      exact hset hf

/-- At every step of a run, whether it ends or not, what is said was carried there. -/
theorem CarriesForward.carried
    (hr : Worklist.after a g.graph n (Worklist.start g.size) = some st) : g.Carried keeps st := by
  refine Worklist.after_induction (fun _ _ _ h _ => ha.carried_step hg h) ⟨?_, ?_⟩ hr
  · simp
  · intro v x f hf
    have hstart : (Worklist.start g.size).inputs[v]?.getD {} = ({} : FactMap) :=
      Worklist.getD_outputs_start g.size v
    rw [hstart] at hf
    simp at hf

omit hg in
/-- The node taken gets to know no less: its input has what flows in, and its output what the
analysis carries through. -/
theorem CarriesForward.widens_of_node (h : g.Widening a st) {node : FlowNode}
    (hn : g.graph.node? v = some node) (queue : List Nat) :
    Widens st (Worklist.step a g.graph st v queue) := by
  obtain ⟨hinputs, houtputs⟩ :=
    Worklist.step_of_node (a := a) hn h.fed.size_eq h.progress.size_eq queue
  constructor
  · intro u x hx
    rw [hinputs]
    split
    · next huv => exact h.inputs v x (huv ▸ hx)
    · exact hx
  · intro u x hx
    rw [houtputs]
    split
    · next huv => exact (ha.contains hn).2 ((h.outputs v x (huv ▸ hx)).imp_left (h.inputs v x))
    · exact hx

theorem CarriesForward.widening_step (h : g.Widening a st) (hq : st.queue = v :: queue) :
    g.Widening a (Worklist.step a g.graph st v queue) ∧
      Widens st (Worklist.step a g.graph st v queue) ∧
      (v < g.size → g.Overtakes a v st (Worklist.step a g.graph st v queue)) := by
  have hprogress := h.progress.step hg.graph.symmetric hq
  have hfed := h.fed.step hg.graph.symmetric hq
  cases hn : g.graph.node? v with
  | none =>
    rw [Worklist.step_of_none hn] at hprogress hfed ⊢
    refine ⟨⟨hprogress, hfed, h.inputs, h.outputs⟩, ⟨fun _ _ => id, fun _ _ => id⟩, fun hlt => ?_⟩
    obtain ⟨node, hnode⟩ := exists_node hlt
    exact absurd (hn.symm.trans hnode) (by simp)
  | some node =>
    obtain ⟨hinputs, houtputs⟩ :=
      Worklist.step_of_node (a := a) hn h.fed.size_eq h.progress.size_eq queue
    have hwidens := ha.widens_of_node h hn queue
    refine ⟨⟨hprogress, hfed, fun u x hx => ?_, fun u x hx => ?_⟩, hwidens, fun _ => ⟨?_, ?_⟩⟩
    · apply Worklist.contains_incoming_mono ha.merge g.graph hwidens.outputs
      rw [hinputs] at hx
      split at hx
      · next huv => exact huv ▸ hx
      · exact h.inputs u x hx
    · rw [houtputs] at hx
      rw [hinputs]
      split at hx
      · next huv =>
        rw [if_pos huv]
        exact huv ▸ (ha.contains hn).1 hx
      · next huv =>
        rw [if_neg huv]
        exact h.outputs u x hx
    · intro x hx
      rwa [hinputs, if_pos rfl]
    · intro x hx
      rw [houtputs, if_pos rfl]
      exact (ha.contains hn).2 hx

theorem CarriesForward.widening_after (h : g.Widening a st)
    (hr : Worklist.after a g.graph n st = some st') : g.Widening a st' ∧ Widens st st' := by
  refine Worklist.after_induction (P := fun st' => g.Widening a st' ∧ Widens st st') ?_
    ⟨h, .refl st⟩ hr
  intro mid v queue ⟨hmid, hwidens⟩ hq
  obtain ⟨hnext, hwider, -⟩ := ha.widening_step hg hmid hq
  exact ⟨hnext, hwidens.trans hwider⟩

/-- A node gets to know what flows in: if it does not wait, it does, and otherwise it is taken. -/
theorem CarriesForward.overtakes (h : g.Widening a st) (hw : w < g.size) :
    ∃ k, ∀ n ≥ k, ∀ st', Worklist.after a g.graph n st = some st' → g.Overtakes a w st st' := by
  by_cases hwaits : w ∈ st.queue
  · obtain ⟨k, hk⟩ := List.mem_iff_getElem?.1 hwaits
    refine ⟨k + 1, fun n hn st' hr => ?_⟩
    obtain ⟨next, hnext, hrest⟩ := Worklist.exists_after_of_le hn hr
    obtain ⟨mid, queue, hmid, hq, rfl⟩ := Worklist.exists_taken hk hnext
    obtain ⟨hmidway, hwider⟩ := ha.widening_after hg h hmid
    obtain ⟨htaken, -, hovertakes⟩ := ha.widening_step hg hmidway hq
    obtain ⟨-, hwidest⟩ := ha.widening_after hg htaken hrest
    have hflows := Worklist.contains_incoming_mono ha.merge g.graph hwider.outputs w
    have hlater := (hovertakes hw).widens hwidest
    exact ⟨fun x hx => hlater.inputs x (hflows x hx),
      fun x hx => hlater.outputs x (hx.imp_left (hflows x))⟩
  · refine ⟨0, fun n _ st' hr => ?_⟩
    obtain ⟨-, hwidens⟩ := ha.widening_after hg h hr
    obtain ⟨node, hn⟩ := exists_node hw
    have hnow : g.Overtakes a w st st := by
      constructor
      · intro x hx
        rwa [h.fed.fed w hw hwaits, Option.getD_some]
      · intro x hx
        exact ((h.progress.settled w hwaits).contains_iff hn).2 ((ha.contains hn).2 hx)
    exact hnow.widens hwidens

theorem CarriesForward.eventually_overtakes (N : Nat) (hw : w < g.size) : ∃ M, ∀ n ≥ M, ∀ st',
    Worklist.after a g.graph n (Worklist.start g.size) = some st' → ∃ st,
      Worklist.after a g.graph N (Worklist.start g.size) = some st ∧ g.Overtakes a w st st' := by
  have hstart : g.Widening a (Worklist.start g.size) := by
    have hnothing : ∀ v : Nat, (Worklist.start g.size).inputs[v]?.getD {} = ({} : FactMap) :=
      Worklist.getD_outputs_start g.size
    refine ⟨.start a g.graph, .start a g.graph, fun v x hx => ?_, fun v x hx => ?_⟩
    · rw [hnothing] at hx
      cases hx
    · rw [Worklist.getD_outputs_start] at hx
      cases hx
  cases hN : Worklist.after a g.graph N (Worklist.start g.size) with
  | none =>
    refine ⟨N, fun n hn st' hr => ?_⟩
    obtain ⟨mid, hmid, -⟩ := Worklist.exists_after_of_le hn hr
    rw [hN] at hmid
    cases hmid
  | some st =>
    obtain ⟨k, hk⟩ := ha.overtakes hg (ha.widening_after hg hstart hN).1 hw
    refine ⟨N + k, fun n hn st' hr => ⟨st, rfl, ?_⟩⟩
    obtain ⟨mid, hmid, hrest⟩ := Worklist.exists_after_of_le (Nat.le_of_add_right_le hn) hr
    obtain rfl := Option.some.inj (hN.symm.trans hmid)
    exact hk (n - N) (by omega) st' hrest

/-- From some step on a variable is known behind every block that one leads to which assigns it. -/
theorem CarriesForward.eventually_known (hd : g.Assigns d x) (hr : g.graph.Reachable d v) :
    ∃ N, ∀ n ≥ N, ∀ st, Worklist.after a g.graph n (Worklist.start g.size) = some st →
      NameMap.contains (st.outputs[v]?.getD {}) x = true := by
  apply hr.induction
  · obtain ⟨M, hM⟩ := ha.eventually_overtakes hg 0 hr.choose_spec.entry_lt
    refine ⟨M, fun n hn st' hst' => ?_⟩
    obtain ⟨st, -, hovertakes⟩ := hM n hn st' hst'
    exact hovertakes.outputs x (.inr hd)
  · rintro u w _ ⟨N, hN⟩ hw hlt
    obtain ⟨M, hM⟩ := ha.eventually_overtakes hg N hlt
    refine ⟨M, fun n hn st' hst' => ?_⟩
    obtain ⟨st, hst, hovertakes⟩ := hM n hn st' hst'
    refine hovertakes.outputs x (.inl ((contains_incoming a ha.merge _ _ _).2 ?_))
    exact ⟨u, (hg.graph.symmetric u w).1 hw, hN N le_rfl st hst⟩

/-- At the end, a variable has a version behind every block that one leads to which assigns it. -/
theorem CarriesForward.contains_output
    (hs : ∀ v, Worklist.Settled a g.graph st.outputs v) (hd : g.Assigns d x)
    (hr : g.graph.Reachable d v) : NameMap.contains (st.outputs[v]?.getD {}) x = true := by
  apply hr.induction
  · obtain ⟨n, hn⟩ := exists_node hr.choose_spec.entry_lt
    exact ((hs d).contains_iff hn).2 ((ha.contains hn).2 (.inr hd))
  · intro u w _ hu hw hlt
    obtain ⟨n, hn⟩ := exists_node hlt
    refine ((hs w).contains_iff hn).2 ((ha.contains hn).2 (.inl ?_))
    exact (contains_incoming a ha.merge _ _ _).2 ⟨u, (hg.graph.symmetric u w).1 hw, hu⟩

end Run

end FlowGraph

end FlowOpt
