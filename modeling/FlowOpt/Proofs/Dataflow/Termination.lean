import FlowOpt.Proofs.Dataflow.Solution
import FlowOpt.Proofs.Hoist.Liveness

/-!
# When the worklist ends

Every step takes a node from the queue, and only a changed output makes others wait. So a run ends
if some potential falls with every changed output. An analysis that marks variables as live, and
marks more where more flows in, marks each variable at most once for each node.
-/

namespace FlowOpt

namespace FactMap

def AllLive (m : FactMap) : Prop := ∀ x a, NameMap.get? m x = some a → a = .live

variable {m n : FactMap} {maps : List FactMap} {x : String}

theorem allLive_empty : AllLive {} := by
  intro x a h
  simp at h

theorem AllLive.filter (h : m.AllLive) (p : String → Fact → Bool) :
    AllLive (NameMap.filter p m) := by
  intro x a ha
  rw [← NameMap.mem_entries_iff] at ha
  exact h x a (NameMap.mem_entries_iff.1 (List.mem_filter.1 ha).1)

theorem AllLive.insertAll (h : m.AllLive) {entries : List (String × Fact)}
    (he : ∀ e ∈ entries, e.2 = .live) : AllLive (m.insertAll entries) := by
  intro x a ha
  rw [NameMap.get?_insertAll] at ha
  rcases Option.or_eq_some_iff.1 ha with ha | ⟨-, ha⟩
  · obtain ⟨before, after, hl, -⟩ := List.lookup_eq_some_iff.1 ha
    refine he (x, a) (List.mem_reverse.1 ?_)
    rw [hl]
    simp
  · exact h x a ha

theorem allLive_union (h : ∀ m ∈ maps, AllLive m) : AllLive (union maps) := by
  refine List.foldlRecOn (motive := AllLive) maps _ allLive_empty fun merged hmerged m hm => ?_
  apply hmerged.insertAll
  rintro ⟨x, a⟩ he
  exact h m hm x a (NameMap.mem_entries_iff.1 he)

theorem AllLive.entries_eq (h : m.AllLive) : m.entries = m.keys.map (·, .live) := by
  rw [NameMap.keys, List.map_map]
  conv_lhs => rw [← List.map_id m.entries]
  apply List.map_congr_left
  rintro ⟨x, a⟩ he
  rw [h x a (NameMap.mem_entries_iff.1 he)]
  rfl

/-- Where nothing but liveness is said, mappings are told by their names. -/
theorem AllLive.eq_of_contains (hm : m.AllLive) (hn : n.AllLive)
    (h : ∀ x, NameMap.contains m x = true ↔ NameMap.contains n x = true) : m = n := by
  have hkeys : m.keys = n.keys := by
    have hsorted : ∀ m : FactMap, m.keys.Pairwise (· < ·) := fun m => List.pairwise_map.2 m.inOrder
    apply List.Pairwise.eq_of_mem_iff (hsorted m) (hsorted n)
    intro x
    rw [← NameMap.contains_iff_mem_keys, ← NameMap.contains_iff_mem_keys, h]
  apply NameMap.ext_entries
  rw [hm.entries_eq, hn.entries_eq, hkeys]

theorem AllLive.nanFree (h : m.AllLive) : m.NaNFree := by
  rintro ⟨x, f⟩ he
  rw [h x f (NameMap.mem_entries_iff.1 he)]
  rfl

end FactMap

namespace Worklist

variable {a : Analysis} {graph : Digraph FlowNode} {st : State} {queue nodes : List Nat}
  {outputs outputs' : Array FactMap} {u v n fuel : Nat} {x : String} {vars : List String}

theorem nodup_enqueue (hq : queue.Nodup) : (enqueue queue nodes).Nodup :=
  nodup_foldl_distinct nodes hq

/-- A run ends if the queue has at most `n` nodes and every step that does not just take a node from
it lowers the potential. -/
theorem exists_run {P : State → Prop} (potential : State → Nat)
    (hlen : ∀ st, P st → st.queue.length ≤ n)
    (hstep : ∀ st v queue, P st → st.queue = v :: queue → P (step a graph st v queue) ∧
      (((step a graph st v queue).queue = queue ∧
          potential (step a graph st v queue) = potential st) ∨
        potential (step a graph st v queue) < potential st))
    (h : P st) (hf : potential st * (n + 1) + st.queue.length ≤ fuel) :
    ∃ st', run a graph fuel st = some st' := by
  induction fuel generalizing st with
  | zero =>
    have hnil : st.queue = [] := List.eq_nil_of_length_eq_zero (by omega)
    exact ⟨st, by simp [Worklist.run, hnil]⟩
  | succ fuel ih =>
    unfold Worklist.run
    cases hq : st.queue with
    | nil => exact ⟨st, rfl⟩
    | cons v queue =>
      obtain ⟨hnext, hfalls⟩ := hstep st v queue h hq
      apply ih hnext
      rw [hq, List.length_cons] at hf
      rcases hfalls with ⟨hqueue, hsame⟩ | hlt
      · rw [hqueue, hsame]
        omega
      · have hle := Nat.mul_le_mul_right (n + 1) hlt
        have hnext := hlen _ hnext
        rw [Nat.succ_mul] at hle
        omega

/-- The state that many steps later, if the queue does not run out before. -/
def after (a : Analysis) (graph : Digraph FlowNode) : Nat → State → Option State
  | 0, st => some st
  | n + 1, st =>
    match st.queue with
    | [] => none
    | v :: queue => after a graph n (step a graph st v queue)

variable {st' : State} {k : Nat}

theorem run_after (h : after a graph k st = some st') (fuel : Nat) :
    run a graph (k + fuel) st = run a graph fuel st' := by
  induction k generalizing st with
  | zero => rw [Nat.zero_add, Option.some.inj h]
  | succ k ih =>
    unfold after at h
    split at h
    · cases h
    · next hq =>
      rw [Nat.succ_add, Worklist.run, hq]
      exact ih h

/-- A run does not end where it can still go on. -/
theorem run_eq_none_of_after (h : after a graph k st = some st') (hlt : fuel < k) :
    run a graph fuel st = none := by
  induction k generalizing st fuel with
  | zero => omega
  | succ k ih =>
    unfold after at h
    split at h
    · cases h
    · next hq =>
      cases fuel with
      | zero => simp [Worklist.run, hq]
      | succ fuel =>
        rw [Worklist.run, hq]
        exact ih h (by omega)

theorem step_congr_outputs (ho : st.outputs = st'.outputs) (v : Nat) (queue : List Nat) :
    (step a graph st v queue).queue = (step a graph st' v queue).queue ∧
      (step a graph st v queue).outputs = (step a graph st' v queue).outputs := by
  unfold Worklist.step
  rw [← ho]
  cases graph.node? v with
  | none => exact ⟨rfl, rfl⟩
  | some node =>
    simp only
    split <;> exact ⟨rfl, rfl⟩

theorem run_eq_none_congr (hq : st.queue = st'.queue) (ho : st.outputs = st'.outputs)
    (h : run a graph fuel st = none) : run a graph fuel st' = none := by
  induction fuel generalizing st st' with
  | zero => simpa [Worklist.run, ← hq] using h
  | succ fuel ih =>
    unfold Worklist.run at h ⊢
    rw [← hq]
    split at h
    · cases h
    · next v queue _ =>
      obtain ⟨hqueue, houtputs⟩ := step_congr_outputs ho v queue
      exact ih hqueue houtputs h

/-- A run that comes back to a queue with the outputs it had then never ends. -/
theorem run_eq_none_of_recurs {start again : State} (hstart : after a graph k st = some start)
    (hagain : after a graph (n + 1) start = some again) (hq : again.queue = start.queue)
    (ho : again.outputs = start.outputs) (fuel : Nat) : run a graph fuel st = none := by
  have hround : ∀ fuel, run a graph fuel start = none := by
    intro fuel
    induction fuel using Nat.strong_induction_on with
    | _ fuel ih =>
      rcases Nat.lt_or_ge fuel (n + 1) with hlt | hle
      · exact run_eq_none_of_after hagain hlt
      · obtain ⟨rest, rfl⟩ := Nat.exists_eq_add_of_le hle
        rw [run_after hagain]
        exact run_eq_none_congr hq.symm ho.symm (ih rest (by omega))
  rcases Nat.lt_or_ge fuel k with hlt | hle
  · exact run_eq_none_of_after hstart hlt
  · obtain ⟨rest, rfl⟩ := Nat.exists_eq_add_of_le hle
    rw [run_after hstart]
    exact hround rest

/-- An analysis that says of some variables that they are live, and of more where more flows in. -/
structure Marking (a : Analysis) (graph : Digraph FlowNode) (vars : List String) : Prop where
  merge : a.merge = .union
  live : ∀ node m, FactMap.AllLive m → FactMap.AllLive (a.transfer node m)
  mono : ∀ node m n, (∀ x, NameMap.contains m x = true → NameMap.contains n x = true) → ∀ x,
    NameMap.contains (a.transfer node m) x = true → NameMap.contains (a.transfer node n) x = true
  known : ∀ v node m, graph.node? v = some node →
    (∀ x, NameMap.contains m x = true → x ∈ vars) →
    ∀ x, NameMap.contains (a.transfer node m) x = true → x ∈ vars

structure Rising (a : Analysis) (graph : Digraph FlowNode) (vars : List String) (st : State) :
    Prop where
  size_eq : st.outputs.size = graph.size
  live : ∀ v : Nat, FactMap.AllLive (st.outputs[v]?.getD {})
  known : ∀ (v : Nat) x, NameMap.contains (st.outputs[v]?.getD {}) x = true → x ∈ vars
  rises : ∀ v node, graph.node? v = some node → ∀ x,
    NameMap.contains (st.outputs[v]?.getD {}) x = true →
      NameMap.contains (a.transfer node (incoming a graph st.outputs v)) x = true
  nodup : st.queue.Nodup
  lt : ∀ v ∈ st.queue, v < graph.size

def unmarked (graph : Digraph FlowNode) (vars : List String) (outputs : Array FactMap) :
    Finset (Nat × String) :=
  (Finset.range graph.size ×ˢ vars.toFinset).filter fun p =>
    ¬ NameMap.contains (outputs[p.1]?.getD {}) p.2 = true

theorem Rising.start (a : Analysis) (graph : Digraph FlowNode) (vars : List String) :
    Rising a graph vars (Worklist.start graph.size) := by
  constructor
  · exact Array.size_replicate
  · intro v
    rw [getD_outputs_start]
    exact FactMap.allLive_empty
  · intro v x hx
    rw [getD_outputs_start] at hx
    cases hx
  · intro v node _ x hx
    rw [getD_outputs_start] at hx
    cases hx
  · exact List.nodup_range
  · exact fun v hv => List.mem_range.1 hv

theorem Rising.length_le (h : Rising a graph vars st) : st.queue.length ≤ graph.size := by
  have hsub : st.queue ⊆ List.range graph.size := fun v hv => List.mem_range.2 (h.lt v hv)
  simpa using (h.nodup.subperm hsub).length_le

theorem allLive_incoming (ha : a.merge = .union) (graph : Digraph FlowNode)
    (h : ∀ p : Nat, FactMap.AllLive (outputs[p]?.getD {})) (u : Nat) :
    FactMap.AllLive (incoming a graph outputs u) := by
  unfold incoming
  rw [ha]
  split
  · exact FactMap.allLive_union (by simpa using FactMap.allLive_empty)
  · apply FactMap.allLive_union
    intro m hm
    obtain ⟨p, -, rfl⟩ := List.mem_map.1 hm
    exact h p

theorem contains_incoming_mono (ha : a.merge = .union) (graph : Digraph FlowNode)
    (h : ∀ (p : Nat) x, NameMap.contains (outputs[p]?.getD {}) x = true →
      NameMap.contains (outputs'[p]?.getD {}) x = true) (u : Nat) (x : String)
    (hx : NameMap.contains (incoming a graph outputs u) x = true) :
    NameMap.contains (incoming a graph outputs' u) x = true := by
  rw [FlowGraph.contains_incoming a ha] at hx ⊢
  obtain ⟨p, hp, hx⟩ := hx
  exact ⟨p, hp, h p x hx⟩

theorem getD_setIfInBounds (new : FactMap) (hv : v < outputs.size) (u : Nat) :
    (outputs.setIfInBounds v new)[u]?.getD {} = if u = v then new else outputs[u]?.getD {} := by
  split
  · next huv => rw [huv, Array.getElem?_setIfInBounds_self_of_lt hv, Option.getD_some]
  · next huv => rw [Array.getElem?_setIfInBounds_ne (Ne.symm huv)]

theorem Rising.lt_size {node : FlowNode} (h : Rising a graph vars st)
    (hnode : graph.node? v = some node) : v < st.outputs.size :=
  h.size_eq ▸ (Array.getElem?_eq_some_iff.1 hnode).1

section Update

variable {node : FlowNode} {new : FactMap} (ha : Marking a graph vars)
  (h : Rising a graph vars st) (hnode : graph.node? v = some node)
  (hnew : a.transfer node (incoming a graph st.outputs v) = new)
include ha h hnode hnew

omit hnode in
theorem Rising.allLive_new : new.AllLive :=
  hnew ▸ ha.live node _ (allLive_incoming ha.merge graph h.live v)

theorem Rising.known_new (hx : NameMap.contains new x = true) : x ∈ vars := by
  refine ha.known v node _ hnode (fun y hy => ?_) x (hnew ▸ hx)
  rw [FlowGraph.contains_incoming a ha.merge] at hy
  obtain ⟨p, -, hy⟩ := hy
  exact h.known p y hy

omit ha in
theorem Rising.grows (u : Nat) (x : String)
    (hx : NameMap.contains (st.outputs[u]?.getD {}) x = true) :
    NameMap.contains ((st.outputs.setIfInBounds v new)[u]?.getD {}) x = true := by
  rw [getD_setIfInBounds _ (h.lt_size hnode)]
  split
  · next huv => exact hnew ▸ h.rises v node hnode x (huv ▸ hx)
  · exact hx

/-- An output that differs marks a variable that was not marked. -/
theorem Rising.exists_new (hdiff : (st.outputs[v]? == some new) = false) :
    ∃ x, NameMap.contains new x = true ∧
      ¬ NameMap.contains (st.outputs[v]?.getD {}) x = true := by
  by_contra hnone
  push Not at hnone
  have hlive := h.allLive_new ha hnew
  have hold : st.outputs[v]?.getD {} = new := (h.live v).eq_of_contains hlive fun x =>
    ⟨fun hx => hnew ▸ h.rises v node hnode x hx, hnone x⟩
  have hget := Array.getElem?_eq_getElem (h.lt_size hnode)
  rw [hget, Option.getD_some] at hold
  rw [hget, hold] at hdiff
  exact Bool.false_ne_true (hdiff.symm.trans hlive.nanFree.beq_self)

theorem Rising.update (hg : graph.WellFormed) {inputs : Array FactMap} {iterations : Nat}
    (hq : queue.Nodup) (hlt : ∀ u ∈ queue, u < graph.size) :
    Rising a graph vars ⟨enqueue queue (graph.succs v), inputs,
      st.outputs.setIfInBounds v new, iterations⟩ := by
  have hget := getD_setIfInBounds new (h.lt_size hnode)
  constructor
  · exact (Array.size_setIfInBounds ..).trans h.size_eq
  · intro u
    rw [hget]
    split
    · exact h.allLive_new ha hnew
    · exact h.live u
  · intro u x hx
    rw [hget] at hx
    split at hx
    · exact h.known_new ha hnode hnew hx
    · exact h.known u x hx
  · intro u node' hnode' x hx
    apply ha.mono node' _ _ (contains_incoming_mono ha.merge graph (h.grows hnode hnew) u) x
    rw [hget] at hx
    split at hx
    · next huv =>
      subst huv
      obtain rfl := Option.some.inj (hnode.symm.trans hnode')
      exact hnew.symm ▸ hx
    · exact h.rises u node' hnode' x hx
  · exact nodup_enqueue hq
  · intro u hu
    rcases mem_enqueue.1 hu with hu | hu
    · exact hlt u hu
    · exact (hg.succs_lt v u hu).2

theorem Rising.unmarked_ssubset (hdiff : (st.outputs[v]? == some new) = false) :
    unmarked graph vars (st.outputs.setIfInBounds v new) ⊂ unmarked graph vars st.outputs := by
  obtain ⟨x, hx, hxnot⟩ := h.exists_new ha hnode hnew hdiff
  have hlt := h.lt_size hnode
  have hsub : unmarked graph vars (st.outputs.setIfInBounds v new) ⊆
      unmarked graph vars st.outputs := by
    intro p hp
    obtain ⟨hp, hpnot⟩ := Finset.mem_filter.1 hp
    exact Finset.mem_filter.2 ⟨hp, fun hin => hpnot (h.grows hnode hnew p.1 p.2 hin)⟩
  refine Finset.ssubset_iff_subset_ne.2 ⟨hsub, fun heq => ?_⟩
  have hmem : (v, x) ∈ unmarked graph vars st.outputs := by
    refine Finset.mem_filter.2 ⟨Finset.mem_product.2 ⟨?_, ?_⟩, hxnot⟩
    · exact Finset.mem_range.2 (h.size_eq ▸ hlt)
    · exact List.mem_toFinset.2 (h.known_new ha hnode hnew hx)
  rw [← heq] at hmem
  apply (Finset.mem_filter.1 hmem).2
  rw [getD_setIfInBounds _ hlt, if_pos rfl]
  exact hx

end Update

/-- A step takes a node from the queue and marks nothing, or it marks something. -/
theorem Rising.step (ha : Marking a graph vars) (hg : graph.WellFormed)
    (h : Rising a graph vars st) (hq : st.queue = v :: queue) :
    Rising a graph vars (step a graph st v queue) ∧
      (((Worklist.step a graph st v queue).queue = queue ∧
          unmarked graph vars (Worklist.step a graph st v queue).outputs =
            unmarked graph vars st.outputs) ∨
        unmarked graph vars (Worklist.step a graph st v queue).outputs ⊂
          unmarked graph vars st.outputs) := by
  have hnodup : queue.Nodup := (List.nodup_cons.1 (hq ▸ h.nodup)).2
  have hlt : ∀ u ∈ queue, u < graph.size := fun u hu => h.lt u (hq ▸ List.mem_cons_of_mem _ hu)
  rcases step_cases a graph st v queue with
    ⟨-, hstep⟩ | ⟨node, new, hnode, hnew, ⟨-, hstep⟩ | ⟨hdiff, hstep⟩⟩
  · rw [hstep]
    exact ⟨⟨h.size_eq, h.live, h.known, h.rises, hnodup, hlt⟩, .inl ⟨rfl, rfl⟩⟩
  · rw [hstep]
    exact ⟨⟨h.size_eq, h.live, h.known, h.rises, hnodup, hlt⟩, .inl ⟨rfl, rfl⟩⟩
  · rw [hstep]
    exact ⟨h.update ha hnode hnew hg hnodup hlt, .inr (h.unmarked_ssubset ha hnode hnew hdiff)⟩

/-- A marking ends: every node marks each variable at most once. -/
theorem Marking.exists_run (ha : Marking a graph vars) (hg : graph.WellFormed)
    (hf : graph.size * vars.length * (graph.size + 1) + graph.size ≤ fuel) :
    ∃ st', run a graph fuel (start graph.size) = some st' := by
  apply Worklist.exists_run (P := Rising a graph vars) (n := graph.size) fun st =>
    (unmarked graph vars st.outputs).card
  · exact fun st h => h.length_le
  · intro st v queue h hq
    obtain ⟨hnext, hsame | hless⟩ := h.step ha hg hq
    · exact ⟨hnext, .inl ⟨hsame.1, by rw [hsame.2]⟩⟩
    · exact ⟨hnext, .inr (Finset.card_lt_card hless)⟩
  · exact Rising.start a graph vars
  · have hcard : (unmarked graph vars (start graph.size).outputs).card ≤ graph.size * vars.length := by
      refine (Finset.card_filter_le _ _).trans ?_
      rw [Finset.card_product, Finset.card_range]
      exact Nat.mul_le_mul_left _ (List.toFinset_card_le vars)
    have hlen : (start graph.size).queue.length = graph.size := List.length_range
    have hmul := Nat.mul_le_mul_right (graph.size + 1) hcard
    omega

end Worklist

namespace FlowGraph

variable {g : FlowGraph} {b : Block} {i : Instruction} {x name : String} {v : Nat}

def varNames (g : FlowGraph) : List String :=
  distinct ((Block.flatten g.blocks).flatMap fun i => i.dest.toList ++ i.args)

theorem mem_varNames (hb : b ∈ g.blocks) (hi : i ∈ b.instrs) (hx : x ∈ i.args) :
    x ∈ g.varNames := by
  rw [varNames, mem_distinct, List.mem_flatMap]
  exact ⟨i, List.mem_flatMap.2 ⟨b, hb, hi⟩, List.mem_append_right _ hx⟩

theorem mem_varNames_of_dest (hb : b ∈ g.blocks) (hi : i ∈ b.instrs) (hd : i.dest = some x) :
    x ∈ g.varNames := by
  rw [varNames, mem_distinct, List.mem_flatMap]
  exact ⟨i, List.mem_flatMap.2 ⟨b, hb, hi⟩, List.mem_append_left _ (by simp [hd])⟩

theorem allLive_edgeLiveness (node : FlowNode) {input : FactMap} (h : input.AllLive) :
    FactMap.AllLive ((edgeLiveness g).transfer node input) := by
  have hmap : ∀ names : List String, ∀ e ∈ names.map (·, Fact.live), e.2 = .live := by
    simp
  refine List.foldrRecOn (motive := FactMap.AllLive) _ _ (h.insertAll (hmap _)) fun m hm i _ => ?_
  unfold Instruction.liveBefore
  split
  · exact hm.filter _
  · exact (hm.filter _).insertAll (hmap i.args)

theorem marking_edgeLiveness (g : FlowGraph) :
    Worklist.Marking (edgeLiveness g) g.graph.reverse g.varNames where
  merge := rfl
  live node _ h := allLive_edgeLiveness node h
  mono node m n hle x hx := by
    rw [contains_edgeLiveness] at hx ⊢
    exact hx.mono fun y => Or.imp_left (hle y)
  known v node m hnode hknown x hx := by
    have hb : node.block ∈ g.blocks := by
      have hv : g.blocks[v]? = some node.block := by
        rw [← map_block_node?]
        exact congrArg (Option.map (·.block)) hnode
      exact List.mem_of_getElem? hv
    rw [contains_edgeLiveness] at hx
    rcases hx.cases with (hx | hx) | ⟨i, hi, hx⟩
    · exact hknown x hx
    · obtain ⟨b, hb, i, hi, -, hx⟩ := exists_of_mem_phiReads hx
      exact mem_varNames hb hi hx
    · exact mem_varNames hb hi hx

/-- There are more states than changes of what is said of a variable, if two for each node and
variable are the most, each with a round of the queue. -/
theorem rounds_le_stateBound (hn : 0 < g.size) {k : Nat}
    (hk : k ≤ 2 * (g.size * g.varNames.length)) : k * (g.size + 1) + g.size ≤ g.stateBound := by
  have hqueues : (g.size + 1) * (g.size + 1) ≤ (g.size + 1) ^ (g.size + 1) := by
    rw [← sq]
    exact Nat.pow_le_pow_right (Nat.succ_pos _) (Nat.succ_le_succ hn)
  have hpow : ∀ n : Nat, 2 * n + 1 ≤ 3 ^ n := by
    intro n
    induction n with
    | zero => rfl
    | succ n ih => omega
  have hfacts : k + 1 ≤
      (g.size + (Block.flatten g.blocks).length + 3) ^ (g.size * g.varNames.length) :=
    (Nat.succ_le_succ hk).trans
      ((hpow _).trans (Nat.pow_le_pow_left (Nat.le_add_left 3 _) _))
  calc k * (g.size + 1) + g.size
      ≤ (k + 1) * (g.size + 1) := by
        rw [Nat.succ_mul]
        omega
    _ ≤ (g.size + 1) * (k + 1) * (g.size + 1) := by
        rw [Nat.mul_assoc]
        exact Nat.le_mul_of_pos_left _ (Nat.succ_pos _)
    _ = (g.size + 1) * (g.size + 1) * (k + 1) := by ring
    _ ≤ g.stateBound := Nat.mul_le_mul hqueues hfacts

theorem exists_marked {a : Analysis} (hg : g.graph.WellFormed) (hn : 0 < g.size)
    (ha : Worklist.Marking a g.graph.reverse g.varNames) (hd : a.direction = .backward) :
    ∃ results, g.solve a = .ok results := by
  obtain ⟨st, hst⟩ := ha.exists_run hg.reverse (rounds_le_stateBound hn (Nat.le_mul_of_pos_left _ two_pos))
  unfold solve solveWithin?
  have hrun : Worklist.run a g.switchDirections.graph g.stateBound
      (Worklist.start g.size) = some st := hst
  simp only [hd, hrun]
  exact ⟨_, rfl⟩

theorem exists_live (hg : g.WellFormed) : ∃ live, g.solve (edgeLiveness g) = .ok live :=
  exists_marked hg.graph hg.nonempty (marking_edgeLiveness g) rfl

end FlowGraph

end FlowOpt
