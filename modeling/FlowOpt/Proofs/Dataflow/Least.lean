import FlowOpt.Proofs.Dataflow.LiveVariables
import Mathlib.Data.DFinsupp.WellFounded

/-!
# The least solution

An analysis that says more where more flows in only ever raises the outputs of a run, and never
above those of a solution. So the run ends if no output can rise without end, and it ends with the
least solution, in whichever order the blocks wait at first.
-/

namespace FlowOpt

/-- An order of the mappings that an analysis works with. No constant in them differs from itself,
and those that are equal in the order are those that compare equal. -/
structure FactOrder where
  Dom : FactMap → Prop
  le : FactMap → FactMap → Prop
  nanFree : ∀ {m}, Dom m → m.NaNFree
  empty : Dom {}
  empty_le : ∀ {m}, Dom m → le {} m
  trans : ∀ {l m n}, Dom l → Dom m → Dom n → le l m → le m n → le l n
  beq_iff : ∀ {m n}, Dom m → Dom n → ((m == n) = true ↔ le m n ∧ le n m)

namespace FactOrder

variable {o : FactOrder} {m n : FactMap}

def lt (o : FactOrder) (m n : FactMap) : Prop := o.le m n ∧ ¬ o.le n m

theorem refl (hm : o.Dom m) : o.le m m := ((o.beq_iff hm hm).1 (o.nanFree hm).beq_self).1

theorem lt_of_beq (hm : o.Dom m) (hn : o.Dom n) (hle : o.le m n) (h : (m == n) = false) :
    o.lt m n := by
  refine ⟨hle, fun hback => ?_⟩
  have hbeq := (o.beq_iff hm hn).2 ⟨hle, hback⟩
  exact Bool.false_ne_true (h.symm.trans hbeq)

structure Monotone (o : FactOrder) (a : Analysis) (graph : Digraph FlowNode) : Prop where
  merge : ∀ {maps}, (∀ m ∈ maps, o.Dom m) → o.Dom (a.merge maps)
  merge_le : ∀ {maps maps'}, (∀ m ∈ maps, o.Dom m) → (∀ m ∈ maps', o.Dom m) →
    List.Forall₂ o.le maps maps' → o.le (a.merge maps) (a.merge maps')
  transfer : ∀ {v node m}, graph.node? v = some node → o.Dom m → o.Dom (a.transfer node m)
  transfer_le : ∀ {v node m n}, graph.node? v = some node → o.Dom m → o.Dom n → o.le m n →
    o.le (a.transfer node m) (a.transfer node n)

end FactOrder

namespace Worklist

variable {o : FactOrder} {a : Analysis} {graph : Digraph FlowNode} {st st' : State}
  {queue : List Nat} {outputs outputs' : Array FactMap} {u v fuel : Nat}

inductive Reached (a : Analysis) (graph : Digraph FlowNode) (st : State) : State → Prop
  | start : Reached a graph st st
  | step {st' : State} {v : Nat} {queue : List Nat} (h : Reached a graph st st')
      (hq : st'.queue = v :: queue) : Reached a graph st (step a graph st' v queue)

def Occurs (a : Analysis) (graph : Digraph FlowNode) (st : State) (v : Nat) (m : FactMap) : Prop :=
  ∃ st', Reached a graph st st' ∧ st'.outputs[v]?.getD {} = m

/-- No node's outputs rise without end, as when there is a bound on how often they can. -/
def FiniteHeight (o : FactOrder) (a : Analysis) (graph : Digraph FlowNode) (st : State) : Prop :=
  ∀ v, WellFounded fun m n => Occurs a graph st v m ∧ Occurs a graph st v n ∧ o.lt n m

/-- A run ends if what is measured falls with every step that does not just take a node from the
queue. -/
theorem exists_run_of_wellFounded {P : State → Prop} {α : Type} {r : α → α → Prop}
    (hr : WellFounded r) (measure : State → α)
    (hstep : ∀ st v queue, P st → st.queue = v :: queue → P (step a graph st v queue) ∧
      (((step a graph st v queue).queue = queue ∧
          measure (step a graph st v queue) = measure st) ∨
        r (measure (step a graph st v queue)) (measure st)))
    (h : P st) : ∃ fuel st', run a graph fuel st = some st' := by
  have hall : ∀ x queue st, measure st = x → st.queue = queue → P st →
      ∃ fuel st', run a graph fuel st = some st' := by
    intro x
    induction x using hr.induction with
    | _ x ih =>
      intro queue
      induction queue with
      | nil =>
        intro st _ hq _
        exact ⟨0, st, by simp [run, hq]⟩
      | cons v queue ihq =>
        intro st hx hq h
        obtain ⟨hnext, hfalls⟩ := hstep st v queue h hq
        obtain ⟨fuel, st', hrun⟩ : ∃ fuel st',
            run a graph fuel (step a graph st v queue) = some st' := by
          rcases hfalls with ⟨hqueue, hsame⟩ | hless
          · exact ihq _ (hsame.trans hx) hqueue hnext
          · exact ih _ (hx ▸ hless) _ _ rfl rfl hnext
        refine ⟨fuel + 1, st', ?_⟩
        rw [run, hq]
        exact hrun
  exact hall _ _ st rfl rfl h

section Monotone

variable (ha : o.Monotone a graph)
include ha

theorem dom_merged {maps : List FactMap} (h : ∀ m ∈ maps, o.Dom m) : o.Dom (a.merged maps) := by
  cases maps with
  | nil => exact ha.merge (by simpa using o.empty)
  | cons m maps => exact ha.merge h

theorem merged_le {maps maps' : List FactMap} (h : ∀ m ∈ maps, o.Dom m)
    (h' : ∀ m ∈ maps', o.Dom m) (hle : List.Forall₂ o.le maps maps') :
    o.le (a.merged maps) (a.merged maps') := by
  cases hle with
  | nil => exact o.refl (dom_merged ha (by simp))
  | cons hm hmaps => exact ha.merge_le h h' (.cons hm hmaps)

theorem merged_map_le {f f' : Nat → FactMap} {nodes : List Nat} (h : ∀ p ∈ nodes, o.Dom (f p))
    (h' : ∀ p ∈ nodes, o.Dom (f' p)) (hle : ∀ p ∈ nodes, o.le (f p) (f' p)) :
    o.le (a.merged (nodes.map f)) (a.merged (nodes.map f')) := by
  apply merged_le ha
  · simpa using h
  · simpa using h'
  · rw [List.forall₂_map_left_iff, List.forall₂_map_right_iff]
    exact List.forall₂_same.2 hle

end Monotone

structure Ascending (o : FactOrder) (a : Analysis) (graph : Digraph FlowNode) (st : State) :
    Prop where
  size_eq : st.outputs.size = graph.size
  dom : ∀ v : Nat, o.Dom (st.outputs[v]?.getD {})
  rises : ∀ v node, graph.node? v = some node →
    o.le (st.outputs[v]?.getD {}) (a.transfer node (incoming a graph st.outputs v))

theorem dom_incoming (ha : o.Monotone a graph) (h : ∀ v : Nat, o.Dom (outputs[v]?.getD {}))
    (v : Nat) : o.Dom (incoming a graph outputs v) := by
  rw [incoming_eq]
  apply dom_merged ha
  intro m hm
  obtain ⟨p, -, rfl⟩ := List.mem_map.1 hm
  exact h p

theorem incoming_le (ha : o.Monotone a graph) (h : ∀ v : Nat, o.Dom (outputs[v]?.getD {}))
    (h' : ∀ v : Nat, o.Dom (outputs'[v]?.getD {}))
    (hle : ∀ v : Nat, o.le (outputs[v]?.getD {}) (outputs'[v]?.getD {})) (v : Nat) :
    o.le (incoming a graph outputs v) (incoming a graph outputs' v) := by
  rw [incoming_eq, incoming_eq]
  exact merged_map_le ha (fun p _ => h p) (fun p _ => h' p) fun p _ => hle p

theorem Ascending.startIn (ha : o.Monotone a graph) (queue : List Nat) :
    Ascending o a graph (startIn graph.size queue) := by
  have hget : ∀ v : Nat, (Worklist.startIn graph.size queue).outputs[v]?.getD {} = ({} : FactMap) :=
    getD_outputs_start graph.size
  have hdom : ∀ v : Nat, o.Dom ((Worklist.startIn graph.size queue).outputs[v]?.getD {}) := by
    intro v
    rw [hget]
    exact o.empty
  refine ⟨Array.size_replicate, hdom, fun v node hn => ?_⟩
  rw [hget]
  exact o.empty_le (ha.transfer hn (dom_incoming ha hdom v))

theorem Ascending.update (ha : o.Monotone a graph) (h : Ascending o a graph st) {node : FlowNode}
    (hnode : graph.node? v = some node) (hout : st'.outputs =
      st.outputs.setIfInBounds v (a.transfer node (incoming a graph st.outputs v))) :
    Ascending o a graph st' := by
  have hlt : v < graph.size := (Array.getElem?_eq_some_iff.1 hnode).1
  have hget := getD_setIfInBounds (a.transfer node (incoming a graph st.outputs v))
    (h.size_eq ▸ hlt : v < st.outputs.size)
  rw [← hout] at hget
  have hdom : ∀ u : Nat, o.Dom (st'.outputs[u]?.getD {}) := by
    intro u
    rw [hget]
    split
    · exact ha.transfer hnode (dom_incoming ha h.dom v)
    · exact h.dom u
  have hgrows : ∀ u : Nat, o.le (st.outputs[u]?.getD {}) (st'.outputs[u]?.getD {}) := by
    intro u
    rw [hget]
    split
    · next hu => exact hu ▸ h.rises v node hnode
    · exact o.refl (h.dom u)
  refine ⟨hout ▸ (Array.size_setIfInBounds ..).trans h.size_eq, hdom, fun u node' hnode' => ?_⟩
  have hflows := ha.transfer_le hnode' (dom_incoming ha h.dom u) (dom_incoming ha hdom u)
    (incoming_le ha h.dom hdom hgrows u)
  rw [hget]
  split
  · next hu =>
    subst hu
    obtain rfl := Option.some.inj (hnode.symm.trans hnode')
    exact hflows
  · exact o.trans (h.dom u) (ha.transfer hnode' (dom_incoming ha h.dom u))
      (ha.transfer hnode' (dom_incoming ha hdom u)) (h.rises u node' hnode') hflows

theorem Ascending.step (ha : o.Monotone a graph) (h : Ascending o a graph st) (v : Nat)
    (queue : List Nat) : Ascending o a graph (step a graph st v queue) ∧
      (((Worklist.step a graph st v queue).queue = queue ∧
          (Worklist.step a graph st v queue).outputs = st.outputs) ∨
        (v < graph.size ∧
          o.lt (st.outputs[v]?.getD {})
            ((Worklist.step a graph st v queue).outputs[v]?.getD {}) ∧
          ∀ u : Nat, u ≠ v →
            (Worklist.step a graph st v queue).outputs[u]?.getD {} = st.outputs[u]?.getD {})) := by
  rcases step_cases a graph st v queue with
    ⟨-, hstep⟩ | ⟨node, new, hnode, rfl, ⟨-, hstep⟩ | ⟨hdiff, hstep⟩⟩
  · rw [hstep]
    exact ⟨⟨h.size_eq, h.dom, h.rises⟩, .inl ⟨rfl, rfl⟩⟩
  · rw [hstep]
    exact ⟨⟨h.size_eq, h.dom, h.rises⟩, .inl ⟨rfl, rfl⟩⟩
  have hlt : v < graph.size := (Array.getElem?_eq_some_iff.1 hnode).1
  have hget := getD_setIfInBounds (a.transfer node (incoming a graph st.outputs v))
    (h.size_eq ▸ hlt : v < st.outputs.size)
  rw [hstep]
  refine ⟨h.update ha hnode rfl, .inr ⟨hlt, ?_, fun u hu => by rw [hget, if_neg hu]⟩⟩
  rw [hget, if_pos rfl]
  have hold := Array.getElem?_eq_getElem (h.size_eq ▸ hlt : v < st.outputs.size)
  rw [hold] at hdiff
  apply FactOrder.lt_of_beq (h.dom v) (ha.transfer hnode (dom_incoming ha h.dom v))
    (h.rises v node hnode)
  rw [hold]
  exact hdiff

/-- A monotone analysis ends: the outputs rise, one node's at a time. -/
theorem exists_run_of_monotone (ha : o.Monotone a graph) (queue : List Nat)
    (hf : FiniteHeight o a graph (startIn graph.size queue)) :
    ∃ fuel st, run a graph fuel (startIn graph.size queue) = some st := by
  let outputsOf (st : State) (v : Fin graph.size) : FactMap := st.outputs[v.1]?.getD {}
  apply exists_run_of_wellFounded (Pi.Lex.wellFounded (· < ·) fun v : Fin graph.size => hf v.1)
    outputsOf (P := fun st => Reached a graph (startIn graph.size queue) st ∧ Ascending o a graph st)
  · rintro st v rest ⟨hreached, h⟩ hq
    obtain ⟨hnext, hsame | ⟨hlt, hrises, hothers⟩⟩ := h.step ha v rest
    · exact ⟨⟨hreached.step hq, hnext⟩, .inl ⟨hsame.1, by simp only [outputsOf, hsame.2]⟩⟩
    · refine ⟨⟨hreached.step hq, hnext⟩, .inr ⟨⟨v, hlt⟩, fun u hu => ?_, ?_, ?_, hrises⟩⟩
      · exact hothers u.1 fun huv => absurd (Fin.ext huv) hu.ne
      · exact ⟨_, hreached.step hq, rfl⟩
      · exact ⟨_, hreached, rfl⟩
  · exact ⟨.start, .startIn ha queue⟩

structure Orderly (graph : Digraph FlowNode) (st : State) : Prop where
  nodup : st.queue.Nodup
  lt : ∀ v ∈ st.queue, v < graph.size

theorem Orderly.start (graph : Digraph FlowNode) : Orderly graph (start graph.size) :=
  ⟨List.nodup_range, fun _ hv => List.mem_range.1 hv⟩

theorem Orderly.length_le (h : Orderly graph st) : st.queue.length ≤ graph.size := by
  have hsub : st.queue ⊆ List.range graph.size := fun v hv => List.mem_range.2 (h.lt v hv)
  simpa using (h.nodup.subperm hsub).length_le

theorem Orderly.step (hg : graph.WellFormed) (h : Orderly graph st) (hq : st.queue = v :: queue)
    (a : Analysis) : Orderly graph (step a graph st v queue) := by
  have hnodup : queue.Nodup := (List.nodup_cons.1 (hq ▸ h.nodup)).2
  have hlt : ∀ u ∈ queue, u < graph.size := fun u hu => h.lt u (hq ▸ List.mem_cons_of_mem _ hu)
  rcases step_cases a graph st v queue with
    ⟨-, hstep⟩ | ⟨node, new, -, -, ⟨-, hstep⟩ | ⟨-, hstep⟩⟩
  · rw [hstep]
    exact ⟨hnodup, hlt⟩
  · rw [hstep]
    exact ⟨hnodup, hlt⟩
  · rw [hstep]
    refine ⟨nodup_enqueue hnodup, fun u hu => ?_⟩
    rcases mem_enqueue.1 hu with hu | hu
    · exact hlt u hu
    · exact (hg.succs_lt v u hu).2

def totalRoom (room : FactMap → Nat) (graph : Digraph FlowNode) (st : State) : Nat :=
  ∑ v ∈ Finset.range graph.size, room (st.outputs[v]?.getD {})

/-- A monotone analysis takes no more steps than its outputs have room to rise, each with a round of
the queue. -/
theorem exists_run_of_room (ha : o.Monotone a graph) (hg : graph.WellFormed)
    (room : FactMap → Nat)
    (hroom : ∀ m n, o.Dom m → o.Dom n → o.lt m n → room n < room m)
    (hf : graph.size * room {} * (graph.size + 1) + graph.size ≤ fuel) :
    ∃ st, run a graph fuel (start graph.size) = some st := by
  apply Worklist.exists_run (P := fun st => Ascending o a graph st ∧ Orderly graph st)
    (n := graph.size) (totalRoom room graph)
  · exact fun st h => h.2.length_le
  · rintro st v queue ⟨h, horder⟩ hq
    obtain ⟨hnext, ⟨hqueue, hsame⟩ | ⟨hlt, hrises, hothers⟩⟩ := h.step ha v queue
    · exact ⟨⟨hnext, horder.step hg hq a⟩, .inl ⟨hqueue, by rw [totalRoom, hsame]; rfl⟩⟩
    · refine ⟨⟨hnext, horder.step hg hq a⟩, .inr ?_⟩
      have hless := hroom _ _ (h.dom v) (hnext.dom v) hrises
      apply Finset.sum_lt_sum
      · intro u _
        by_cases hu : u = v
        · exact hu ▸ hless.le
        · rw [hothers u hu]
      · exact ⟨v, Finset.mem_range.2 hlt, hless⟩
  · exact ⟨.startIn ha graph.ids, .start graph⟩
  · have htotal : totalRoom room graph (start graph.size) = graph.size * room {} := by
      simp [totalRoom]
    have hlen : (start graph.size).queue.length = graph.size := List.length_range
    rw [htotal, hlen]
    exact hf

theorem Ascending.run (ha : o.Monotone a graph)
    (hr : Worklist.run a graph fuel (Worklist.startIn graph.size queue) = some st) :
    Ascending o a graph st :=
  (run_induction (fun _ v queue h _ => (h.step ha v queue).1) (.startIn ha queue) hr).1

/-- A run never says more than what the analysis does not lead out of. -/
theorem outputs_le (ha : o.Monotone a graph) (hg : graph.WellFormed) {out : Nat → FactMap}
    (hdom : ∀ v < graph.size, o.Dom (out v))
    (hclosed : ∀ v node, graph.node? v = some node →
      o.le (a.transfer node (a.merged ((graph.preds v).map out))) (out v))
    (hr : run a graph fuel (startIn graph.size queue) = some st) (v : Nat) :
    o.Dom (st.outputs[v]?.getD {}) ∧ (v < graph.size → o.le (st.outputs[v]?.getD {}) (out v)) := by
  have hstart : ∀ u, o.Dom {} ∧ (u < graph.size → o.le {} (out u)) := fun u =>
    ⟨o.empty, fun hu => o.empty_le (hdom u hu)⟩
  apply outputs_induction (P := fun v m => o.Dom m ∧ (v < graph.size → o.le m (out v)))
    hstart _ _ hr
  · intro outputs u node hn h
    have hpreds : ∀ p ∈ graph.preds u, p < graph.size := fun p hp => hg.pred_lt hp
    have hin := dom_incoming ha (fun w => (h w).1) u
    refine ⟨ha.transfer hn hin, fun hu => ?_⟩
    have hmerged : o.Dom (a.merged ((graph.preds u).map out)) := by
      apply dom_merged ha
      intro m hm
      obtain ⟨p, hp, rfl⟩ := List.mem_map.1 hm
      exact hdom p (hpreds p hp)
    apply o.trans (ha.transfer hn hin) (ha.transfer hn hmerged) (hdom u hu) _ (hclosed u node hn)
    apply ha.transfer_le hn hin hmerged
    rw [incoming_eq]
    exact merged_map_le ha (fun p _ => (h p).1) (fun p hp => hdom p (hpreds p hp))
      fun p hp => (h p).2 (hpreds p hp)
  · intro w
    rw [show (startIn graph.size queue).outputs = (start graph.size).outputs from rfl,
      getD_outputs_start]
    exact hstart w

theorem Reached.ascending (ha : o.Monotone a graph)
    (h : Reached a graph (startIn graph.size queue) st) : Ascending o a graph st := by
  induction h with
  | start => exact .startIn ha queue
  | step _ _ ih => exact (ih.step ha _ _).1

end Worklist

section Live

variable {a : Analysis} {graph : Digraph FlowNode} {vars : List String} {m n : FactMap}

def liveOrder (vars : List String) : FactOrder where
  Dom m := m.AllLive ∧ ∀ x, NameMap.contains m x = true → x ∈ vars
  le m n := ∀ x, NameMap.contains m x = true → NameMap.contains n x = true
  nanFree hm := hm.1.nanFree
  empty := ⟨FactMap.allLive_empty, by simp [NameMap.contains]⟩
  empty_le _ := by simp [NameMap.contains]
  trans _ _ _ hlm hmn x hx := hmn x (hlm x hx)
  beq_iff {m n} hm hn := by
    constructor
    · intro h
      exact ⟨fun x => (NameMap.contains_eq_of_beq h).1, fun x => (NameMap.contains_eq_of_beq h).2⟩
    · rintro ⟨hmn, hnm⟩
      obtain rfl := hm.1.eq_of_contains hn.1 fun x => ⟨hmn x, hnm x⟩
      exact hm.1.nanFree.beq_self

theorem Worklist.Marking.monotone (ha : Marking a graph vars) :
    (liveOrder vars).Monotone a graph where
  merge {maps} h := by
    rw [ha.merge]
    refine ⟨FactMap.allLive_union fun m hm => (h m hm).1, fun x hx => ?_⟩
    obtain ⟨m, hm, hx⟩ := FactMap.contains_union.1 hx
    exact (h m hm).2 x hx
  merge_le {maps maps'} h h' hle x hx := by
    rw [ha.merge, FactMap.contains_union] at hx ⊢
    clear h h'
    induction hle with
    | nil => exact hx
    | cons hm _ ih =>
      rw [List.exists_mem_cons_iff] at hx ⊢
      exact hx.imp (hm x) ih
  transfer {v node m} hn hm := ⟨ha.live node m hm.1, ha.known v node m hn hm.2⟩
  transfer_le {_ node m n} _ _ _ hle := ha.mono node m n hle

/-- Only so many variables can become live. -/
theorem Worklist.Marking.finiteHeight (ha : Marking a graph vars) (queue : List Nat) :
    FiniteHeight (liveOrder vars) a graph (startIn graph.size queue) := by
  intro v
  let missing (m : FactMap) : Finset String :=
    vars.toFinset.filter fun x => ¬ NameMap.contains m x = true
  have hwf : WellFounded fun m n => missing m ⊂ missing n :=
    InvImage.wf missing Finset.isWellFounded_ssubset.wf
  refine Subrelation.wf (r := fun m n => missing m ⊂ missing n) ?_ hwf
  rintro m n ⟨⟨st, hst, rfl⟩, -, hle, hnot⟩
  obtain ⟨x, hx⟩ := not_forall.1 hnot
  obtain ⟨hx, hxn⟩ := Classical.not_imp.1 hx
  have hdom := (hst.ascending ha.monotone).dom v
  refine Finset.ssubset_iff_subset_ne.2 ⟨fun y hy => ?_, fun heq => ?_⟩
  · obtain ⟨hy, hym⟩ := Finset.mem_filter.1 hy
    exact Finset.mem_filter.2 ⟨hy, fun hyn => hym (hle y hyn)⟩
  · have hmem : x ∈ missing n :=
      Finset.mem_filter.2 ⟨List.mem_toFinset.2 (hdom.2 x hx), hxn⟩
    rw [← heq] at hmem
    exact (Finset.mem_filter.1 hmem).2 hx

end Live

namespace FlowGraph

variable {o : FactOrder} {g : FlowGraph} {a : Analysis} {results s : Results} {queue : List Nat}

def Within (o : FactOrder) (g : FlowGraph) (s : Results) : Prop :=
  ∀ v < g.size, o.Dom (g.factsAt s.inputs v) ∧ o.Dom (g.factsAt s.outputs v)

def Below (o : FactOrder) (g : FlowGraph) (results s : Results) : Prop :=
  ∀ v < g.size, o.le (g.factsAt results.inputs v) (g.factsAt s.inputs v) ∧
    o.le (g.factsAt results.outputs v) (g.factsAt s.outputs v)

theorem within_iff (d : Direction) : Within o g s ↔ ∀ v < g.size,
    o.Dom (g.factsAt (s.entering d) v) ∧ o.Dom (g.factsAt (s.leaving d) v) := by
  cases d with
  | forward => rfl
  | backward => exact forall₂_congr fun _ _ => and_comm

theorem below_iff (d : Direction) : Below o g results s ↔ ∀ v < g.size,
    o.le (g.factsAt (results.entering d) v) (g.factsAt (s.entering d) v) ∧
      o.le (g.factsAt (results.leaving d) v) (g.factsAt (s.leaving d) v) := by
  cases d with
  | forward => rfl
  | backward => exact forall₂_congr fun _ _ => and_comm

theorem Solves.closed (h : g.Solves a s) (hs : Within o g s)
    (ha : o.Monotone a (g.along a.direction).graph) {v : Nat} {node : FlowNode}
    (hn : g.node? v = some node) :
    o.le (a.transfer node (a.merged (((g.along a.direction).graph.preds v).map
      (g.factsAt (s.leaving a.direction))))) (g.factsAt (s.leaving a.direction) v) := by
  obtain ⟨hin, hout⟩ := (within_iff a.direction).1 hs v (Array.getElem?_eq_some_iff.1 hn).1
  have htransfer := ha.transfer ((node?_along g a.direction v).trans hn) hin
  rw [← h.factsAt_entering hn]
  exact ((o.beq_iff hout htransfer).1 (h.factsAt_leaving hn)).2

/-- What leaves the blocks settles what flows into them. -/
theorem Solves.within (h : g.Solves a s) (hg : g.Built)
    (ha : o.Monotone a (g.along a.direction).graph)
    (hdom : ∀ v < g.size, o.Dom (g.factsAt (s.leaving a.direction) v)) : Within o g s := by
  refine (within_iff a.direction).2 fun v hv => ⟨?_, hdom v hv⟩
  have hn : g.node? v = some g.graph.nodes[v] := Array.getElem?_eq_getElem hv
  rw [h.factsAt_entering hn]
  apply Worklist.dom_merged ha
  intro m hm
  obtain ⟨p, hp, rfl⟩ := List.mem_map.1 hm
  exact hdom p (hg.pred_lt hp)

theorem Solves.below (h : g.Solves a results) (h' : g.Solves a s) (hg : g.Built)
    (ha : o.Monotone a (g.along a.direction).graph) (hr : Within o g results) (hs : Within o g s)
    (hle : ∀ v < g.size, o.le (g.factsAt (results.leaving a.direction) v)
      (g.factsAt (s.leaving a.direction) v)) : Below o g results s := by
  refine (below_iff a.direction).2 fun v hv => ⟨?_, hle v hv⟩
  have hn : g.node? v = some g.graph.nodes[v] := Array.getElem?_eq_getElem hv
  rw [h.factsAt_entering hn, h'.factsAt_entering hn]
  exact Worklist.merged_map_le ha
    (fun p hp => ((within_iff a.direction).1 hr p (hg.pred_lt hp)).2)
    (fun p hp => ((within_iff a.direction).1 hs p (hg.pred_lt hp)).2)
    fun p hp => hle p (hg.pred_lt hp)

/-- For an analysis that is monotone in an order where outputs cannot rise without end, the run ends
and finds the least solution, in whichever order the blocks wait at first. -/
theorem exists_least_solution (hg : g.Built) (ha : o.Monotone a (g.along a.direction).graph)
    (hq : queue.Perm g.ids) (hf : Worklist.FiniteHeight o a (g.along a.direction).graph
      (Worklist.startIn g.size queue)) :
    ∃ fuel results, g.solveFrom? queue fuel a = some (results, g) ∧
      (queue = g.ids → g.solveWithin? fuel a = some results) ∧
      g.Solves a results ∧ Within o g results ∧
      ∀ s, g.Solves a s → Within o g s → Below o g results s := by
  have hsize := size_along g a.direction
  have hgraph := (hg.along a.direction).graph
  rw [← hsize] at hf
  obtain ⟨fuel, st, hrun⟩ := Worklist.exists_run_of_monotone ha queue hf
  obtain ⟨results, hsome⟩ := exists_solveFrom?_of_run hrun
  obtain ⟨-, st', hrun', -, hleaving⟩ := solveFrom?_eq_some hsome
  obtain rfl := Option.some.inj (hrun.symm.trans hrun')
  have hfacts : ∀ v < g.size, g.factsAt (results.leaving a.direction) v =
      st.outputs[v]?.getD {} := fun v hv => hleaving ▸ hg.factsAt_keyed st.outputs hv
  have hdom : ∀ v < g.size, o.Dom (g.factsAt (results.leaving a.direction) v) := by
    intro v hv
    rw [hfacts v hv]
    exact (Worklist.Ascending.run ha hrun).dom v
  have hsolves : g.Solves a results :=
    (hg.solves hq hsome fun v hv => o.nanFree (hdom v hv)).2
  have hwithin := hsolves.within hg ha hdom
  refine ⟨fuel, results, hsome, fun hids => ?_, hsolves, hwithin, fun s hs hsdom => ?_⟩
  · rw [hids, solveFrom?_ids] at hsome
    obtain ⟨r, hr, heq⟩ := Option.map_eq_some_iff.1 hsome
    rw [hr, (Prod.mk.inj heq).1]
  · refine hsolves.below hs hg ha hwithin hsdom fun v hv => ?_
    rw [hfacts v hv]
    refine (Worklist.outputs_le ha hgraph (fun u hu => ?_) (fun u node hn => ?_) hrun v).2
      (hsize.symm ▸ hv : v < (g.along a.direction).size)
    · exact ((within_iff a.direction).1 hsdom u (hsize ▸ hu : u < g.size)).2
    · rw [node?_along] at hn
      exact hs.closed hsdom ha hn

/-- What is live in the loop of `scaling` is the least solution, also if the last block waits
first. -/
theorem scaling_least : ∃ g fuel results, Built g ∧
    [2, 1, 0].Perm g.ids ∧
    (liveOrder g.varNames).Monotone liveVariables (g.along liveVariables.direction).graph ∧
    g.solveFrom? [2, 1, 0] fuel liveVariables = some (results, g) ∧
    g.Solves liveVariables results ∧ Within (liveOrder g.varNames) g results ∧
    ∀ s, g.Solves liveVariables s → Within (liveOrder g.varNames) g s →
      Below (liveOrder g.varNames) g results s := by
  have hids : (ofBlocks scaling "entry").toOption.map (·.size) = some 3 := by decide +kernel
  obtain ⟨g, hg, hsize⟩ := exists_of_toOption_map hids
  have hperm : [2, 1, 0].Perm g.ids := by
    rw [show g.ids = List.range 3 from congrArg List.range hsize]
    decide
  have hmark := marking_liveVariables g
  obtain ⟨fuel, results, hsome, -, hleast⟩ :=
    exists_least_solution (.ofBlocks hg) hmark.monotone hperm (hmark.finiteHeight _)
  exact ⟨g, fuel, results, .ofBlocks hg, hperm, hmark.monotone, hsome, hleast⟩

end FlowGraph

end FlowOpt
