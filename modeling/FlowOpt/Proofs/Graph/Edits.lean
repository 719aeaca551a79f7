import FlowOpt.Proofs.Graph.Digraph

/-!
# Graphs under edits

Nodes and edges are added, edges are removed, and all edges are turned round. Every edit keeps the
two directions in agreement with each other and with the number of edges. An edge that is new stands
at the end of both lists, so that removing it gives back the graph as it was.
-/

namespace FlowOpt.Digraph

variable {α : Type} {g : Digraph α} {s t v w : Nat}

structure Counted (g : Digraph α) : Prop extends g.WellFormed where
  count_succs : g.edgeCount = ∑ v ∈ Finset.range g.size, (g.succs v).length
  count_preds : g.edgeCount = ∑ v ∈ Finset.range g.size, (g.preds v).length

theorem empty_counted : (empty : Digraph α).Counted where
  toWellFormed := empty_wellFormed
  count_succs := rfl
  count_preds := rfl

theorem WellFormed.succs_eq_nil (h : g.WellFormed) (hv : ¬ v < g.size) : g.succs v = [] := by
  refine List.eq_nil_iff_forall_not_mem.2 fun w hw => ?_
  exact hv (h.succs_lt v w hw).1

theorem WellFormed.preds_eq_nil (h : g.WellFormed) (hv : ¬ v < g.size) : g.preds v = [] :=
  h.reverse.succs_eq_nil hv

theorem Counted.reverse (h : g.Counted) : g.reverse.Counted where
  toWellFormed := h.toWellFormed.reverse
  count_succs := h.count_preds
  count_preds := h.count_succs

theorem Counted.addNode (h : g.Counted) (a : α) : (g.addNode a).Counted := by
  have hsize : (g.addNode a).size = g.size + 1 := by simp [Digraph.addNode, size]
  refine ⟨h.toWellFormed.addNode a, ?_, ?_⟩
  · rw [hsize, Finset.sum_range_succ]
    simp only [succs_addNode, h.succs_eq_nil (Nat.lt_irrefl _)]
    exact h.count_succs
  · rw [hsize, Finset.sum_range_succ]
    simp only [preds_addNode, h.preds_eq_nil (Nat.lt_irrefl _)]
    exact h.count_preds

theorem sum_length_succ {before after : Nat → List Nat} {n : Nat} (hs : s < n)
    (h : ∀ v, (after v).length = (before v).length + if v = s then 1 else 0) :
    ∑ v ∈ Finset.range n, (after v).length = ∑ v ∈ Finset.range n, (before v).length + 1 := by
  simp only [h, Finset.sum_add_distrib, Finset.sum_ite_eq', Finset.mem_range, hs, if_true]

theorem Counted.withEdge (h : g.Counted) (hs : s < g.size) (ht : t < g.size)
    (hnew : t ∉ g.succs s) : (g.withEdge s t).Counted := by
  refine ⟨h.toWellFormed.withEdge hs ht hnew, ?_, ?_⟩
  · have hsum : ∑ v ∈ Finset.range g.size, ((g.withEdge s t).succs v).length =
        ∑ v ∈ Finset.range g.size, (g.succs v).length + 1 :=
      sum_length_succ hs fun v => by
        rw [h.succs_withEdge hs]
        split <;> simp
    rw [size_withEdge, hsum, ← h.count_succs]
    rfl
  · have hsum : ∑ v ∈ Finset.range g.size, ((g.withEdge s t).preds v).length =
        ∑ v ∈ Finset.range g.size, (g.preds v).length + 1 :=
      sum_length_succ ht fun v => by
        rw [h.preds_withEdge ht]
        split <;> simp
    rw [size_withEdge, hsum, ← h.count_preds]
    rfl

/-! ## Removing an edge -/

def withoutEdge (g : Digraph α) (s t : Nat) : Digraph α :=
  { g with
    outgoing := g.outgoing.modify s (·.erase t)
    incoming := g.incoming.modify t (·.filter (· != s))
    edgeCount := g.edgeCount - 1 }

@[simp] theorem size_withoutEdge (g : Digraph α) (s t : Nat) :
    (g.withoutEdge s t).size = g.size := rfl

theorem removeEdge_cases (g : Digraph α) (s t : Nat) :
    (t ∉ g.succs s ∧ g.removeEdge s t = (g, false)) ∨
    (t ∈ g.succs s ∧ g.removeEdge s t = (g.withoutEdge s t, true)) := by
  by_cases hmem : t ∈ g.succs s
  · exact .inr ⟨hmem, by simp [removeEdge, hasEdge, hmem, withoutEdge]⟩
  · exact .inl ⟨hmem, by simp [removeEdge, hasEdge, hmem]⟩

theorem modify_getD (a : Array (List Nat)) (i v : Nat) {f : List Nat → List Nat} (hf : f [] = []) :
    ((a.modify i f)[v]?).getD [] = if v = i then f ((a[v]?).getD []) else (a[v]?).getD [] := by
  rw [Array.getElem?_modify]
  by_cases h : i = v
  · subst h
    cases a[i]? <;> simp [hf]
  · rw [if_neg h, if_neg (Ne.symm h)]

theorem succs_withoutEdge (g : Digraph α) (s t v : Nat) :
    (g.withoutEdge s t).succs v = if v = s then (g.succs v).erase t else g.succs v :=
  modify_getD _ _ _ rfl

theorem preds_withoutEdge (g : Digraph α) (s t v : Nat) :
    (g.withoutEdge s t).preds v = if v = t then (g.preds v).filter (· != s) else g.preds v :=
  modify_getD _ _ _ rfl

theorem WellFormed.mem_succs_withoutEdge (h : g.WellFormed) :
    w ∈ (g.withoutEdge s t).succs v ↔ w ∈ g.succs v ∧ ¬ (v = s ∧ w = t) := by
  rw [succs_withoutEdge]
  split
  · next hv => rw [(h.succs_nodup v).mem_erase_iff]; simp [hv, and_comm]
  · next hv => simp [hv]

theorem mem_preds_withoutEdge :
    v ∈ (g.withoutEdge s t).preds w ↔ v ∈ g.preds w ∧ ¬ (v = s ∧ w = t) := by
  rw [preds_withoutEdge]
  split
  · next hw => simp [hw]
  · next hw => simp [hw]

theorem WellFormed.withoutEdge (h : g.WellFormed) : (g.withoutEdge s t).WellFormed where
  outgoing_size := by simpa [Digraph.withoutEdge, size] using h.outgoing_size
  incoming_size := by simpa [Digraph.withoutEdge, size] using h.incoming_size
  symmetric v w := by
    rw [h.mem_succs_withoutEdge, mem_preds_withoutEdge, h.symmetric v w]
  succs_lt v w hw := h.succs_lt v w (h.mem_succs_withoutEdge.1 hw).1
  succs_nodup v := by
    rw [succs_withoutEdge]
    split
    · exact (h.succs_nodup v).erase t
    · exact h.succs_nodup v
  preds_nodup v := by
    rw [preds_withoutEdge]
    split
    · exact (h.preds_nodup v).filter _
    · exact h.preds_nodup v

theorem Counted.withoutEdge (h : g.Counted) (hmem : t ∈ g.succs s) :
    (g.withoutEdge s t).Counted := by
  obtain ⟨hs, ht⟩ := h.succs_lt s t hmem
  have hpred : s ∈ g.preds t := (h.symmetric s t).1 hmem
  refine ⟨h.toWellFormed.withoutEdge, ?_, ?_⟩
  · have hsum : ∑ v ∈ Finset.range g.size, (g.succs v).length =
        ∑ v ∈ Finset.range g.size, ((g.withoutEdge s t).succs v).length + 1 :=
      sum_length_succ hs fun v => by
        rw [succs_withoutEdge]
        split
        · next hv => exact (List.length_erase_add_one (hv ▸ hmem)).symm
        · rfl
    have hcount := h.count_succs
    rw [size_withoutEdge]
    change g.edgeCount - 1 = _
    omega
  · have hsum : ∑ v ∈ Finset.range g.size, (g.preds v).length =
        ∑ v ∈ Finset.range g.size, ((g.withoutEdge s t).preds v).length + 1 :=
      sum_length_succ ht fun v => by
        rw [preds_withoutEdge]
        split
        · next hv =>
          rw [← (h.preds_nodup v).erase_eq_filter s]
          exact (List.length_erase_add_one (hv ▸ hpred)).symm
        · rfl
    have hcount := h.count_preds
    rw [size_withoutEdge]
    change g.edgeCount - 1 = _
    omega

theorem modify_modify_eq (a : Array (List Nat)) (i : Nat) {f f' : List Nat → List Nat}
    (h : ∀ l, a[i]? = some l → f' (f l) = l) : (a.modify i f).modify i f' = a := by
  apply Array.ext_getElem?
  intro j
  rw [Array.getElem?_modify, Array.getElem?_modify]
  by_cases hj : i = j
  · subst hj
    cases hl : a[i]? with
    | none => simp
    | some l => simp [h l hl]
  · simp only [if_neg hj]

/-- What was put at the end of two lists that did not have it is what is taken out of them. -/
theorem WellFormed.withoutEdge_withEdge (h : g.WellFormed) (hnew : t ∉ g.succs s) :
    (g.withEdge s t).withoutEdge s t = g := by
  have hout : (g.outgoing.modify s (· ++ [t])).modify s (·.erase t) = g.outgoing := by
    refine modify_modify_eq _ _ fun l hl => ?_
    have hlist : g.succs s = l := by rw [succs, hl, Option.getD_some]
    rw [List.erase_append_right _ (hlist ▸ hnew), List.erase_cons_head, List.append_nil]
  have hin : (g.incoming.modify t (· ++ [s])).modify t (·.filter (· != s)) = g.incoming := by
    refine modify_modify_eq _ _ fun l hl => ?_
    have hlist : g.preds t = l := by rw [preds, hl, Option.getD_some]
    have hpred : s ∉ l := fun hp => hnew ((h.symmetric s t).2 (hlist ▸ hp))
    have hkeep : l.filter (· != s) = l := List.filter_eq_self.2 fun v hv => by
      rw [bne_iff_ne]
      rintro rfl
      exact hpred hv
    simp [List.filter_append, hkeep]
  unfold Digraph.withoutEdge Digraph.withEdge
  rw [hout, hin]
  rfl

/-! ## Rows of edits -/

inductive Edit (α : Type)
  | addNode (a : α)
  | addEdge (source target : Nat)
  | removeEdge (source target : Nat)
  | reverse

inductive Edit.Reply
  | node (v : Nat)
  | flag (b : Bool)
  | refused (e : Error)
  | done
  deriving DecidableEq

def perform (g : Digraph α) : Edit α → Edit.Reply × Digraph α
  | .addNode a => (.node g.size, g.addNode a)
  | .addEdge source target =>
    match g.addEdge source target with
    | .ok (next, isNew) => (.flag isNew, next)
    | .error e => (.refused e, g)
  | .removeEdge source target =>
    (.flag (g.removeEdge source target).2, (g.removeEdge source target).1)
  | .reverse => (.done, g.reverse)

def edit (g : Digraph α) (edits : List (Edit α)) : Digraph α :=
  edits.foldl (fun g edit => (g.perform edit).2) g

theorem Counted.perform (h : g.Counted) (edit : Edit α) : (g.perform edit).2.Counted := by
  cases edit with
  | addNode a => exact h.addNode a
  | addEdge source target =>
    rcases addEdge_cases g source target with ⟨-, heq⟩ | ⟨-, heq⟩ | ⟨-, -, -, heq⟩ |
      ⟨hs, ht, hnew, heq⟩
    · simpa only [Digraph.perform, heq] using h
    · simpa only [Digraph.perform, heq] using h
    · simpa only [Digraph.perform, heq] using h
    · simpa only [Digraph.perform, heq] using h.withEdge hs ht hnew
  | removeEdge source target =>
    rcases removeEdge_cases g source target with ⟨-, heq⟩ | ⟨hmem, heq⟩
    · simpa only [Digraph.perform, heq] using h
    · simpa only [Digraph.perform, heq] using h.withoutEdge hmem
  | reverse => exact h.reverse

theorem Counted.edit (h : g.Counted) (edits : List (Edit α)) : (g.edit edits).Counted := by
  induction edits generalizing g with
  | nil => exact h
  | cons edit edits ih => exact ih (h.perform edit)

theorem Counted.perform_addEdge (h : g.Counted) (s t : Nat) :
    ((g.perform (.addEdge s t)).1 = .flag true ↔ s < g.size ∧ t < g.size ∧ t ∉ g.succs s) ∧
    ((g.perform (.addEdge s t)).1 = .flag true →
      (g.perform (.addEdge s t)).2.perform (.removeEdge s t) = (.flag true, g)) ∧
    ((g.perform (.addEdge s t)).1 ≠ .flag true → (g.perform (.addEdge s t)).2 = g) := by
  rcases addEdge_cases g s t with ⟨hs, heq⟩ | ⟨ht, heq⟩ | ⟨-, -, hold, heq⟩ | ⟨hs, ht, hnew, heq⟩
  · simp [Digraph.perform, heq, hs]
  · simp [Digraph.perform, heq, ht]
  · simp [Digraph.perform, heq, hold]
  · have hmem : t ∈ (g.withEdge s t).succs s :=
      (h.mem_succs_withEdge hs).2 (.inr ⟨rfl, rfl⟩)
    have hback : (g.withEdge s t).removeEdge s t = (g, true) := by
      rcases removeEdge_cases (g.withEdge s t) s t with ⟨hnot, -⟩ | ⟨-, hremove⟩
      · exact absurd hmem hnot
      · rw [hremove, h.withoutEdge_withEdge hnew]
    simp [Digraph.perform, heq, hs, ht, hnew, hback]

/-- After any row of edits the two directions list the same edges, between nodes of the graph, none
of them twice, and as many as are counted. An edge is added just if both its nodes are there and it
is not; removing it next gives the graph back, and if it is not added the graph stays. Turning the
edges round twice gives the graph back. -/
theorem edits_keep_order (edits : List (Edit α)) :
    let g := (empty : Digraph α).edit edits
    (∀ v w, w ∈ g.succs v ↔ v ∈ g.preds w) ∧
    (∀ v, (g.succs v).Nodup ∧ (g.preds v).Nodup) ∧
    (∀ v w, w ∈ g.succs v ∨ w ∈ g.preds v → v < g.size ∧ w < g.size) ∧
    g.edgeCount = ∑ v ∈ Finset.range g.size, (g.succs v).length ∧
    g.edgeCount = ∑ v ∈ Finset.range g.size, (g.preds v).length ∧
    (∀ s t,
      ((g.perform (.addEdge s t)).1 = .flag true ↔ s < g.size ∧ t < g.size ∧ t ∉ g.succs s) ∧
      ((g.perform (.addEdge s t)).1 = .flag true →
        (g.perform (.addEdge s t)).2.perform (.removeEdge s t) = (.flag true, g)) ∧
      ((g.perform (.addEdge s t)).1 ≠ .flag true → (g.perform (.addEdge s t)).2 = g)) ∧
    ((g.perform .reverse).2.perform .reverse).2 = g := by
  intro g
  have h : g.Counted := empty_counted.edit edits
  refine ⟨h.symmetric, fun v => ⟨h.succs_nodup v, h.preds_nodup v⟩, fun v w hw => ?_,
    h.count_succs, h.count_preds, h.perform_addEdge, rfl⟩
  rcases hw with hw | hw
  · exact h.succs_lt v w hw
  · exact (h.succs_lt w v ((h.symmetric w v).2 hw)).symm

/-- A loop at a node stands in both of its lists. -/
example : ((empty : Digraph Unit).edit [.addNode (), .addNode (), .addEdge 0 0, .addEdge 0 1,
    .reverse, .removeEdge 1 0]).preds 0 = [0] := by
  decide

end FlowOpt.Digraph
