import Mathlib
import FlowOpt.Graph.Digraph

/-!
# Adjacency

Adding nodes and edges keeps a graph in order: both directions list the same edges, between nodes
of the graph and none twice. A graph made of nodes and edges has exactly these.
-/

namespace FlowOpt.Digraph

variable {α : Type} (g : Digraph α)

def Symmetric : Prop := ∀ v w, w ∈ g.succs v ↔ v ∈ g.preds w

structure WellFormed : Prop where
  outgoing_size : g.outgoing.size = g.size
  incoming_size : g.incoming.size = g.size
  symmetric : g.Symmetric
  succs_lt : ∀ v w, w ∈ g.succs v → v < g.size ∧ w < g.size
  succs_nodup : ∀ v, (g.succs v).Nodup
  preds_nodup : ∀ v, (g.preds v).Nodup

variable {g} {g' : Digraph α} {s t v w : Nat}

theorem WellFormed.pred_lt (h : g.WellFormed) (hw : w ∈ g.preds v) : w < g.size :=
  (h.succs_lt w v ((h.symmetric w v).2 hw)).1

theorem empty_wellFormed : (empty : Digraph α).WellFormed where
  outgoing_size := rfl
  incoming_size := rfl
  symmetric v w := by simp [succs, preds, empty]
  succs_lt v w h := by simp [succs, empty] at h
  succs_nodup v := by simp [succs, empty]
  preds_nodup v := by simp [preds, empty]

theorem push_nil_getD (a : Array (List Nat)) (v : Nat) :
    ((a.push [])[v]?).getD [] = (a[v]?).getD [] := by
  rw [Array.getElem?_push]
  split
  · next h => simp [h]
  · rfl

@[simp] theorem succs_addNode (a : α) : (g.addNode a).succs v = g.succs v := push_nil_getD _ _

@[simp] theorem preds_addNode (a : α) : (g.addNode a).preds v = g.preds v := push_nil_getD _ _

theorem WellFormed.addNode (h : g.WellFormed) (a : α) : (g.addNode a).WellFormed where
  outgoing_size := by simpa [Digraph.addNode, size] using h.outgoing_size
  incoming_size := by simpa [Digraph.addNode, size] using h.incoming_size
  symmetric v w := by simpa using h.symmetric v w
  succs_lt v w hw := by
    have hlt := h.succs_lt v w (by simpa using hw)
    simp [Digraph.addNode, size] at hlt ⊢
    omega
  succs_nodup v := by simpa using h.succs_nodup v
  preds_nodup v := by simpa using h.preds_nodup v

theorem modify_append_getD (a : Array (List Nat)) (i j v : Nat) (hi : i < a.size) :
    ((a.modify i (· ++ [j]))[v]?).getD [] =
      if v = i then (a[v]?).getD [] ++ [j] else (a[v]?).getD [] := by
  rw [Array.getElem?_modify]
  by_cases h : i = v
  · subst h
    simp [hi]
  · rw [if_neg h, if_neg (Ne.symm h)]

def withEdge (g : Digraph α) (s t : Nat) : Digraph α :=
  { g with
    outgoing := g.outgoing.modify s (· ++ [t])
    incoming := g.incoming.modify t (· ++ [s])
    edgeCount := g.edgeCount + 1 }

@[simp] theorem size_withEdge (g : Digraph α) (s t : Nat) : (g.withEdge s t).size = g.size := rfl

/-- All that adding an edge can come to. -/
theorem addEdge_cases (g : Digraph α) (s t : Nat) :
    (¬ s < g.size ∧ g.addEdge s t = .error (.missingNode .source s g.size)) ∨
    (¬ t < g.size ∧ g.addEdge s t = .error (.missingNode .target t g.size)) ∨
    (s < g.size ∧ t < g.size ∧ t ∈ g.succs s ∧ g.addEdge s t = .ok (g, false)) ∨
    (s < g.size ∧ t < g.size ∧ t ∉ g.succs s ∧ g.addEdge s t = .ok (g.withEdge s t, true)) := by
  by_cases hs : s < g.size
  · by_cases ht : t < g.size
    · by_cases hmem : t ∈ g.succs s
      · refine .inr (.inr (.inl ⟨hs, ht, hmem, ?_⟩))
        simp [addEdge, contains, hasEdge, hs, ht, hmem]
      · refine .inr (.inr (.inr ⟨hs, ht, hmem, ?_⟩))
        simp [addEdge, contains, hasEdge, hs, ht, hmem, withEdge]
    · exact .inr (.inl ⟨ht, by simp [addEdge, contains, hs, ht]⟩)
  · exact .inl ⟨hs, by simp [addEdge, contains, hs]⟩

theorem WellFormed.succs_withEdge (h : g.WellFormed) (hs : s < g.size) (t v : Nat) :
    (g.withEdge s t).succs v = if v = s then g.succs v ++ [t] else g.succs v :=
  modify_append_getD _ _ _ _ (h.outgoing_size ▸ hs)

theorem WellFormed.preds_withEdge (h : g.WellFormed) (ht : t < g.size) (s v : Nat) :
    (g.withEdge s t).preds v = if v = t then g.preds v ++ [s] else g.preds v :=
  modify_append_getD _ _ _ _ (h.incoming_size ▸ ht)

theorem WellFormed.mem_succs_withEdge (h : g.WellFormed) (hs : s < g.size) :
    w ∈ (g.withEdge s t).succs v ↔ w ∈ g.succs v ∨ (v = s ∧ w = t) := by
  rw [h.succs_withEdge hs]
  split
  · next hv => simp [hv]
  · next hv => simp [hv]

theorem WellFormed.withEdge (h : g.WellFormed) (hs : s < g.size) (ht : t < g.size)
    (hnew : t ∉ g.succs s) : (g.withEdge s t).WellFormed where
  outgoing_size := by simpa [Digraph.withEdge, size] using h.outgoing_size
  incoming_size := by simpa [Digraph.withEdge, size] using h.incoming_size
  symmetric v w := by
    rw [h.mem_succs_withEdge hs, h.preds_withEdge ht, h.symmetric v w]
    split
    · next hw => simp [hw]
    · next hw => simp [hw]
  succs_lt v w hw := by
    rcases (h.mem_succs_withEdge hs).1 hw with hw | ⟨rfl, rfl⟩
    · exact h.succs_lt v w hw
    · exact ⟨hs, ht⟩
  succs_nodup v := by
    rw [h.succs_withEdge hs]
    split
    · next hv =>
      refine (h.succs_nodup v).append (List.nodup_singleton t) ?_
      simpa [hv] using hnew
    · exact h.succs_nodup v
  preds_nodup v := by
    have hnew' : s ∉ g.preds t := fun hp => hnew ((h.symmetric s t).2 hp)
    rw [h.preds_withEdge ht]
    split
    · next hv =>
      refine (h.preds_nodup v).append (List.nodup_singleton s) ?_
      simpa [hv] using hnew'
    · exact h.preds_nodup v

theorem WellFormed.addEdge (h : g.WellFormed) {b : Bool} (he : g.addEdge s t = .ok (g', b)) :
    g'.WellFormed ∧ g'.nodes = g.nodes ∧ s < g.size ∧ t < g.size ∧
      ∀ v w, w ∈ g'.succs v ↔ w ∈ g.succs v ∨ (v = s ∧ w = t) := by
  rcases addEdge_cases g s t with ⟨-, heq⟩ | ⟨-, heq⟩ | ⟨hs, ht, hold, heq⟩ | ⟨hs, ht, hnew, heq⟩
  · rw [heq] at he
    cases he
  · rw [heq] at he
    cases he
  · obtain ⟨rfl, -⟩ := Prod.mk.inj (Except.ok.inj (heq.symm.trans he))
    refine ⟨h, rfl, hs, ht, fun v w => ⟨.inl, fun hvw => hvw.elim id ?_⟩⟩
    rintro ⟨rfl, rfl⟩
    exact hold
  · obtain ⟨rfl, -⟩ := Prod.mk.inj (Except.ok.inj (heq.symm.trans he))
    exact ⟨h.withEdge hs ht hnew, rfl, hs, ht, fun v w => h.mem_succs_withEdge hs⟩

theorem WellFormed.foldl_addNode (h : g.WellFormed) (nodes : List α) :
    (nodes.foldl Digraph.addNode g).WellFormed ∧
      (nodes.foldl Digraph.addNode g).nodes = g.nodes ++ nodes.toArray ∧
      ∀ v, (nodes.foldl Digraph.addNode g).succs v = g.succs v := by
  induction nodes generalizing g with
  | nil => exact ⟨h, by simp, fun _ => rfl⟩
  | cons a nodes ih =>
    obtain ⟨hw, hn, hs⟩ := ih (h.addNode a)
    refine ⟨hw, ?_, fun v => (hs v).trans (succs_addNode a)⟩
    rw [List.foldl_cons, hn]
    simp [Digraph.addNode]

def join (g : Digraph α) (e : Nat × Nat) : Except Error (Digraph α) :=
  (g.addEdge e.1 e.2).map (·.1)

theorem ofEdges_eq (nodes : List α) (edges : List (Nat × Nat)) :
    ofEdges nodes edges = edges.foldlM join (nodes.foldl addNode empty) := rfl

theorem WellFormed.foldlM_join (h : g.WellFormed) {edges : List (Nat × Nat)}
    (he : edges.foldlM join g = .ok g') :
    g'.WellFormed ∧ g'.nodes = g.nodes ∧ (∀ e ∈ edges, e.1 < g.size ∧ e.2 < g.size) ∧
      ∀ v w, w ∈ g'.succs v ↔ w ∈ g.succs v ∨ (v, w) ∈ edges := by
  induction edges generalizing g with
  | nil =>
    obtain rfl : g = g' := Except.ok.inj he
    exact ⟨h, rfl, by simp, by simp⟩
  | cons e edges ih =>
    obtain ⟨s, t⟩ := e
    rw [List.foldlM_cons] at he
    cases hadd : g.addEdge s t with
    | error e => simp [join, hadd, Except.map, bind, Except.bind] at he
    | ok r =>
      obtain ⟨mid, b⟩ := r
      obtain ⟨hmid, hnodes, hs, ht, hmem⟩ := h.addEdge hadd
      have he' : edges.foldlM join mid = .ok g' := by
        simpa [join, hadd, Except.map, bind, Except.bind] using he
      have hsize : mid.size = g.size := by simp [size, hnodes]
      obtain ⟨hw, hn, hlt, hmem'⟩ := ih hmid he'
      refine ⟨hw, hn.trans hnodes, fun e he => ?_, fun v w => ?_⟩
      · rcases List.mem_cons.1 he with rfl | he
        · exact ⟨hs, ht⟩
        · exact hsize ▸ hlt e he
      · rw [hmem', hmem, List.mem_cons, or_assoc]
        simp [Prod.ext_iff]

/-- A graph made of nodes and edges has these nodes and exactly these edges. -/
theorem ofEdges_ok {nodes : List α} {edges : List (Nat × Nat)}
    (h : ofEdges nodes edges = .ok g) :
    g.WellFormed ∧ g.nodes = nodes.toArray ∧ ∀ v w, w ∈ g.succs v ↔ (v, w) ∈ edges := by
  obtain ⟨hw, hn, hs⟩ := empty_wellFormed.foldl_addNode nodes
  obtain ⟨hg, hnodes, _, hmem⟩ := hw.foldlM_join (ofEdges_eq nodes edges ▸ h)
  refine ⟨hg, by rw [hnodes, hn]; simp [empty], fun v w => ?_⟩
  rw [hmem, hs]
  simp [succs, empty]

theorem addEdge_isOk (hs : s < g.size) (ht : t < g.size) : ∃ r, g.addEdge s t = .ok r := by
  unfold addEdge
  rw [if_neg (by simp [contains, hs]), if_neg (by simp [contains, ht])]
  split
  · exact ⟨_, rfl⟩
  · exact ⟨_, rfl⟩

theorem WellFormed.foldlM_join_isOk (h : g.WellFormed) {edges : List (Nat × Nat)}
    (he : ∀ e ∈ edges, e.1 < g.size ∧ e.2 < g.size) : ∃ g', edges.foldlM join g = .ok g' := by
  induction edges generalizing g with
  | nil => exact ⟨g, rfl⟩
  | cons e edges ih =>
    obtain ⟨hs, ht⟩ := he e List.mem_cons_self
    obtain ⟨⟨mid, isNew⟩, hadd⟩ := addEdge_isOk hs ht
    obtain ⟨hmid, hnodes, -⟩ := h.addEdge hadd
    have hsize : mid.size = g.size := by rw [size, hnodes, size]
    obtain ⟨g', hg'⟩ := ih hmid fun e' he' => hsize ▸ he e' (List.mem_cons_of_mem _ he')
    refine ⟨g', ?_⟩
    rw [List.foldlM_cons, join, hadd]
    exact hg'

theorem ofEdges_isOk {nodes : List α} {edges : List (Nat × Nat)}
    (he : ∀ e ∈ edges, e.1 < nodes.length ∧ e.2 < nodes.length) :
    ∃ g, ofEdges nodes edges = .ok g := by
  obtain ⟨hw, hnodes, -⟩ := empty_wellFormed.foldl_addNode nodes
  have hsize : (nodes.foldl addNode empty).size = nodes.length := by
    rw [size, hnodes]
    simp [empty]
  rw [ofEdges_eq]
  exact hw.foldlM_join_isOk fun e hm => hsize ▸ he e hm

theorem WellFormed.reverse (h : g.WellFormed) :
    g.reverse.WellFormed where
  outgoing_size := h.incoming_size
  incoming_size := h.outgoing_size
  symmetric v w := (h.symmetric w v).symm
  succs_lt v w hw := (h.succs_lt w v ((h.symmetric w v).2 hw)).symm
  succs_nodup := h.preds_nodup
  preds_nodup := h.succs_nodup

end FlowOpt.Digraph
