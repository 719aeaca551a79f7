import FlowOpt.Proofs.Graph.Search

/-!
# Edges in post-order

In post-order an edge from a node to one behind it is part of a way back. So without a way back the
reverse lists every node in front of its successors.
-/

namespace FlowOpt.Digraph

variable {α : Type} {g : Digraph α} {start v : Nat}

/-- The white-path argument: when a node is left, all its successors were met. Those that are not
left yet are on the way to it. -/
theorem pairwise_postorder_explore (met : Finset Nat) (nodes : List Nat) :
    (g.explore met nodes).postorder.Pairwise fun u v => v ∈ g.succs u → g.Reachable v u := by
  induction met, nodes using explore.induct g with
  | case1 met => simp [explore_nil, Forest.postorder]
  | case2 met w nodes hw below ihb ihr =>
    have hrest : ∀ v ∈ (g.explore (insert w met ∪ below.nodes) nodes).postorder,
        v < g.size ∧ ¬ (v ∈ insert w met ∨ v ∈ below.nodes) := fun v hv => by
      rw [← Finset.mem_union]
      exact not_mem_of_mem_explore _ _ v (Forest.mem_postorder.1 hv)
    rw [explore_new hw.1 hw.2, Forest.postorder, List.pairwise_append, List.pairwise_cons]
    refine ⟨ihb, ⟨fun v hv hs => ?_, ihr⟩, fun u hu v hv hs => ?_⟩
    · obtain ⟨hlt, hn⟩ := hrest v hv
      exact absurd (mem_explore_of_mem _ _ v hs hlt) hn
    · rw [Forest.mem_postorder] at hu
      rcases List.mem_cons.1 hv with rfl | hv
      · exact explore_sound (fun _ _ h hx hlt => h.step hx hlt) _ _
          (fun x hx hlt => (Reachable.of_lt hw.1).step hx hlt) u hu
      · obtain ⟨hlt, hn⟩ := hrest v hv
        exact absurd (mem_explore_of_mem_succs _ _ u hu v hs hlt) hn
  | case3 met w nodes hw ih => rwa [explore_old hw]

theorem pairwise_postorder (g : Digraph α) (start : Nat) :
    (g.postorder start).Pairwise fun u v => v ∈ g.succs u → g.Reachable v u := by
  rw [postorder_eq]
  exact pairwise_postorder_explore _ _

theorem sublist_pair_or {l : List Nat} {u : Nat} (hu : u ∈ l) (hv : v ∈ l) (hne : v ≠ u) :
    [u, v].Sublist l ∨ [v, u].Sublist l := by
  obtain ⟨s, t, rfl⟩ := List.append_of_mem hu
  rcases List.mem_append.1 hv with hv | hv
  · exact .inr ((List.singleton_sublist.2 hv).append
      (List.singleton_sublist.2 List.mem_cons_self))
  · have ht : v ∈ t := (List.mem_cons.1 hv).resolve_left hne
    exact .inl (((List.singleton_sublist.2 ht).cons_cons u).trans (List.sublist_append_right _ _))

/-- Where nothing that is reached leads back to itself, a node stands in front of its successors. -/
theorem sublist_reversePostorder (h : ∀ v, g.Reachable start v → ¬ g.LeadsTo v v) {u : Nat}
    (hu : g.Reachable start u) (hs : v ∈ g.succs u) (hlt : v < g.size) :
    [u, v].Sublist (g.reversePostorder start) := by
  have hv : g.Reachable start v := hu.step hs hlt
  have hback : ¬ g.Reachable v u := fun hr => h v hv ⟨u, hr, hs⟩
  have hne : v ≠ u := by
    rintro rfl
    exact hback (.of_lt hlt)
  have hnot : ¬ [u, v].Sublist (g.postorder start) := fun hsub =>
    hback (List.pairwise_iff_forall_sublist.1 (pairwise_postorder g start) hsub hs)
  have hpair := (sublist_pair_or (mem_postorder.2 hu) (mem_postorder.2 hv) hne).resolve_left hnot
  simpa [reversePostorder] using hpair.reverse

/-- The search with frames ends and lists the depth-first post-order. It, the search with a list and
the set of what is reached have just the nodes that the start leads to, each once. In post-order an
edge to a node further on is part of a way back, and where there is no way back the reverse is a
topological order. -/
theorem search_orders (g : Digraph α) (start : Nat) :
    g.SearchesEnd start ∧
    g.postorder start = (g.depthFirst start).postorder ∧
    ((g.postorder start).Nodup ∧ ∀ v, v ∈ g.postorder start ↔ g.Reachable start v) ∧
    ((g.dfs start).Nodup ∧ ∀ v, v ∈ g.dfs start ↔ g.Reachable start v) ∧
    ((g.reachable start).members.Nodup ∧
      ∀ v, v ∈ (g.reachable start).members ↔ g.Reachable start v) ∧
    (g.postorder start).Pairwise (fun u v => v ∈ g.succs u → g.Reachable v u) ∧
    ((∀ v, g.Reachable start v → ¬ g.LeadsTo v v) →
      ∀ u v, g.Reachable start u → v ∈ g.succs u → v < g.size →
        [u, v].Sublist (g.reversePostorder start)) := by
  refine ⟨searchesEnd g start, postorder_eq g start,
    ⟨nodup_postorder g start, fun v => mem_postorder⟩, ⟨nodup_dfs g start, fun v => mem_dfs⟩,
    ⟨BitSet.nodup_members _, fun v => ?_⟩, pairwise_postorder g start,
    fun h u v hu hs hlt => sublist_reversePostorder h hu hs hlt⟩
  rw [(tidy_reachable g start).mem_members, mem_reachable]

/-- Of two ways that meet the later one comes first. -/
example : (⟨#[(), (), (), ()], #[[1, 2], [3], [3], []], #[[], [0], [0], [1, 2]], 4⟩ :
    Digraph Unit).reversePostorder 0 = [0, 2, 1, 3] := by
  decide +kernel

end FlowOpt.Digraph
