import FlowOpt.Proofs.Graph.DominatorSets

/-!
# The order of the search with a list

The search with a list meets ahead, so its order is that of the trees that arise so. It is the
depth-first pre-order if no successor of a node leads to one behind it unless by way of a dominator
of the node: then nothing that waits is met by what is listed before it.
-/

namespace FlowOpt.Digraph

variable {α : Type} {g : Digraph α} {listed : Finset Nat} {work : List Nat} {start v : Nat}

variable (g) in
/-- No successor of a node that is reached leads to one behind it unless by way of a dominator of
the node. -/
def SuccessorsApart (start : Nat) : Prop :=
  ∀ v, g.Reachable start v → (g.succs v).Pairwise fun a b =>
    ∀ p, g.Path a b p → ∃ u ∈ p, g.Dominates start u v

variable (g) in
/-- What waits behind what is listed: listed nodes lead to it, and none of it leads to what is
behind it unless by way of them. -/
structure Waits (start : Nat) (listed : Finset Nat) (work : List Nat) : Prop where
  reached : ∀ a ∈ work, ∃ p, g.Path start a p ∧ ∀ u ∈ p, u = a ∨ u ∈ listed
  apart : work.Pairwise fun a b => ∀ p, g.Path a b p → ∃ u ∈ p, u ∈ listed
  unlisted : ∀ a ∈ work, a ∉ listed

theorem Waits.lt (h : g.Waits start listed work) (hv : v ∈ work) : v < g.size := by
  obtain ⟨p, hp, -⟩ := h.reached v hv
  exact hp.lt

theorem Waits.dominators_listed {u : Nat} (h : g.Waits start listed (v :: work))
    (hu : g.Dominates start u v) : u ∈ insert v listed := by
  obtain ⟨p, hp, hlisted⟩ := h.reached v List.mem_cons_self
  exact Finset.mem_insert.2 (hlisted u (hu p hp))

theorem Waits.succs_not_waiting (h : g.Waits start listed (v :: work)) :
    ∀ x ∈ g.succs v, x ∉ work := by
  intro x hx hw
  obtain ⟨u, hu, hlisted⟩ := List.rel_of_pairwise_cons h.apart hw [v, x]
    ((Path.start (h.lt List.mem_cons_self)).step hx (h.lt (List.mem_cons_of_mem _ hw)))
  have hmem : u ∈ v :: work := by
    rcases List.mem_cons.1 hu with rfl | hu
    · exact List.mem_cons_self
    · exact List.mem_cons_of_mem _ (List.mem_singleton.1 hu ▸ hw)
  exact h.unlisted u hmem hlisted

theorem Waits.nodup (h : g.Waits start listed work) : work.Nodup := by
  refine h.apart.imp_of_mem fun {a b} ha _ hab => ?_
  rintro rfl
  obtain ⟨u, hu, hlisted⟩ := hab [a] (.start (h.lt ha))
  exact h.unlisted a ha (List.mem_singleton.1 hu ▸ hlisted)

/-- Listing a node puts its new successors in front, and what then waits is apart again. -/
theorem Waits.step (h : g.Waits start listed (v :: work)) (hg : g.SuccessorsApart start) :
    g.Waits start (insert v listed)
      ((g.succs v).filter (fun x => x < g.size ∧ x ∉ insert v listed) ++ work) := by
  have hsuccs : ∀ x ∈ (g.succs v).filter (fun x => x < g.size ∧ x ∉ insert v listed),
      x ∈ g.succs v ∧ x < g.size ∧ x ∉ insert v listed := fun x hx => by
    simpa only [List.mem_filter, decide_eq_true_eq] using hx
  have hmono : ∀ {u}, u ∈ listed → u ∈ insert v listed := Finset.mem_insert_of_mem
  have hv : v < g.size := h.lt List.mem_cons_self
  obtain ⟨p, hp, hlisted⟩ := h.reached v List.mem_cons_self
  refine ⟨fun a ha => ?_, List.pairwise_append.2 ⟨?_, ?_, ?_⟩, fun a ha => ?_⟩
  · rcases List.mem_append.1 ha with ha | ha
    · obtain ⟨ha, hlt, -⟩ := hsuccs a ha
      refine ⟨p ++ [a], hp.step ha hlt, fun u hu => ?_⟩
      rcases List.mem_append.1 hu with hu | hu
      · exact .inr (Finset.mem_insert.2 (hlisted u hu))
      · exact .inl (List.mem_singleton.1 hu)
    · obtain ⟨q, hq, hq'⟩ := h.reached a (List.mem_cons_of_mem _ ha)
      exact ⟨q, hq, fun u hu => (hq' u hu).imp_right hmono⟩
  · refine ((hg v ⟨p, hp⟩).sublist List.filter_sublist).imp fun hab q hq => ?_
    obtain ⟨u, hu, hdom⟩ := hab q hq
    exact ⟨u, hu, h.dominators_listed hdom⟩
  · exact h.apart.of_cons.imp fun hab q hq => (hab q hq).imp fun u hu => ⟨hu.1, hmono hu.2⟩
  · intro a ha b hb q hq
    -- The node leads to its successor, so it would lead to `b` by the same way.
    obtain ⟨u, hu, hul⟩ := List.rel_of_pairwise_cons h.apart hb _
      (hq.cons (hsuccs a ha).1 hv)
    rcases List.mem_cons.1 hu with rfl | hu
    · exact absurd hul (h.unlisted u List.mem_cons_self)
    · exact ⟨u, hu, hmono hul⟩
  · rcases List.mem_append.1 ha with hs | hw
    · exact (hsuccs a hs).2.2
    · rw [Finset.mem_insert, not_or]
      refine ⟨?_, h.unlisted a (List.mem_cons_of_mem _ hw)⟩
      rintro rfl
      exact (List.nodup_cons.1 h.nodup).1 hw

theorem Waits.fresh_eq (h : g.Waits start listed (v :: work)) (hg : g.SuccessorsApart start) :
    g.fresh (listed ∪ (v :: work).toFinset) (g.succs v) =
      (g.succs v).filter fun x => x < g.size ∧ x ∉ insert v listed := by
  have hsame : (g.succs v).filter (fun x => x < g.size ∧ x ∉ listed ∪ (v :: work).toFinset) =
      (g.succs v).filter fun x => x < g.size ∧ x ∉ insert v listed := by
    refine List.filter_congr fun x hx => ?_
    have hw := h.succs_not_waiting x hx
    rw [decide_eq_decide, Finset.mem_union, List.mem_toFinset, List.mem_cons, Finset.mem_insert]
    tauto
  rw [fresh, hsame]
  exact (List.nodup_append'.1 (h.step hg).nodup).1.dedup

/-- Nothing that waits is met before its turn, so both searches list the same. -/
theorem Waits.preorder_eq (h : g.Waits start listed work) (hg : g.SuccessorsApart start) :
    (g.exploreAhead (listed ∪ work.toFinset) work).preorder = (g.explore listed work).preorder := by
  induction hn : (Finset.range g.size \ (listed ∪ work.toFinset)).card + work.length
    using Nat.strong_induction_on generalizing listed work with
  | _ n ih =>
    cases work with
    | nil => rw [exploreAhead_nil, explore_nil]
    | cons v work =>
      have hnew := h.fresh_eq hg
      have hcard := card_fresh g (listed ∪ (v :: work).toFinset) (g.succs v)
      have hmet : listed ∪ (v :: work).toFinset ∪
            (g.fresh (listed ∪ (v :: work).toFinset) (g.succs v)).toFinset =
          insert v listed ∪
            (g.fresh (listed ∪ (v :: work).toFinset) (g.succs v) ++ work).toFinset := by
        ext x
        simp only [Finset.mem_union, List.mem_toFinset, List.mem_cons, List.mem_append,
          Finset.mem_insert]
        tauto
      have hstep := h.step hg
      rw [← hnew] at hstep
      rw [preorder_exploreAhead_cons, hmet, ih _ ?_ hstep rfl, hnew,
        preorder_explore_new (h.lt List.mem_cons_self) (h.unlisted v List.mem_cons_self),
        preorder_explore_append, preorder_explore_append, explore_filter (Finset.Subset.refl _)]
      rw [← hn, ← hmet, List.length_append, List.length_cons]
      omega

theorem preorder_searchAhead (hg : g.SuccessorsApart start) :
    (g.searchAhead start).preorder = (g.depthFirst start).preorder := by
  by_cases hlt : start < g.size
  · have hnew : g.fresh ∅ [start] = [start] := by simp [fresh, hlt]
    have hwaits : g.Waits start ∅ [start] := by
      refine ⟨fun a ha => ?_, List.pairwise_singleton _ _, fun a _ => Finset.notMem_empty a⟩
      obtain rfl := List.mem_singleton.1 ha
      exact ⟨[a], .start hlt, fun u hu => .inl (List.mem_singleton.1 hu)⟩
    have h := hwaits.preorder_eq hg
    rw [Finset.empty_union] at h
    rw [searchAhead, hnew, depthFirst]
    exact h
  · have hnew : g.fresh ∅ [start] = [] := by simp [fresh, hlt]
    rw [searchAhead, hnew, exploreAhead_nil, depthFirst_of_not_lt hlt]

/-- The search with a list gives the pre-order of the trees in which a node meets all its new
successors before the first of them is searched. If the successors of each node are apart, this is
the depth-first pre-order. -/
theorem dfs_order (g : Digraph α) (start : Nat) :
    g.dfs start = (g.searchAhead start).preorder ∧
      (g.SuccessorsApart start → g.dfs start = (g.depthFirst start).preorder) :=
  ⟨dfs_eq_preorder g start, fun hg => (dfs_eq_preorder g start).trans (preorder_searchAhead hg)⟩

def loopedDiamond : Digraph Unit where
  nodes := #[(), (), (), ()]
  outgoing := #[[1, 2], [3], [3], [0]]
  incoming := #[[3], [0], [0], [1, 2]]
  edgeCount := 5

theorem loopedDiamond_dfs : loopedDiamond.SuccessorsApart 0 ∧
    loopedDiamond.dfs 0 = (loopedDiamond.depthFirst 0).preorder ∧
    loopedDiamond.dfs 0 = [0, 1, 3, 2] := by
  have hpred : ∀ u < 4, 2 ∈ loopedDiamond.succs u → u = 0 := by decide
  have hsingle : ∀ v < 4, v ≠ 0 → (loopedDiamond.succs v).length = 1 := by decide
  have hapart : loopedDiamond.SuccessorsApart 0 := by
    intro v hv
    by_cases h0 : v = 0
    · subst h0
      refine List.pairwise_pair.2 fun p hp => ?_
      -- A way from 1 to 2 comes by 0, from where alone an edge leads to 2.
      cases hp with
      | step hq hw _ =>
        obtain rfl := hpred _ hq.lt hw
        exact ⟨0, List.mem_append_left _ hq.mem_last, .refl 0⟩
    · obtain ⟨w, hw⟩ := List.length_eq_one_iff.1 (hsingle v hv.lt h0)
      rw [hw]
      exact List.pairwise_singleton _ _
  exact ⟨hapart, (dfs_order loopedDiamond 0).2 hapart, by decide +kernel⟩

/-- A successor of the start waits behind another one that leads to it by way of a third node. -/
def shortcut : Digraph Unit where
  nodes := #[(), (), (), (), ()]
  outgoing := #[[1, 4], [2, 3], [4], [], []]
  incoming := #[[], [0], [1], [1], [0, 2]]
  edgeCount := 5

/-- Node 2 leads to 4, which was met when 0 was listed and waits behind 3. -/
theorem shortcut_not_preorder : shortcut.dfs 0 = [0, 1, 2, 3, 4] ∧
    (shortcut.depthFirst 0).preorder = [0, 1, 2, 4, 3] ∧
    shortcut.dfs 0 ≠ (shortcut.depthFirst 0).preorder := by
  have hdfs : shortcut.dfs 0 = [0, 1, 2, 3, 4] := by decide +kernel
  have hpre : (shortcut.depthFirst 0).preorder = [0, 1, 2, 4, 3] := by cbv
  refine ⟨hdfs, hpre, ?_⟩
  rw [hdfs, hpre]
  decide

end FlowOpt.Digraph
