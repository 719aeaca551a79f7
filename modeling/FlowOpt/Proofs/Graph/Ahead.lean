import FlowOpt.Proofs.Graph.Forest

/-!
# A search that meets ahead

Here all new successors of a node are met when the node is found, not when their turn comes. So they
are all roots of trees below it, even where an earlier one of them leads to a later one. What is
found was in the list or not met, and each of its successors was met before or is found too.
-/

namespace FlowOpt.Digraph

variable {α : Type} (g : Digraph α)

/-- The nodes of a list that were not met. Of a node that is there twice the last one counts. -/
def fresh (met : Finset Nat) (nodes : List Nat) : List Nat :=
  (nodes.filter fun v => v < g.size ∧ v ∉ met).dedup

variable {g} {met : Finset Nat} {nodes : List Nat} {v : Nat}

theorem mem_fresh : v ∈ g.fresh met nodes ↔ v ∈ nodes ∧ v < g.size ∧ v ∉ met := by
  simp [fresh]

theorem nodup_fresh (g : Digraph α) (met : Finset Nat) (nodes : List Nat) :
    (g.fresh met nodes).Nodup := List.nodup_dedup _

theorem fresh_cons (g : Digraph α) (met : Finset Nat) (v : Nat) (nodes : List Nat) :
    g.fresh met (v :: nodes) =
      if (v < g.size ∧ v ∉ met) ∧ v ∉ nodes then v :: g.fresh met nodes
      else g.fresh met nodes := by
  by_cases hv : v < g.size ∧ v ∉ met
  · have hmem : v ∈ (nodes.filter fun v => v < g.size ∧ v ∉ met) ↔ v ∈ nodes := by
      simpa using fun _ => hv
    rw [fresh, List.filter_cons_of_pos (by simpa using hv)]
    split
    · next h => exact List.dedup_cons_of_notMem (mt hmem.1 h.2)
    · next h => exact List.dedup_cons_of_mem (hmem.2 (by_contra fun hn => h ⟨hv, hn⟩))
  · rw [fresh, List.filter_cons_of_neg (by simpa using hv), if_neg fun h => hv h.1, fresh]

theorem card_fresh (g : Digraph α) (met : Finset Nat) (nodes : List Nat) :
    (Finset.range g.size \ (met ∪ (g.fresh met nodes).toFinset)).card +
      (g.fresh met nodes).length = (Finset.range g.size \ met).card := by
  have hsub : (g.fresh met nodes).toFinset ⊆ Finset.range g.size \ met := fun x hx => by
    rw [List.mem_toFinset, mem_fresh] at hx
    exact Finset.mem_sdiff.2 ⟨Finset.mem_range.2 hx.2.1, hx.2.2⟩
  have hsdiff : Finset.range g.size \ (met ∪ (g.fresh met nodes).toFinset) =
      (Finset.range g.size \ met) \ (g.fresh met nodes).toFinset := sdiff_sdiff_left.symm
  rw [hsdiff, ← List.toFinset_card_of_nodup (nodup_fresh g met nodes)]
  exact Finset.card_sdiff_add_card_eq_card hsub

variable (g)

/-- The trees below the nodes of a list, which are met already. Each first meets all its new
successors, and these are its trees. -/
def exploreAhead (met : Finset Nat) : List Nat → Forest
  | [] => .nil
  | v :: nodes =>
    let new := g.fresh met (g.succs v)
    let below := exploreAhead (met ∪ new.toFinset) new
    .cons v below (exploreAhead (met ∪ below.nodes) nodes)
termination_by nodes => (Finset.range g.size \ met).card + nodes.length
decreasing_by
  · have hcard := card_fresh g met (g.succs v)
    rw [List.length_cons]
    omega
  · have hmet : met ⊆ met ∪ below.nodes := Finset.subset_union_left
    have hcard := Finset.card_le_card (Finset.sdiff_subset_sdiff (le_refl (Finset.range g.size)) hmet)
    exact Nat.lt_succ_of_le (Nat.add_le_add_right hcard _)

def searchAhead (start : Nat) : Forest :=
  g.exploreAhead (g.fresh ∅ [start]).toFinset (g.fresh ∅ [start])

variable {g}

theorem exploreAhead_nil (g : Digraph α) (met : Finset Nat) : g.exploreAhead met [] = .nil := by
  rw [exploreAhead]

theorem exploreAhead_cons (g : Digraph α) (met : Finset Nat) (v : Nat) (nodes : List Nat) :
    g.exploreAhead met (v :: nodes) =
      .cons v (g.exploreAhead (met ∪ (g.fresh met (g.succs v)).toFinset) (g.fresh met (g.succs v)))
        (g.exploreAhead (met ∪ (g.exploreAhead (met ∪ (g.fresh met (g.succs v)).toFinset)
          (g.fresh met (g.succs v))).nodes) nodes) := by
  rw [exploreAhead]

theorem mem_exploreAhead_of_mem (met : Finset Nat) (nodes : List Nat) :
    ∀ v ∈ nodes, v ∈ (g.exploreAhead met nodes).nodes := by
  induction nodes generalizing met with
  | nil => simp
  | cons u nodes ih =>
    rw [exploreAhead_cons, Forest.nodes_cons]
    intro v hv
    rcases List.mem_cons.1 hv with rfl | hv
    · exact Finset.mem_insert_self _ _
    · exact Finset.mem_insert_of_mem (Finset.mem_union_right _ (ih _ v hv))

theorem mem_exploreAhead_of_mem_succs (met : Finset Nat) (nodes : List Nat) :
    ∀ u ∈ (g.exploreAhead met nodes).nodes, ∀ v ∈ g.succs u, v < g.size →
      v ∈ met ∨ v ∈ (g.exploreAhead met nodes).nodes := by
  induction met, nodes using exploreAhead.induct g with
  | case1 met => simp [exploreAhead_nil]
  | case2 met w nodes new below ihb _ ihr =>
    rw [exploreAhead_cons, Forest.nodes_cons]
    intro u hu v hv hlt
    have hroot : v ∈ g.succs w → v ∈ met ∨ v ∈ new.toFinset := fun h => by
      rw [List.mem_toFinset, mem_fresh]
      tauto
    have hnew : v ∈ new.toFinset → v ∈ below.nodes := fun h =>
      mem_exploreAhead_of_mem _ _ v (List.mem_toFinset.1 h)
    have hbelow := ihb u
    have hrest := ihr u
    grind

theorem exploreAhead_sound {P : Nat → Prop} (hs : ∀ u v, P u → v ∈ g.succs u → v < g.size → P v)
    (met : Finset Nat) (nodes : List Nat) (h : ∀ v ∈ nodes, P v) :
    ∀ v ∈ (g.exploreAhead met nodes).nodes, P v := by
  induction met, nodes using exploreAhead.induct g with
  | case1 met => simp [exploreAhead_nil]
  | case2 met w nodes new below ihb _ ihr =>
    rw [exploreAhead_cons, Forest.nodes_cons]
    have hroot : P w := h w List.mem_cons_self
    intro v hv
    rcases Finset.mem_insert.1 hv with rfl | hv
    · exact hroot
    rcases Finset.mem_union.1 hv with hv | hv
    · refine ihb (fun x hx => ?_) v hv
      obtain ⟨hx, hlt, -⟩ := mem_fresh.1 hx
      exact hs w x hroot hx hlt
    · exact ihr (fun x hx => h x (List.mem_cons_of_mem _ hx)) v hv

theorem mem_or_not_mem_of_mem_exploreAhead (met : Finset Nat) (nodes : List Nat) :
    ∀ v ∈ (g.exploreAhead met nodes).nodes, v ∈ nodes ∨ v ∉ met := by
  induction met, nodes using exploreAhead.induct g with
  | case1 met => simp [exploreAhead_nil]
  | case2 met v nodes new below ihb _ ihr =>
    rw [exploreAhead_cons, Forest.nodes_cons]
    intro x hx
    have hnew : x ∈ new → x ∉ met := fun h => (mem_fresh.1 h).2.2
    have hbelow := ihb x
    have hrest := ihr x
    grind

theorem nodup_preorder_exploreAhead (met : Finset Nat) (nodes : List Nat) (hn : nodes.Nodup)
    (hmet : ∀ v ∈ nodes, v ∈ met) : (g.exploreAhead met nodes).preorder.Nodup := by
  induction met, nodes using exploreAhead.induct g with
  | case1 met => simp [exploreAhead_nil, Forest.preorder]
  | case2 met v nodes new below ihb _ ihr =>
    obtain ⟨hv, hn⟩ := List.nodup_cons.1 hn
    have hnew : ∀ x ∈ new, x ∉ met := fun x h => (mem_fresh.1 h).2.2
    have hbelow : ∀ x ∈ below.nodes, x ∉ met := fun x hx hm => by
      rcases mem_or_not_mem_of_mem_exploreAhead _ _ x hx with h | h
      · exact hnew x h hm
      · exact h (Finset.mem_union_left _ hm)
    have hrest := mem_or_not_mem_of_mem_exploreAhead (g := g) (met ∪ below.nodes) nodes
    have hroot : v ∈ met := hmet v List.mem_cons_self
    rw [exploreAhead_cons, Forest.preorder, List.nodup_cons, List.nodup_append', List.mem_append,
      Forest.mem_preorder, Forest.mem_preorder]
    refine ⟨?_, ihb (nodup_fresh _ _ _) ?_, ihr hn ?_, fun x hb hr => ?_⟩
    · rintro (h | h)
      · exact hbelow v h hroot
      · exact (hrest v h).elim hv fun h => h (Finset.mem_union_left _ hroot)
    · exact fun x hx => Finset.mem_union_right _ (List.mem_toFinset.2 hx)
    · exact fun x hx => Finset.mem_union_left _ (hmet x (List.mem_cons_of_mem _ hx))
    · rw [Forest.mem_preorder] at hb hr
      rcases hrest x hr with h | h
      · exact hbelow x hb (hmet x (List.mem_cons_of_mem _ h))
      · exact h (Finset.mem_union_right _ hb)

theorem preorder_exploreAhead_append (met : Finset Nat) (nodes more : List Nat)
    (hmet : ∀ v ∈ nodes, v ∈ met) :
    (g.exploreAhead met (nodes ++ more)).preorder = (g.exploreAhead met nodes).preorder ++
      (g.exploreAhead (met ∪ (g.exploreAhead met nodes).nodes) more).preorder := by
  induction nodes generalizing met with
  | nil => simp [exploreAhead_nil, Forest.preorder]
  | cons v nodes ih =>
    have hroot : v ∈ met := hmet v List.mem_cons_self
    have hnodes := fun x hx => hmet x (List.mem_cons_of_mem v hx)
    rw [List.cons_append, exploreAhead_cons, exploreAhead_cons, Forest.nodes_cons, Forest.preorder,
      Forest.preorder, ih _ fun x hx => Finset.mem_union_left _ (hnodes x hx), List.cons_append,
      List.append_assoc, Finset.union_assoc, Finset.union_insert,
      Finset.insert_eq_of_mem (Finset.mem_union_left _ hroot)]

/-- In pre-order the new successors of a node stand in front of the rest of the list. -/
theorem preorder_exploreAhead_cons (g : Digraph α) (met : Finset Nat) (v : Nat)
    (nodes : List Nat) :
    (g.exploreAhead met (v :: nodes)).preorder =
      v :: (g.exploreAhead (met ∪ (g.fresh met (g.succs v)).toFinset)
        (g.fresh met (g.succs v) ++ nodes)).preorder := by
  have hnew : ∀ x ∈ g.fresh met (g.succs v), x ∈ met ∪ (g.fresh met (g.succs v)).toFinset :=
    fun x hx => Finset.mem_union_right _ (List.mem_toFinset.2 hx)
  have hbelow : (g.fresh met (g.succs v)).toFinset ⊆
      (g.exploreAhead (met ∪ (g.fresh met (g.succs v)).toFinset) (g.fresh met (g.succs v))).nodes :=
    fun x hx => mem_exploreAhead_of_mem _ _ x (List.mem_toFinset.1 hx)
  rw [preorder_exploreAhead_append _ _ _ hnew, exploreAhead_cons, Forest.preorder,
    Finset.union_assoc, Finset.union_eq_right.2 hbelow]

end FlowOpt.Digraph
