import Mathlib
import FlowOpt.Graph.Digraph

/-!
# Depth-first search as a recursion

A search by recursion takes the nodes of a list in turn. One that is new is the root of a tree: its
successors are searched first, in their order, and then the rest of the list, with all that was
found by then. The trees give the pre-order and the post-order. What is found is new, and each of
its successors was met before or is found too.
-/

namespace FlowOpt

/-- Trees side by side: the root of the first, the trees below it, and the trees behind it. -/
inductive Forest
  | nil
  | cons (root : Nat) (below rest : Forest)

namespace Forest

def preorder : Forest → List Nat
  | nil => []
  | cons v below rest => v :: (below.preorder ++ rest.preorder)

def postorder : Forest → List Nat
  | nil => []
  | cons v below rest => below.postorder ++ v :: rest.postorder

def nodes (f : Forest) : Finset Nat := f.preorder.toFinset

@[simp] theorem nodes_nil : nil.nodes = ∅ := rfl

@[simp] theorem nodes_cons (v : Nat) (below rest : Forest) :
    (cons v below rest).nodes = insert v (below.nodes ∪ rest.nodes) := by
  simp [nodes, preorder]

theorem mem_preorder {f : Forest} {v : Nat} : v ∈ f.preorder ↔ v ∈ f.nodes :=
  List.mem_toFinset.symm

theorem postorder_perm (f : Forest) : f.postorder.Perm f.preorder := by
  induction f with
  | nil => exact .refl _
  | cons v below rest ihb ihr => exact List.perm_middle.trans ((ihb.append ihr).cons v)

theorem mem_postorder {f : Forest} {v : Nat} : v ∈ f.postorder ↔ v ∈ f.nodes :=
  f.postorder_perm.mem_iff.trans mem_preorder

end Forest

namespace Digraph

variable {α : Type} (g : Digraph α)

theorem card_sdiff_lt {met more : Finset Nat} {v n : Nat} (hv : v < n ∧ v ∉ met)
    (hmore : insert v met ⊆ more) :
    (Finset.range n \ more).card < (Finset.range n \ met).card := by
  refine Finset.card_lt_card ⟨Finset.sdiff_subset_sdiff le_rfl ?_, fun h => ?_⟩
  · exact (Finset.subset_insert v met).trans hmore
  · have hmem := h (Finset.mem_sdiff.2 ⟨Finset.mem_range.2 hv.1, hv.2⟩)
    exact (Finset.mem_sdiff.1 hmem).2 (hmore (Finset.mem_insert_self v met))

def explore (met : Finset Nat) : List Nat → Forest
  | [] => .nil
  | v :: nodes =>
    if _h : v < g.size ∧ v ∉ met then
      let below := explore (insert v met) (g.succs v)
      .cons v below (explore (insert v met ∪ below.nodes) nodes)
    else explore met nodes
termination_by nodes => ((Finset.range g.size \ met).card, nodes.length)
decreasing_by
  · exact .left _ _ (card_sdiff_lt _h (Finset.Subset.refl _))
  · exact .left _ _ (card_sdiff_lt _h Finset.subset_union_left)
  · exact .right _ (Nat.lt_succ_self _)

def depthFirst (start : Nat) : Forest := g.explore ∅ [start]

variable {g} {met : Finset Nat} {v : Nat} {nodes : List Nat}

theorem explore_nil (g : Digraph α) (met : Finset Nat) : g.explore met [] = .nil := by
  rw [explore]

theorem explore_new (hlt : v < g.size) (hn : v ∉ met) (nodes : List Nat) :
    g.explore met (v :: nodes) = .cons v (g.explore (insert v met) (g.succs v))
      (g.explore (insert v met ∪ (g.explore (insert v met) (g.succs v)).nodes) nodes) := by
  rw [explore, dif_pos ⟨hlt, hn⟩]

theorem explore_old (h : ¬ (v < g.size ∧ v ∉ met)) (nodes : List Nat) :
    g.explore met (v :: nodes) = g.explore met nodes := by
  rw [explore, dif_neg h]

theorem depthFirst_of_not_lt (h : ¬ v < g.size) : g.depthFirst v = .nil := by
  rw [depthFirst, explore_old fun hv => h hv.1, explore_nil]

theorem not_mem_of_mem_explore (met : Finset Nat) (nodes : List Nat) :
    ∀ v ∈ (g.explore met nodes).nodes, v < g.size ∧ v ∉ met := by
  induction met, nodes using explore.induct g with
  | case1 met => simp [explore_nil]
  | case2 met v nodes h below ihb ihr =>
    rw [explore_new h.1 h.2, Forest.nodes_cons]
    intro x hx
    rcases Finset.mem_insert.1 hx with rfl | hx
    · exact h
    rcases Finset.mem_union.1 hx with hx | hx
    · exact (ihb x hx).imp_right fun hn hm => hn (Finset.mem_insert_of_mem hm)
    · exact (ihr x hx).imp_right fun hn hm =>
        hn (Finset.mem_union_left _ (Finset.mem_insert_of_mem hm))
  | case3 met v nodes h ih => rwa [explore_old h]

theorem nodup_preorder_explore (met : Finset Nat) (nodes : List Nat) :
    (g.explore met nodes).preorder.Nodup := by
  induction met, nodes using explore.induct g with
  | case1 met => simp [explore_nil, Forest.preorder]
  | case2 met v nodes h below ihb ihr =>
    rw [explore_new h.1 h.2, Forest.preorder, List.nodup_cons, List.nodup_append', List.mem_append,
      Forest.mem_preorder, Forest.mem_preorder]
    refine ⟨?_, ihb, ihr, fun x hb hr => ?_⟩
    · rintro (hv | hv)
      · exact (not_mem_of_mem_explore _ _ v hv).2 (Finset.mem_insert_self _ _)
      · exact (not_mem_of_mem_explore _ _ v hv).2
          (Finset.mem_union_left _ (Finset.mem_insert_self _ _))
    · exact (not_mem_of_mem_explore _ _ x (Forest.mem_preorder.1 hr)).2
        (Finset.mem_union_right _ (Forest.mem_preorder.1 hb))
  | case3 met v nodes h ih => rwa [explore_old h]

theorem nodup_postorder_explore (met : Finset Nat) (nodes : List Nat) :
    (g.explore met nodes).postorder.Nodup :=
  (Forest.postorder_perm _).nodup_iff.2 (nodup_preorder_explore met nodes)

theorem mem_explore_of_mem (met : Finset Nat) (nodes : List Nat) :
    ∀ v ∈ nodes, v < g.size → v ∈ met ∨ v ∈ (g.explore met nodes).nodes := by
  induction met, nodes using explore.induct g with
  | case1 met => simp
  | case2 met v nodes h below ihb ihr =>
    rw [explore_new h.1 h.2, Forest.nodes_cons]
    intro x hx hlt
    rcases List.mem_cons.1 hx with rfl | hx
    · exact .inr (Finset.mem_insert_self _ _)
    · have hrest := ihr x hx hlt
      grind
  | case3 met v nodes h ih =>
    rw [explore_old h]
    intro x hx hlt
    rcases List.mem_cons.1 hx with rfl | hx
    · exact .inl (by_contra fun hn => h ⟨hlt, hn⟩)
    · exact ih x hx hlt

theorem mem_explore_of_mem_succs (met : Finset Nat) (nodes : List Nat) :
    ∀ u ∈ (g.explore met nodes).nodes, ∀ v ∈ g.succs u, v < g.size →
      v ∈ met ∨ v ∈ (g.explore met nodes).nodes := by
  induction met, nodes using explore.induct g with
  | case1 met => simp [explore_nil]
  | case2 met w nodes h below ihb ihr =>
    rw [explore_new h.1 h.2, Forest.nodes_cons]
    intro u hu v hv hlt
    have hroot := mem_explore_of_mem (g := g) (insert w met) (g.succs w) v
    have hbelow := ihb u
    have hrest := ihr u
    grind
  | case3 met v nodes h ih => rwa [explore_old h]

/-- What holds of the list and passes along edges holds of what is found. -/
theorem explore_sound {P : Nat → Prop} (hs : ∀ u v, P u → v ∈ g.succs u → v < g.size → P v)
    (met : Finset Nat) (nodes : List Nat) (h : ∀ v ∈ nodes, v < g.size → P v) :
    ∀ v ∈ (g.explore met nodes).nodes, P v := by
  induction met, nodes using explore.induct g with
  | case1 met => simp [explore_nil]
  | case2 met w nodes hw below ihb ihr =>
    rw [explore_new hw.1 hw.2, Forest.nodes_cons]
    have hroot : P w := h w List.mem_cons_self hw.1
    intro v hv
    rcases Finset.mem_insert.1 hv with rfl | hv
    · exact hroot
    rcases Finset.mem_union.1 hv with hv | hv
    · exact ihb (fun x hx hlt => hs w x hroot hx hlt) v hv
    · exact ihr (fun x hx => h x (List.mem_cons_of_mem _ hx)) v hv
  | case3 met w nodes hw ih =>
    rw [explore_old hw]
    exact ih fun x hx => h x (List.mem_cons_of_mem _ hx)

theorem preorder_explore_append (met : Finset Nat) (nodes more : List Nat) :
    (g.explore met (nodes ++ more)).preorder = (g.explore met nodes).preorder ++
      (g.explore (met ∪ (g.explore met nodes).nodes) more).preorder := by
  induction met, nodes using explore.induct g with
  | case1 met => simp [explore_nil, Forest.preorder]
  | case2 met v nodes h below ihb ihr =>
    have hmet : met ∪
          insert v (below.nodes ∪ (g.explore (insert v met ∪ below.nodes) nodes).nodes) =
        insert v met ∪ below.nodes ∪ (g.explore (insert v met ∪ below.nodes) nodes).nodes := by
      ext x
      simp only [Finset.mem_union, Finset.mem_insert]
      tauto
    rw [List.cons_append, explore_new h.1 h.2, explore_new h.1 h.2, Forest.nodes_cons, hmet,
      Forest.preorder, Forest.preorder, ihr, List.cons_append, List.append_assoc]
  | case3 met v nodes h ih => rwa [List.cons_append, explore_old h, explore_old h]

/-- In pre-order the successors of a new node stand in front of the rest of the list. -/
theorem preorder_explore_new (hlt : v < g.size) (hn : v ∉ met) (nodes : List Nat) :
    (g.explore met (v :: nodes)).preorder =
      v :: (g.explore (insert v met) (g.succs v ++ nodes)).preorder := by
  rw [explore_new hlt hn, preorder_explore_append, Forest.preorder]

theorem explore_filter {known : Finset Nat} (h : known ⊆ met) (nodes : List Nat) :
    g.explore met (nodes.filter fun v => v < g.size ∧ v ∉ known) = g.explore met nodes := by
  induction nodes generalizing met with
  | nil => rfl
  | cons v nodes ih =>
    by_cases hv : v < g.size ∧ v ∉ met
    · have hkept : v < g.size ∧ v ∉ known := hv.imp_right fun hn hm => hn (h hm)
      have hmore : known ⊆ insert v met ∪ (g.explore (insert v met) (g.succs v)).nodes :=
        h.trans ((Finset.subset_insert v met).trans Finset.subset_union_left)
      rw [List.filter_cons_of_pos (by simpa using hkept), explore_new hv.1 hv.2,
        explore_new hv.1 hv.2, ih hmore]
    · rw [explore_old hv, List.filter_cons]
      split
      · rw [explore_old hv, ih h]
      · exact ih h

end Digraph

end FlowOpt
