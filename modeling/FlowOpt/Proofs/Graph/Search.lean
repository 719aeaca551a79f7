import FlowOpt.Graph.Traversal
import FlowOpt.Proofs.BitSet
import FlowOpt.Proofs.Graph.Ahead

/-!
# What the searches find

A path starts at the entry and follows edges between nodes of the graph. Both searches are
recursions: the one with a list meets ahead and gives the pre-order, the one with frames goes depth
first and gives the post-order. Each of their steps uses up a successor or a node that was not met
before, so their bounds on steps never cut them short. Both list exactly the nodes that some path
leads to: what they find is reachable and closed under successors.
-/

namespace FlowOpt.Digraph

variable {α : Type} (g : Digraph α)

/-- The nodes passed on the way from `entry` to a node, in order. -/
inductive Path (entry : Nat) : Nat → List Nat → Prop
  | start (h : entry < g.size) : Path entry entry [entry]
  | step {v w : Nat} {p : List Nat} (hp : Path entry v p) (hw : w ∈ g.succs v)
      (hlt : w < g.size) : Path entry w (p ++ [w])

def Reachable (entry v : Nat) : Prop := ∃ p, g.Path entry v p

def LeadsTo (v w : Nat) : Prop := ∃ u, g.Reachable v u ∧ w ∈ g.succs u

variable {g} {entry v w : Nat} {p : List Nat}

theorem Path.lt (h : g.Path entry v p) : v < g.size := by
  cases h with
  | start h => exact h
  | step _ _ h => exact h

theorem Path.entry_lt (h : g.Path entry v p) : entry < g.size := by
  induction h with
  | start h => exact h
  | step _ _ _ ih => exact ih

theorem Path.mem_last (h : g.Path entry v p) : v ∈ p := by
  cases h with
  | start _ => exact List.mem_singleton_self _
  | step _ _ _ => simp

theorem Path.dropLast_concat (h : g.Path entry v p) : p.dropLast ++ [v] = p := by
  cases h with
  | start _ => rfl
  | step _ _ _ => rw [List.dropLast_concat]

theorem Path.mem_entry (h : g.Path entry v p) : entry ∈ p := by
  induction h with
  | start _ => exact List.mem_singleton_self _
  | step _ _ _ ih => exact List.mem_append_left _ ih

theorem Path.cons {z : Nat} (h : g.Path w z p) (hw : w ∈ g.succs v) (hv : v < g.size) :
    g.Path v z (v :: p) := by
  induction h with
  | start hlt => exact (Path.start hv).step hw hlt
  | step _ hu hlt ih => exact ih.step hu hlt

theorem Reachable.lt (h : g.Reachable entry v) : v < g.size := h.choose_spec.lt

theorem Reachable.of_lt (h : entry < g.size) : g.Reachable entry entry := ⟨_, .start h⟩

theorem Reachable.step (h : g.Reachable entry v) (hw : w ∈ g.succs v) (hlt : w < g.size) :
    g.Reachable entry w :=
  ⟨_, h.choose_spec.step hw hlt⟩

theorem Reachable.induction {P : Nat → Prop} (h : g.Reachable entry v) (h0 : P entry)
    (hs : ∀ v w, g.Reachable entry v → P v → w ∈ g.succs v → w < g.size → P w) : P v := by
  obtain ⟨p, hp⟩ := h
  induction hp with
  | start _ => exact h0
  | step hp hw hlt ih => exact hs _ _ ⟨_, hp⟩ ih hw hlt

theorem mem_iff_reachable {nodes : Finset Nat} (hentry : entry < g.size → entry ∈ nodes)
    (hclosed : ∀ u ∈ nodes, ∀ w ∈ g.succs u, w < g.size → w ∈ nodes)
    (hsound : ∀ u ∈ nodes, g.Reachable entry u) : v ∈ nodes ↔ g.Reachable entry v :=
  ⟨hsound v, fun h => h.induction (hentry h.choose_spec.entry_lt)
    fun u w _ hu hw hlt => hclosed u hu w hw hlt⟩

theorem Path.exists_prefix {u : Nat} (h : g.Path entry v p) (hu : u ∈ p) :
    ∃ q r, p = q ++ r ∧ g.Path entry u q := by
  induction h with
  | start h =>
    rcases List.mem_singleton.1 hu with rfl
    exact ⟨[u], [], rfl, .start h⟩
  | @step x y p hp hw hlt ih =>
    rcases List.mem_append.1 hu with hu | hu
    · obtain ⟨q, r, rfl, hq⟩ := ih hu
      exact ⟨q, r ++ [y], by simp, hq⟩
    · rcases List.mem_singleton.1 hu with rfl
      exact ⟨p ++ [u], [], by simp, hp.step hw hlt⟩

theorem Path.reachable_of_mem {u : Nat} (h : g.Path entry v p) (hu : u ∈ p) :
    g.Reachable entry u := by
  obtain ⟨q, _, _, hq⟩ := h.exists_prefix hu
  exact ⟨q, hq⟩

section Unmet

variable (g)

def unmet (met : BitSet) : Finset Nat := (Finset.range g.size).filter (¬ · ∈ met)

variable {g} {met : BitSet}

theorem mem_unmet : v ∈ g.unmet met ↔ v < g.size ∧ ¬ v ∈ met := by
  simp [unmet]

theorem unmet_add (hc : met.capacity = g.size) (hv : v < g.size) :
    g.unmet (met.add v) = (g.unmet met).erase v := by
  ext u
  rw [mem_unmet, Finset.mem_erase, mem_unmet, BitSet.mem_add, hc]
  constructor
  · rintro ⟨hu, hn⟩
    exact ⟨fun h => hn (.inr ⟨h, hv⟩), hu, fun h => hn (.inl h)⟩
  · rintro ⟨hne, hu, hn⟩
    exact ⟨hu, fun h => h.elim hn fun h => hne h.1⟩

end Unmet

section Meet

variable {work : List Nat} {met : BitSet}

theorem meet_cons (work : List Nat) (met : BitSet) (v : Nat) (nodes : List Nat) :
    meet work met (v :: nodes) =
      meet (if (met.insert v).2 then v :: work else work) (met.add v) nodes := rfl

theorem capacity_meet (work : List Nat) (met : BitSet) (nodes : List Nat) :
    (meet work met nodes).2.capacity = met.capacity := by
  induction nodes generalizing work met with
  | nil => rfl
  | cons v nodes ih => rw [meet_cons, ih, BitSet.capacity_add]

theorem tidy_meet (work : List Nat) (nodes : List Nat) (h : met.Tidy) :
    (meet work met nodes).2.Tidy := by
  induction nodes generalizing work met with
  | nil => exact h
  | cons v nodes ih => exact ih _ (h.add v)

theorem mem_meet_snd (work : List Nat) (met : BitSet) (nodes : List Nat) :
    v ∈ (meet work met nodes).2 ↔ v ∈ met ∨ (v ∈ nodes ∧ v < met.capacity) := by
  induction nodes generalizing work met with
  | nil => simp [meet]
  | cons u nodes ih =>
    rw [meet_cons, ih, BitSet.mem_add, BitSet.capacity_add, List.mem_cons]
    constructor
    · rintro ((h | ⟨rfl, hu⟩) | ⟨hm, hc⟩)
      · exact .inl h
      · exact .inr ⟨.inl rfl, hu⟩
      · exact .inr ⟨.inr hm, hc⟩
    · rintro (h | ⟨rfl | hm, hc⟩)
      · exact .inl (.inl h)
      · exact .inl (.inr ⟨rfl, hc⟩)
      · exact .inr ⟨hm, hc⟩

theorem mem_meet_fst (work : List Nat) (met : BitSet) (nodes : List Nat) :
    v ∈ (meet work met nodes).1 ↔ v ∈ work ∨ (v ∈ (meet work met nodes).2 ∧ ¬ v ∈ met) := by
  induction nodes generalizing work met with
  | nil => simp [meet]
  | cons u nodes ih =>
    rw [meet_cons, ih, mem_meet_snd, BitSet.mem_add, BitSet.capacity_add]
    by_cases hu : (met.insert u).2 = true
    · obtain ⟨hlt, hnot⟩ := BitSet.insert_snd.1 hu
      rw [if_pos hu, List.mem_cons]
      constructor
      · rintro ((rfl | hw) | ⟨h, hn⟩)
        · exact .inr ⟨.inl (.inr ⟨rfl, hlt⟩), hnot⟩
        · exact .inl hw
        · exact .inr ⟨h, fun hm => hn (.inl hm)⟩
      · rintro (hw | ⟨h, hn⟩)
        · exact .inl (.inr hw)
        · by_cases hv : v = u
          · exact .inl (.inl hv)
          · exact .inr ⟨h, fun hm => hm.elim hn fun hm => hv hm.1⟩
    · rw [if_neg hu]
      have hsame : v = u ∧ u < met.capacity → v ∈ met := by
        rintro ⟨rfl, hlt⟩
        by_contra hn
        exact hu (BitSet.insert_snd.2 ⟨hlt, hn⟩)
      constructor
      · rintro (hw | ⟨h, hn⟩)
        · exact .inl hw
        · exact .inr ⟨h, fun hm => hn (.inl hm)⟩
      · rintro (hw | ⟨h, hn⟩)
        · exact .inl hw
        · exact .inr ⟨h, fun hm => hn (hm.elim id hsame)⟩

theorem length_meet (work : List Nat) (hc : met.capacity = g.size) (nodes : List Nat) :
    (meet work met nodes).1.length + (g.unmet (meet work met nodes).2).card =
      work.length + (g.unmet met).card := by
  induction nodes generalizing work met with
  | nil => rfl
  | cons u nodes ih =>
    rw [meet_cons, ih _ (by simpa using hc)]
    by_cases hu : (met.insert u).2 = true
    · obtain ⟨hlt, hnot⟩ := BitSet.insert_snd.1 hu
      rw [hc] at hlt
      have hmem : u ∈ g.unmet met := mem_unmet.2 ⟨hlt, hnot⟩
      have hpos : 0 < (g.unmet met).card := Finset.card_pos.2 ⟨u, hmem⟩
      rw [if_pos hu, unmet_add hc hlt, Finset.card_erase_of_mem hmem, List.length_cons]
      omega
    · have hsame : g.unmet (met.add u) = g.unmet met := by
        ext x
        rw [mem_unmet, mem_unmet, BitSet.mem_add]
        refine and_congr_right fun _ => not_congr ⟨fun h => h.elim id ?_, .inl⟩
        rintro ⟨rfl, hlt⟩
        by_contra hn
        exact hu (BitSet.insert_snd.2 ⟨hlt, hn⟩)
      rw [if_neg hu, hsame]

/-- Nodes put in front one after the other, the last one first, stand in their order. -/
theorem meet_reverse {known : Finset Nat} (hc : met.capacity = g.size)
    (hmet : ∀ x, x ∈ met ↔ x ∈ known) (work nodes : List Nat) :
    (meet work met nodes.reverse).1 = g.fresh known nodes ++ work := by
  induction nodes with
  | nil => rfl
  | cons u nodes ih =>
    have hlast : meet work met (u :: nodes).reverse =
        meet (meet work met nodes.reverse).1 (meet work met nodes.reverse).2 [u] := by
      rw [List.reverse_cons]
      exact List.foldl_append
    have hnew : ((meet work met nodes.reverse).2.insert u).2 = true ↔
        (u < g.size ∧ u ∉ known) ∧ u ∉ nodes := by
      rw [BitSet.insert_snd, mem_meet_snd, capacity_meet, hc, hmet, List.mem_reverse]
      tauto
    rw [hlast, meet_cons, ih, fresh_cons, meet, List.foldl_nil]
    simp only [hnew]
    split <;> rfl

end Meet

section Preorder

variable {work : List Nat} {met : BitSet} {known : Finset Nat} {fuel : Nat}

theorem dfsLoop_succ_cons (fuel v : Nat) (work : List Nat) (met : BitSet) :
    g.dfsLoop (fuel + 1) (v :: work) met =
      v :: g.dfsLoop fuel (meet work met (g.succs v).reverse).1
        (meet work met (g.succs v).reverse).2 := rfl

/-- With steps for every node that waits or is not met, the search with a list is the recursion. -/
theorem dfsLoop_eq_preorder (hc : met.capacity = g.size) (hmet : ∀ x, x ∈ met ↔ x ∈ known)
    (hf : work.length + (g.unmet met).card ≤ fuel) :
    g.dfsLoop fuel work met = (g.exploreAhead known work).preorder := by
  induction fuel generalizing work met known with
  | zero =>
    obtain rfl : work = [] := List.eq_nil_of_length_eq_zero (by omega)
    simp [dfsLoop, exploreAhead_nil, Forest.preorder]
  | succ fuel ih =>
    cases work with
    | nil => simp [dfsLoop, exploreAhead_nil, Forest.preorder]
    | cons v work =>
      have hlen := length_meet work hc (g.succs v).reverse
      rw [List.length_cons] at hf
      have hnext : ∀ x, x ∈ (meet work met (g.succs v).reverse).2 ↔
          x ∈ known ∪ (g.fresh known (g.succs v)).toFinset := fun x => by
        rw [mem_meet_snd, hc, hmet, List.mem_reverse, Finset.mem_union, List.mem_toFinset, mem_fresh]
        tauto
      have hlist := meet_reverse hc hmet work (g.succs v)
      rw [dfsLoop_succ_cons, ih ((capacity_meet _ _ _).trans hc) hnext (by omega), hlist,
        preorder_exploreAhead_cons]

theorem card_unmet_le (met : BitSet) : (g.unmet met).card ≤ g.size := by
  simpa [unmet] using Finset.card_filter_le (Finset.range g.size) (¬ · ∈ met)

theorem start_bound (g : Digraph α) (entry : Nat) :
    (meet [] (BitSet.empty g.size) [entry]).1.length +
      (g.unmet (meet [] (BitSet.empty g.size) [entry]).2).card ≤ g.size + 1 := by
  rw [length_meet (g := g) [] rfl, List.length_nil, Nat.zero_add]
  exact (card_unmet_le _).trans (Nat.le_succ _)

theorem dfsLoop_start (entry : Nat) (hf : g.size + 1 ≤ fuel) :
    g.dfsLoop fuel (meet [] (BitSet.empty g.size) [entry]).1
      (meet [] (BitSet.empty g.size) [entry]).2 = (g.searchAhead entry).preorder := by
  have hempty : ∀ x, x ∈ BitSet.empty g.size ↔ x ∈ (∅ : Finset Nat) := by simp
  have hlist : (meet [] (BitSet.empty g.size) [entry]).1 = g.fresh ∅ [entry] := by
    simpa using meet_reverse (BitSet.capacity_empty _) hempty [] [entry]
  have hmet : ∀ x, x ∈ (meet [] (BitSet.empty g.size) [entry]).2 ↔
      x ∈ (g.fresh ∅ [entry]).toFinset := fun x => by
    rw [mem_meet_snd, List.mem_toFinset, mem_fresh]
    simp
  have hbound := (start_bound g entry).trans hf
  rw [dfsLoop_eq_preorder (capacity_meet _ _ _) hmet hbound, hlist, searchAhead]

theorem dfs_eq_preorder (g : Digraph α) (entry : Nat) :
    g.dfs entry = (g.searchAhead entry).preorder := dfsLoop_start entry le_rfl

theorem nodup_dfs (g : Digraph α) (entry : Nat) : (g.dfs entry).Nodup := by
  rw [dfs_eq_preorder]
  exact nodup_preorder_exploreAhead _ _ (nodup_fresh _ _ _) fun x hx => List.mem_toFinset.2 hx

theorem mem_fresh_start : v ∈ g.fresh ∅ [entry] ↔ v = entry ∧ entry < g.size := by
  rw [mem_fresh, List.mem_singleton]
  constructor
  · rintro ⟨rfl, hlt, -⟩
    exact ⟨rfl, hlt⟩
  · rintro ⟨rfl, hlt⟩
    exact ⟨rfl, hlt, Finset.notMem_empty _⟩

theorem mem_dfs : v ∈ g.dfs entry ↔ g.Reachable entry v := by
  have hroots := mem_exploreAhead_of_mem (g := g) (g.fresh ∅ [entry]).toFinset (g.fresh ∅ [entry])
  rw [dfs_eq_preorder, Forest.mem_preorder]
  refine mem_iff_reachable (fun h => hroots _ (mem_fresh_start.2 ⟨rfl, h⟩))
    (fun u hu w hw hlt => ?_) ?_
  · rcases mem_exploreAhead_of_mem_succs _ _ u hu w hw hlt with h | h
    · exact hroots w (List.mem_toFinset.1 h)
    · exact h
  · refine exploreAhead_sound (fun u w h hw hlt => h.step hw hlt) _ _ fun u hu => ?_
    obtain ⟨rfl, hlt⟩ := mem_fresh_start.1 hu
    exact .of_lt hlt

instance (entry v : Nat) : Decidable (g.Reachable entry v) := decidable_of_iff _ mem_dfs

instance (v w : Nat) : Decidable (g.LeadsTo v w) :=
  decidable_of_iff (∃ u ∈ g.dfs v, w ∈ g.succs u) (by simp only [mem_dfs, LeadsTo])

@[simp] theorem capacity_reachable (g : Digraph α) (entry : Nat) :
    (g.reachable entry).capacity = g.size := BitSet.capacity_ofList _ _

theorem tidy_reachable (g : Digraph α) (entry : Nat) : (g.reachable entry).Tidy :=
  BitSet.tidy_ofList _ _

theorem mem_reachable : v ∈ g.reachable entry ↔ g.Reachable entry v := by
  rw [reachable, BitSet.mem_ofList, mem_dfs]
  exact ⟨And.left, fun h => ⟨h, h.lt⟩⟩

end Preorder

section Postorder

variable {frames : List Frame} {met : BitSet} {known : Finset Nat} {fuel : Nat}

variable (g) in
/-- The steps that a node takes from when it is met: one for each successor and one to leave it. -/
def cost (v : Nat) : Nat := (g.succs v).length + 1

variable (g) in
def stepsLeft (frames : List Frame) (met : BitSet) : Nat :=
  (frames.map fun f => f.left.length + 1).sum + ∑ v ∈ g.unmet met, g.cost v

theorem sum_cost_add (hc : met.capacity = g.size) (hlt : v < g.size) (hn : ¬ v ∈ met) :
    g.cost v + ∑ u ∈ g.unmet (met.add v), g.cost u = ∑ u ∈ g.unmet met, g.cost u := by
  rw [unmet_add hc hlt, Finset.add_sum_erase _ _ (mem_unmet.2 ⟨hlt, hn⟩)]

theorem stepsLeft_leave (v : Nat) (frames : List Frame) (met : BitSet) :
    g.stepsLeft (⟨v, []⟩ :: frames) met = g.stepsLeft frames met + 1 := by
  simp [stepsLeft]
  omega

theorem stepsLeft_skip (v w : Nat) (left : List Nat) (frames : List Frame) (met : BitSet) :
    g.stepsLeft (⟨v, w :: left⟩ :: frames) met = g.stepsLeft (⟨v, left⟩ :: frames) met + 1 := by
  simp [stepsLeft]
  omega

theorem stepsLeft_enter (hc : met.capacity = g.size) (hlt : w < g.size) (hn : ¬ w ∈ met)
    (v : Nat) (left : List Nat) (frames : List Frame) :
    g.stepsLeft (⟨v, w :: left⟩ :: frames) met =
      g.stepsLeft (⟨w, g.succs w⟩ :: ⟨v, left⟩ :: frames) (met.add w) + 1 := by
  have hsum := sum_cost_add hc hlt hn
  simp only [stepsLeft, List.map_cons, List.sum_cons, List.length_cons, cost] at hsum ⊢
  omega

theorem postorderLoop_cons (fuel v w : Nat) (left : List Nat) (frames : List Frame)
    (met : BitSet) :
    g.postorderLoop (fuel + 1) (⟨v, w :: left⟩ :: frames) met =
      if (met.insert w).2 then
        g.postorderLoop fuel (⟨w, g.succs w⟩ :: ⟨v, left⟩ :: frames) (met.add w)
      else g.postorderLoop fuel (⟨v, left⟩ :: frames) (met.add w) := rfl

theorem add_eq_self (hw : ¬ (met.insert w).2 = true) (ht : met.Tidy) : met.add w = met := by
  refine (ht.add w).ext ht rfl fun n => ?_
  rw [BitSet.mem_add]
  refine ⟨fun h => h.elim id ?_, .inl⟩
  rintro ⟨rfl, hlt⟩
  by_contra hn
  exact hw (BitSet.insert_snd.2 ⟨hlt, hn⟩)

variable (g) in
def unwind (known : Finset Nat) : List Frame → List Nat
  | [] => []
  | f :: frames =>
    (g.explore known f.left).postorder ++
      f.node :: unwind (known ∪ (g.explore known f.left).nodes) frames

theorem unwind_leave (known : Finset Nat) (v : Nat) (frames : List Frame) :
    g.unwind known (⟨v, []⟩ :: frames) = v :: g.unwind known frames := by
  simp [unwind, explore_nil, Forest.postorder]

theorem unwind_skip {w : Nat} (h : ¬ (w < g.size ∧ w ∉ known)) (v : Nat) (left : List Nat)
    (frames : List Frame) :
    g.unwind known (⟨v, w :: left⟩ :: frames) = g.unwind known (⟨v, left⟩ :: frames) := by
  rw [unwind, explore_old h, unwind]

/-- A new successor gets a frame of its own; the frame below goes on with what is met by then. -/
theorem unwind_enter {w : Nat} (hlt : w < g.size) (hn : w ∉ known) (v : Nat) (left : List Nat)
    (frames : List Frame) :
    g.unwind known (⟨v, w :: left⟩ :: frames) =
      g.unwind (insert w known) (⟨w, g.succs w⟩ :: ⟨v, left⟩ :: frames) := by
  rw [unwind, explore_new hlt hn, Forest.nodes_cons, Forest.postorder, unwind, unwind,
    List.append_assoc, List.cons_append, Finset.union_insert, ← Finset.insert_union,
    Finset.union_assoc]

theorem postorderLoop_eq_unwind (hc : met.capacity = g.size) (ht : met.Tidy)
    (hmet : ∀ x, x ∈ met ↔ x ∈ known) (hf : g.stepsLeft frames met ≤ fuel) :
    g.postorderLoop fuel frames met = g.unwind known frames := by
  induction fuel generalizing frames met known with
  | zero =>
    cases frames with
    | nil => rfl
    | cons f frames => simp [stepsLeft] at hf
  | succ fuel ih =>
    cases frames with
    | nil => rfl
    | cons f frames =>
      obtain ⟨v, left⟩ := f
      cases left with
      | nil =>
        rw [stepsLeft_leave] at hf
        rw [unwind_leave, postorderLoop, ih hc ht hmet (Nat.le_of_succ_le_succ hf)]
      | cons w left =>
        rw [postorderLoop_cons]
        split
        · next hnew =>
          obtain ⟨hlt, hn⟩ := BitSet.insert_snd.1 hnew
          rw [hc] at hlt
          rw [stepsLeft_enter hc hlt hn] at hf
          have hmet' : ∀ x, x ∈ met.add w ↔ x ∈ insert w known := fun x => by
            rw [BitSet.mem_add, hc, hmet, Finset.mem_insert]
            grind
          rw [unwind_enter hlt (mt (hmet w).2 hn)]
          exact ih hc (ht.add w) hmet' (Nat.le_of_succ_le_succ hf)
        · next hold =>
          have hold' : ¬ (w < g.size ∧ w ∉ known) := fun h =>
            hold (BitSet.insert_snd.2 ⟨hc ▸ h.1, mt (hmet w).1 h.2⟩)
          rw [stepsLeft_skip] at hf
          rw [add_eq_self hold ht, unwind_skip hold']
          exact ih hc ht hmet (Nat.le_of_succ_le_succ hf)

/-- The neighbours of all nodes, counted by node and in one list. -/
theorem sum_length_range (g : Digraph α) (neighbours : Nat → List Nat) :
    ∑ v ∈ Finset.range g.size, (neighbours v).length = (g.ids.flatMap neighbours).length := by
  rw [List.length_flatMap, ids, ← List.sum_toFinset _ List.nodup_range, List.toFinset_range]

theorem sum_cost_range (g : Digraph α) :
    ∑ v ∈ Finset.range g.size, g.cost v = g.size + (g.ids.flatMap g.succs).length := by
  simp only [cost, Finset.sum_add_distrib, sum_length_range]
  simp
  omega

/-- The search from a node of the graph has at most one step for each edge and each node left. -/
theorem stepsLeft_start (h : entry < g.size) :
    g.stepsLeft [⟨entry, g.succs entry⟩] ((BitSet.empty g.size).add entry) ≤
      g.size + (g.ids.flatMap g.succs).length + 1 := by
  have hsum := sum_cost_add (BitSet.capacity_empty g.size) h (BitSet.not_mem_empty _ _)
  have hempty : g.unmet (BitSet.empty g.size) = Finset.range g.size := by
    ext u
    simp [mem_unmet]
  rw [hempty, sum_cost_range] at hsum
  simp only [stepsLeft, List.map_cons, List.map_nil, List.sum_cons, List.sum_nil, cost] at hsum ⊢
  omega

theorem postorder_of_lt (h : entry < g.size) : g.postorder entry =
    g.postorderLoop (g.size + (g.ids.flatMap g.succs).length + 1) [⟨entry, g.succs entry⟩]
      ((BitSet.empty g.size).add entry) := by
  have hnew : ((BitSet.empty g.size).insert entry).2 = true :=
    BitSet.insert_snd.2 ⟨h, BitSet.not_mem_empty _ _⟩
  exact if_pos hnew

theorem postorder_of_not_lt (h : ¬ entry < g.size) : g.postorder entry = [] := by
  have hold : ¬ ((BitSet.empty g.size).insert entry).2 = true :=
    fun hnew => h (BitSet.insert_snd.1 hnew).1
  exact if_neg hold

theorem depthFirst_eq (h : entry < g.size) :
    (g.depthFirst entry).postorder = g.unwind (insert entry ∅) [⟨entry, g.succs entry⟩] := by
  rw [depthFirst, explore_new h (Finset.notMem_empty _), explore_nil]
  rfl

theorem postorderLoop_start (h : entry < g.size)
    (hf : g.size + (g.ids.flatMap g.succs).length + 1 ≤ fuel) :
    g.postorderLoop fuel [⟨entry, g.succs entry⟩] ((BitSet.empty g.size).add entry) =
      (g.depthFirst entry).postorder := by
  have hc : ((BitSet.empty g.size).add entry).capacity = g.size := BitSet.capacity_add _ _
  have ht : ((BitSet.empty g.size).add entry).Tidy := (BitSet.tidy_empty _).add _
  have hmet : ∀ x, x ∈ (BitSet.empty g.size).add entry ↔ x ∈ insert entry (∅ : Finset Nat) :=
    fun x => by
      rw [BitSet.mem_add]
      simp [BitSet.not_mem_empty, h]
  rw [postorderLoop_eq_unwind hc ht hmet ((stepsLeft_start h).trans hf), depthFirst_eq h]

theorem postorder_eq (g : Digraph α) (entry : Nat) :
    g.postorder entry = (g.depthFirst entry).postorder := by
  by_cases h : entry < g.size
  · rw [postorder_of_lt h, postorderLoop_start h le_rfl]
  · rw [postorder_of_not_lt h, depthFirst_of_not_lt h]
    rfl

theorem nodup_postorder (g : Digraph α) (entry : Nat) : (g.postorder entry).Nodup := by
  rw [postorder_eq]
  exact nodup_postorder_explore _ _

theorem mem_postorder : v ∈ g.postorder entry ↔ g.Reachable entry v := by
  rw [postorder_eq, Forest.mem_postorder]
  refine mem_iff_reachable (fun h => ?_) (fun u hu w hw hlt => ?_) ?_
  · exact (mem_explore_of_mem _ _ entry (List.mem_singleton_self _) h).resolve_left
      (Finset.notMem_empty _)
  · exact (mem_explore_of_mem_succs _ _ u hu w hw hlt).resolve_left (Finset.notMem_empty _)
  · refine explore_sound (fun u w h hw hlt => h.step hw hlt) _ _ fun u hu hlt => ?_
    obtain rfl := List.mem_singleton.1 hu
    exact .of_lt hlt

theorem mem_reversePostorder : v ∈ g.reversePostorder entry ↔ g.Reachable entry v := by
  rw [reversePostorder, List.mem_reverse, mem_postorder]

end Postorder

variable (g entry) in
def SearchesEnd : Prop :=
  (∀ extra, g.dfsLoop (g.size + 1 + extra) (meet [] (BitSet.empty g.size) [entry]).1
      (meet [] (BitSet.empty g.size) [entry]).2 = g.dfs entry) ∧
    (entry < g.size → ∀ extra,
      g.postorderLoop (g.size + (g.ids.flatMap g.succs).length + 1 + extra)
        [⟨entry, g.succs entry⟩] ((BitSet.empty g.size).add entry) = g.postorder entry)

theorem searchesEnd (g : Digraph α) (entry : Nat) : g.SearchesEnd entry := by
  refine ⟨fun extra => ?_, fun h extra => ?_⟩
  · rw [dfsLoop_start entry (Nat.le_add_right _ _), dfs_eq_preorder]
  · rw [postorderLoop_start h (Nat.le_add_right _ _), postorder_eq]

end FlowOpt.Digraph
