import FlowOpt.Proofs.Graph.TreeWalk

/-!
# Dominance frontiers

The dominance of a node ends where an edge leaves what the node dominates. The iterated frontier of
some nodes is the least set that holds the frontiers of these nodes and of its own members. Between
the closest strict dominator of a node and one of its predecessors every node has it in its
frontier, and no other node has.
-/

namespace FlowOpt

namespace Digraph

variable {α : Type} {g : Digraph α} {entry t u v w : Nat}

variable (g) in
/-- An edge from a node that `v` dominates leads to `w`, which `v` does not strictly dominate. -/
def InFrontier (entry v w : Nat) : Prop :=
  ∃ u, g.Reachable entry u ∧ g.Dominates entry v u ∧ w ∈ g.succs u ∧ w < g.size ∧
    ¬ (g.Dominates entry v w ∧ v ≠ w)

theorem InFrontier.source_reachable (h : g.InFrontier entry v w) : g.Reachable entry v := by
  obtain ⟨u, hu, hvu, _⟩ := h
  exact hvu.reachable hu

theorem InFrontier.reachable (h : g.InFrontier entry v w) : g.Reachable entry w := by
  obtain ⟨u, hu, _, hw, hlt, _⟩ := h
  exact hu.step hw hlt

theorem InFrontier.exists_pred (h : g.InFrontier entry v w) :
    ∃ u, g.Reachable entry u ∧ w ∈ g.succs u := by
  obtain ⟨u, hu, _, hw, _⟩ := h
  exact ⟨u, hu, hw⟩

/-- A node that dominates a predecessor of `v` and is strictly below the closest strict dominator
of `v` does not strictly dominate `v`. -/
theorem ImmediateDominator.inFrontier (h : g.ImmediateDominator entry t v)
    (hu : g.Reachable entry u) (hv : v ∈ g.succs u) (hlt : v < g.size)
    (htw : g.Dominates entry t w) (hne : w ≠ t) (hwu : g.Dominates entry w u) :
    g.InFrontier entry w v := by
  refine ⟨u, hu, hwu, hv, hlt, fun ⟨hwv, hwne⟩ => ?_⟩
  exact hne ((h.2 w hwv hwne).antisymm htw (htw.reachable (hwu.reachable hu)))

end Digraph

namespace Dominance

open FlowOpt.Digraph

variable {α : Type} {g : Digraph α} {entry : Nat} (hg : g.Symmetric) {t u v w : Nat}
include hg

theorem chain_induction {P : Nat → Prop} (htu : g.Dominates entry t u)
    (hu : g.Reachable entry u) (h0 : P t)
    (hs : ∀ m n, g.ImmediateDominator entry m n → g.Dominates entry t m →
      g.Dominates entry n u → P m → P n) : P u := by
  refine tree_induction hg (P := fun n => g.Dominates entry t n → g.Dominates entry n u → P n)
    (fun htn hnu => ?_) (fun m n hn hne hi ih htn hnu => ?_) hu htu (.refl u)
  · obtain rfl : t = entry := List.mem_singleton.1 (htn _ (.start hu.choose_spec.entry_lt))
    exact h0
  · by_cases htn' : t = n
    · exact htn' ▸ h0
    · have htm := hi.2 t htn htn'
      exact hs m n hi htm hnu (ih htm (hi.1.1.trans hnu))

omit hg in
theorem frontier?_eq (hv : v < g.size) :
    (ofGraph g entry).frontier? v = some ((ofGraph g entry).frontierOf g v) := by
  have hsize : v < (ofGraph g entry).size := (size_ofGraph g entry).symm ▸ hv
  have hfront : (ofGraph g entry).frontiers =
      (Array.range (ofGraph g entry).size).map ((ofGraph g entry).frontierOf g) := rfl
  rw [frontier?, hfront]
  simp [hsize]

omit hg in
theorem tidy_frontierOf : ((ofGraph g entry).frontierOf g v).Tidy := by
  unfold frontierOf
  split
  · exact BitSet.tidy_ofList _ _
  · exact BitSet.tidy_empty _

omit hg in
theorem mem_dominatees : w ∈ ((ofGraph g entry).dominatees v).members ↔
    w < g.size ∧ (ofGraph g entry).dominates v w = true := by
  rw [dominatees, (BitSet.tidy_ofList _ _).mem_members, BitSet.mem_ofList, List.mem_filter,
    List.mem_range, size_ofGraph g entry]
  exact ⟨And.left, fun h => ⟨h, h.1⟩⟩

theorem mem_frontierOf : w ∈ (ofGraph g entry).frontierOf g v ↔ g.InFrontier entry v w := by
  unfold frontierOf
  by_cases hv : g.Reachable entry v
  · rw [if_pos ((isReachable_iff hg).2 hv), BitSet.mem_ofList, List.mem_flatMap,
      size_ofGraph g entry]
    constructor
    · rintro ⟨⟨u, hu, hw⟩, hlt⟩
      obtain ⟨hult, hdom⟩ := mem_dominatees.1 hu
      obtain ⟨hw, hstrict⟩ := List.mem_filter.1 hw
      have hur : g.Reachable entry u := by
        by_contra hn
        exact hn ((dominates_iff_of_unreachable hg hult hn).1 hdom ▸ hv)
      refine ⟨u, hur, (dominates_iff hg hur).1 hdom, hw, hlt, fun hd => ?_⟩
      rw [(strictlyDominates_iff hg (hur.step hw hlt)).2 hd] at hstrict
      cases hstrict
    · rintro ⟨u, hu, hvu, hw, hlt, hn⟩
      refine ⟨⟨u, mem_dominatees.2 ⟨hu.lt, (dominates_iff hg hu).2 hvu⟩, ?_⟩, hlt⟩
      rw [List.mem_filter, Bool.not_eq_true']
      refine ⟨hw, Bool.eq_false_iff.2 fun hs => hn ?_⟩
      exact (strictlyDominates_iff hg (hu.step hw hlt)).1 hs
  · rw [if_neg fun h => hv ((isReachable_iff hg).1 h)]
    exact ⟨fun h => absurd h (BitSet.not_mem_empty _ _), fun h => absurd h.source_reachable hv⟩

/-- Of the dominators of a predecessor of `w`, those that do not strictly dominate `w` are below the
immediate dominator of `w`; the entry has none, and they are all. -/
theorem not_strictly_iff_below (hu : g.Reachable entry u) (hw : w ∈ g.succs u) (hlt : w < g.size)
    (hvu : g.Dominates entry v u) : ¬ (g.Dominates entry v w ∧ v ≠ w) ↔
      ∀ t ∈ (ofGraph g entry).idom? w, g.Dominates entry t v ∧ v ≠ t := by
  have hwr : g.Reachable entry w := hu.step hw hlt
  constructor
  · intro hno t ht
    obtain ⟨-, -, hi⟩ := (idom?_eq_some hg).1 ht
    have habove : ¬ g.Dominates entry v t := fun hvt =>
      hno ⟨hvt.trans hi.1.1, fun heq => hi.1.2 (hi.1.1.antisymm (heq ▸ hvt) hwr)⟩
    have htu : g.Dominates entry t u := hi.dominates_pred hw hlt
    exact ⟨(hvu.total htu hu).resolve_left habove, fun heq => habove (heq ▸ .refl v)⟩
  · rintro hbelow ⟨hvw, hne⟩
    have hwe : w ≠ entry := by
      rintro rfl
      exact hne (hvw.antisymm (.of_entry v) hwr)
    obtain ⟨t, ht, hi⟩ := exists_idom? hg hwr hwe
    obtain ⟨htv, hvt⟩ := hbelow t ht
    exact hvt ((hi.2 v hvw hne).antisymm htv (hi.1.1.reachable hwr))

theorem inFrontier_iff_climbs (hlt : w < g.size) : g.InFrontier entry v w ↔
    ∃ u ∈ g.preds w, g.Reachable entry u ∧ ∃ c, (ofGraph g entry).Climbs u c ∧
      v ∈ c.takeWhile (some · != (ofGraph g entry).idom? w) := by
  have hbound : ∀ u, w ∈ g.succs u → ∀ t ∈ (ofGraph g entry).idom? w, g.Dominates entry t u :=
    fun u hw t ht => ((idom?_eq_some hg).1 ht).2.2.dominates_pred hw hlt
  constructor
  · rintro ⟨u, hu, hvu, hw, -, hno⟩
    obtain ⟨c, hc⟩ := exists_climb hg hu
    refine ⟨u, (hg u w).1 hw, hu, c, hc, (hc.mem_takeWhile hg hu _ (hbound u hw)).2 ⟨hvu, ?_⟩⟩
    exact (not_strictly_iff_below hg hu hw hlt hvu).1 hno
  · rintro ⟨u, hp, hu, c, hc, hmem⟩
    have hw : w ∈ g.succs u := (hg u w).2 hp
    obtain ⟨hvu, hbelow⟩ := (hc.mem_takeWhile hg hu _ (hbound u hw)).1 hmem
    exact ⟨u, hu, hvu, hw, hlt, (not_strictly_iff_below hg hu hw hlt hvu).2 hbelow⟩

omit hg

def frontierAt (d : Dominance) (v : Nat) : List Nat := ((d.frontier? v).map (·.members)).getD []

theorem frontierAt_eq (hv : v < g.size) :
    (ofGraph g entry).frontierAt v = ((ofGraph g entry).frontierOf g v).members := by
  rw [frontierAt, frontier?_eq hv, Option.map_some, Option.getD_some]

theorem frontierAt_of_not_lt (hv : ¬ v < g.size) : (ofGraph g entry).frontierAt v = [] := by
  have hfront : (ofGraph g entry).frontiers =
      (Array.range (ofGraph g entry).size).map ((ofGraph g entry).frontierOf g) := rfl
  rw [frontierAt, frontier?, hfront]
  simp [size_ofGraph g entry, hv]

theorem lt_of_mem_frontierAt (hw : w ∈ (ofGraph g entry).frontierAt v) :
    v < g.size ∧ w < g.size := by
  by_cases hv : v < g.size
  · have hcapacity : ((ofGraph g entry).frontierOf g v).capacity = g.size := by
      unfold frontierOf
      split <;> simp [size_ofGraph g entry]
    rw [frontierAt_eq hv, tidy_frontierOf.mem_members] at hw
    exact ⟨hv, hcapacity ▸ BitSet.lt_capacity_of_mem hw⟩
  · rw [frontierAt_of_not_lt hv] at hw
    cases hw

include hg in
theorem mem_frontierAt : w ∈ (ofGraph g entry).frontierAt v ↔ g.InFrontier entry v w := by
  by_cases hv : v < g.size
  · rw [frontierAt_eq hv, tidy_frontierOf.mem_members, mem_frontierOf hg]
  · rw [frontierAt_of_not_lt hv]
    exact ⟨fun h => absurd h List.not_mem_nil, fun h => absurd h.source_reachable.lt hv⟩

def collect (acc : List Nat × BitSet × BitSet) (w : Nat) : List Nat × BitSet × BitSet :=
  if (acc.2.1.insert w).2 then
    (if (acc.2.2.insert w).2 then w :: acc.1 else acc.1, acc.2.1.add w, acc.2.2.add w)
  else (acc.1, acc.2.1.add w, acc.2.2)

theorem iteratedLoop_succ_cons (d : Dominance) (fuel v : Nat) (work : List Nat)
    (result seen : BitSet) :
    d.iteratedLoop (fuel + 1) (v :: work) result seen =
      (let out := (d.frontierAt v).foldl collect (work, result, seen)
       d.iteratedLoop fuel out.1 out.2.1 out.2.2) := by
  simp only [iteratedLoop]
  refine congrArg (fun step =>
    let out := (d.frontierAt v).foldl step (work, result, seen)
    d.iteratedLoop fuel out.1 out.2.1 out.2.2) ?_
  funext ⟨work, result, seen⟩ w
  simp only [collect, BitSet.insert_fst]

/-- As what was found before has been met, the nodes of a frontier are met like any others. -/
theorem foldl_collect (work nodes : List Nat) (result seen : BitSet) (ht : seen.Tidy)
    (hc : result.capacity = seen.capacity) (hsub : ∀ v, v ∈ result → v ∈ seen) :
    nodes.foldl collect (work, result, seen) =
      ((meet work seen nodes).1, nodes.foldl BitSet.add result, (meet work seen nodes).2) := by
  induction nodes generalizing work result seen with
  | nil => rfl
  | cons w nodes ih =>
    have hsub' : ∀ v, v ∈ result.add w → v ∈ seen.add w := fun v hv => by
      rw [BitSet.mem_add] at hv ⊢
      exact hv.imp (hsub v) fun h => ⟨h.1, hc ▸ h.2⟩
    rw [List.foldl_cons, List.foldl_cons, meet_cons,
      ← ih (if (seen.insert w).2 then w :: work else work) (result.add w) (seen.add w)
        (ht.add w) (by simpa using hc) hsub']
    congr 1
    unfold collect
    by_cases hnew : (result.insert w).2 = true
    · rw [if_pos hnew]
    · have hold : ¬ (seen.insert w).2 = true := fun h => by
        obtain ⟨hlt, hn⟩ := BitSet.insert_snd.1 h
        exact hnew (BitSet.insert_snd.2 ⟨hc ▸ hlt, fun hm => hn (hsub w hm)⟩)
      rw [if_neg hnew, if_neg hold, add_eq_self hold ht]

inductive CollectsTo (d : Dominance) : List Nat → BitSet → BitSet → BitSet → Prop
  | done (result seen : BitSet) : CollectsTo d [] result seen result
  | follow {v : Nat} {work : List Nat} {result seen f out : BitSet} (hf : d.frontier? v = some f)
      (h : CollectsTo d (f.members.foldl collect (work, result, seen)).1
        (f.members.foldl collect (work, result, seen)).2.1
        (f.members.foldl collect (work, result, seen)).2.2 out) :
      CollectsTo d (v :: work) result seen out

def HoldsFrontiers (d : Dominance) (seeds : List Nat) (nodes : Set Nat) : Prop :=
  ∀ v < d.size, v ∈ seeds ∨ v ∈ nodes → ∃ f, d.frontier? v = some f ∧ ∀ w ∈ f, w ∈ nodes

variable {seeds work : List Nat} {result seen : BitSet} {fuel : Nat} {nodes : Set Nat}

theorem holdsFrontiers_iff : (ofGraph g entry).HoldsFrontiers seeds nodes ↔
    ∀ v, v ∈ seeds ∨ v ∈ nodes → ∀ w ∈ (ofGraph g entry).frontierAt v, w ∈ nodes := by
  unfold HoldsFrontiers
  rw [size_ofGraph]
  constructor
  · intro h v hv w hw
    have hlt := (lt_of_mem_frontierAt hw).1
    obtain ⟨f, hf, hsub⟩ := h v hlt hv
    obtain rfl := Option.some.inj ((frontier?_eq hlt).symm.trans hf)
    rw [frontierAt_eq hlt, tidy_frontierOf.mem_members] at hw
    exact hsub w hw
  · intro h v hlt hv
    refine ⟨_, frontier?_eq hlt, fun w hw => h v hv w ?_⟩
    rwa [frontierAt_eq hlt, tidy_frontierOf.mem_members]

variable (g entry) in
/-- What is collected has been met and belongs to every set that holds the frontiers, and the
frontier of everything met that does not wait any more is collected. -/
structure Collected (seeds work : List Nat) (result seen : BitSet) : Prop where
  result_capacity : result.capacity = g.size
  seen_capacity : seen.capacity = g.size
  result_tidy : result.Tidy
  seen_tidy : seen.Tidy
  subset : ∀ v, v ∈ result → v ∈ seen
  seeds_met : ∀ v ∈ seeds, v < g.size → v ∈ seen
  met : ∀ v, v ∈ seen → v ∈ seeds ∨ v ∈ result
  waiting : ∀ v ∈ work, v ∈ seen
  closed : ∀ v w, v ∈ seen → v ∉ work → w ∈ (ofGraph g entry).frontierAt v → w ∈ result
  least : ∀ nodes, (ofGraph g entry).HoldsFrontiers seeds nodes → ∀ w, w ∈ result → w ∈ nodes

theorem Collected.start (seeds : List Nat) :
    Collected g entry seeds (meet [] (BitSet.empty g.size) seeds).1 (BitSet.empty g.size)
      (meet [] (BitSet.empty g.size) seeds).2 where
  result_capacity := rfl
  seen_capacity := capacity_meet _ _ _
  result_tidy := BitSet.tidy_empty _
  seen_tidy := tidy_meet _ _ (BitSet.tidy_empty _)
  subset v h := absurd h (BitSet.not_mem_empty _ _)
  seeds_met v hv hlt := (mem_meet_snd _ _ _).2 (.inr ⟨hv, hlt⟩)
  met v h := ((mem_meet_snd _ _ _).1 h).elim (fun h => absurd h (BitSet.not_mem_empty _ _))
    fun h => .inl h.1
  waiting v h := ((mem_meet_fst _ _ _).1 h).elim (fun h => absurd h (by simp)) And.left
  closed v w h hn := absurd ((mem_meet_fst _ _ _).2 (.inr ⟨h, BitSet.not_mem_empty _ _⟩)) hn
  least _ _ w h := absurd h (BitSet.not_mem_empty _ _)

theorem Collected.step (h : Collected g entry seeds (v :: work) result seen) :
    Collected g entry seeds (meet work seen ((ofGraph g entry).frontierAt v)).1
      (((ofGraph g entry).frontierAt v).foldl BitSet.add result)
      (meet work seen ((ofGraph g entry).frontierAt v)).2 := by
  have hmem : ∀ w, w ∈ ((ofGraph g entry).frontierAt v).foldl BitSet.add result ↔
      w ∈ result ∨ w ∈ (ofGraph g entry).frontierAt v := fun w => by
    rw [BitSet.mem_foldl_add, h.result_capacity]
    exact or_congr_right ⟨And.left, fun hw => ⟨hw, (lt_of_mem_frontierAt hw).2⟩⟩
  have hseen : ∀ w, w ∈ (meet work seen ((ofGraph g entry).frontierAt v)).2 ↔
      w ∈ seen ∨ w ∈ (ofGraph g entry).frontierAt v := fun w => by
    rw [mem_meet_snd, h.seen_capacity]
    exact or_congr_right ⟨And.left, fun hw => ⟨hw, (lt_of_mem_frontierAt hw).2⟩⟩
  have hv : v ∈ seen := h.waiting v List.mem_cons_self
  refine ⟨(BitSet.capacity_foldl_add _ _).trans h.result_capacity,
    (capacity_meet _ _ _).trans h.seen_capacity, BitSet.tidy_foldl_add _ h.result_tidy,
    tidy_meet _ _ h.seen_tidy, fun w hw => ?_, fun w hw hlt => ?_, fun w hw => ?_,
    fun w hw => ?_, fun x w hx hxw hxf => ?_, fun nodes hnodes w hw => ?_⟩
  · exact (hseen w).2 (((hmem w).1 hw).imp_left (h.subset w))
  · exact (hseen w).2 (.inl (h.seeds_met w hw hlt))
  · rcases (hseen w).1 hw with hw | hw
    · exact (h.met w hw).imp_right fun hr => (hmem w).2 (.inl hr)
    · exact .inr ((hmem w).2 (.inr hw))
  · rcases (mem_meet_fst _ _ _).1 hw with hw | hw
    · exact (hseen w).2 (.inl (h.waiting w (List.mem_cons_of_mem _ hw)))
    · exact hw.1
  · rw [mem_meet_fst, not_or, not_and, not_not] at hxw
    by_cases hxv : x = v
    · exact (hmem w).2 (.inr (hxv ▸ hxf))
    · refine (hmem w).2 (.inl (h.closed x w (hxw.2 hx) (fun hm => ?_) hxf))
      exact (List.mem_cons.1 hm).elim hxv hxw.1
  · rcases (hmem w).1 hw with hw | hw
    · exact h.least nodes hnodes w hw
    · exact holdsFrontiers_iff.1 hnodes v ((h.met v hv).imp_right (h.least nodes hnodes v)) w hw

/-- With steps for every node that waits or was not met the loop ends when nothing waits. -/
theorem Collected.loop (h : Collected g entry seeds work result seen)
    (hf : work.length + (g.unmet seen).card ≤ fuel) :
    (ofGraph g entry).CollectsTo work result seen
        ((ofGraph g entry).iteratedLoop fuel work result seen) ∧
      ∃ seen', Collected g entry seeds [] ((ofGraph g entry).iteratedLoop fuel work result seen)
        seen' := by
  induction fuel generalizing work result seen with
  | zero =>
    obtain rfl : work = [] := List.eq_nil_of_length_eq_zero (by omega)
    exact ⟨.done result seen, seen, h⟩
  | succ fuel ih =>
    cases work with
    | nil => exact ⟨.done result seen, seen, h⟩
    | cons v work =>
      have hlen := length_meet work h.seen_capacity ((ofGraph g entry).frontierAt v)
      have hfold := foldl_collect work ((ofGraph g entry).frontierAt v) result seen h.seen_tidy
        (h.result_capacity.trans h.seen_capacity.symm) h.subset
      have hlt : v < g.size :=
        h.seen_capacity ▸ BitSet.lt_capacity_of_mem (h.waiting v List.mem_cons_self)
      rw [List.length_cons] at hf
      rw [iteratedLoop_succ_cons, hfold]
      obtain ⟨hends, hout⟩ := ih h.step (by omega)
      refine ⟨.follow (frontier?_eq hlt) ?_, hout⟩
      rwa [← frontierAt_eq hlt, hfold]

theorem iteratedFrontier_nil (d : Dominance) :
    d.iteratedFrontier [] = BitSet.empty d.size := rfl

theorem exists_collected (g : Digraph α) (entry : Nat) (seeds : List Nat) :
    (ofGraph g entry).CollectsTo (meet [] (BitSet.empty g.size) seeds).1 (BitSet.empty g.size)
        (meet [] (BitSet.empty g.size) seeds).2 ((ofGraph g entry).iteratedFrontier seeds) ∧
      ∃ seen, Collected g entry seeds [] ((ofGraph g entry).iteratedFrontier seeds) seen := by
  unfold iteratedFrontier
  rw [size_ofGraph g entry]
  refine (Collected.start seeds).loop ?_
  rw [length_meet (g := g) [] rfl, List.length_nil, Nat.zero_add]
  exact (card_unmet_le _).trans (Nat.le_succ _)

theorem tidy_iteratedFrontier : ((ofGraph g entry).iteratedFrontier seeds).Tidy :=
  (exists_collected g entry seeds).2.choose_spec.result_tidy

theorem capacity_iteratedFrontier :
    ((ofGraph g entry).iteratedFrontier seeds).capacity = g.size :=
  (exists_collected g entry seeds).2.choose_spec.result_capacity

theorem isLeast_iteratedFrontier (g : Digraph α) (entry : Nat) (seeds : List Nat) :
    IsLeast {nodes | (ofGraph g entry).HoldsFrontiers seeds nodes}
      {v | v ∈ (ofGraph g entry).iteratedFrontier seeds} := by
  obtain ⟨-, seen, h⟩ := exists_collected g entry seeds
  refine ⟨holdsFrontiers_iff.2 fun v hv w hw => ?_, fun nodes hnodes w => h.least nodes hnodes w⟩
  refine h.closed v w (hv.elim (fun hs => ?_) (h.subset v)) List.not_mem_nil hw
  exact h.seeds_met v hs (lt_of_mem_frontierAt hw).1

include hg in
theorem mem_iteratedFrontier (hv : v ∈ seeds ∨ v ∈ (ofGraph g entry).iteratedFrontier seeds)
    (hw : g.InFrontier entry v w) : w ∈ (ofGraph g entry).iteratedFrontier seeds :=
  holdsFrontiers_iff.1 (isLeast_iteratedFrontier g entry seeds).1 v hv w ((mem_frontierAt hg).2 hw)

include hg in
theorem exists_of_mem_iteratedFrontier (hw : w ∈ (ofGraph g entry).iteratedFrontier seeds) :
    ∃ v, (v ∈ seeds ∨ v ∈ (ofGraph g entry).iteratedFrontier seeds) ∧
      g.InFrontier entry v w := by
  -- The members with this property hold the frontiers already.
  have hholds := (isLeast_iteratedFrontier g entry seeds).1
  have hsmall : {v | v ∈ (ofGraph g entry).iteratedFrontier seeds} ⊆ {w | ∃ v,
      (v ∈ seeds ∨ v ∈ (ofGraph g entry).iteratedFrontier seeds) ∧ g.InFrontier entry v w} := by
    refine (isLeast_iteratedFrontier g entry seeds).2 (holdsFrontiers_iff.2 ?_)
    rintro v hv x hx
    refine ⟨v, hv.imp_right ?_, (mem_frontierAt hg).1 hx⟩
    rintro ⟨u, hu, hf⟩
    exact holdsFrontiers_iff.1 hholds u hu v ((mem_frontierAt hg).2 hf)
  exact hsmall hw

theorem holdsFrontiers_congr (h : ∀ v < g.size, v ∈ seeds ↔ v ∈ work) :
    (ofGraph g entry).HoldsFrontiers seeds nodes ↔ (ofGraph g entry).HoldsFrontiers work nodes := by
  unfold HoldsFrontiers
  rw [size_ofGraph]
  exact forall₂_congr fun v hv => by rw [h v hv]

/-- Seeds that name the same nodes have the same iterated frontier. -/
theorem iteratedFrontier_congr (h : ∀ v < g.size, v ∈ seeds ↔ v ∈ work) :
    (ofGraph g entry).iteratedFrontier seeds = (ofGraph g entry).iteratedFrontier work := by
  refine tidy_iteratedFrontier.ext tidy_iteratedFrontier
    (capacity_iteratedFrontier.trans capacity_iteratedFrontier.symm) fun v => ?_
  have hleast := isLeast_iteratedFrontier g entry work
  simp only [← holdsFrontiers_congr h] at hleast
  exact Set.ext_iff.1 ((isLeast_iteratedFrontier g entry seeds).unique hleast) v

/-- The collecting comes to an end, with what it collected as the least set that holds the frontiers
of the seeds that are nodes and of its own members. Neither the order nor the repetitions of the
seeds matter, nor those that are no nodes. -/
theorem iteratedFrontier_least (g : Digraph α) (entry : Nat) (seeds : List Nat) :
    (ofGraph g entry).CollectsTo (meet [] (BitSet.empty (ofGraph g entry).size) seeds).1
        (BitSet.empty (ofGraph g entry).size)
        (meet [] (BitSet.empty (ofGraph g entry).size) seeds).2
        ((ofGraph g entry).iteratedFrontier seeds) ∧
      IsLeast {nodes | (ofGraph g entry).HoldsFrontiers seeds nodes}
        {v | v ∈ (ofGraph g entry).iteratedFrontier seeds} ∧
      (∀ v, v ∈ ((ofGraph g entry).iteratedFrontier seeds).members ↔
        v ∈ (ofGraph g entry).iteratedFrontier seeds) ∧
      ∀ others, (∀ v < (ofGraph g entry).size, v ∈ seeds ↔ v ∈ others) →
        (ofGraph g entry).iteratedFrontier seeds = (ofGraph g entry).iteratedFrontier others := by
  refine ⟨?_, isLeast_iteratedFrontier g entry seeds,
    fun v => tidy_iteratedFrontier.mem_members, fun others h => iteratedFrontier_congr ?_⟩
  · rw [size_ofGraph]
    exact (exists_collected g entry seeds).1
  · rwa [size_ofGraph] at h

theorem crossing_iteratedFrontier :
    (∀ v < (ofGraph crossing 0).size, v ∈ [3, 2, 9, 3] ↔ v ∈ [2, 3]) ∧
      (ofGraph crossing 0).iteratedFrontier [3, 2, 9, 3] =
        (ofGraph crossing 0).iteratedFrontier [2, 3] ∧
      ((ofGraph crossing 0).iteratedFrontier [3, 2, 9, 3]).members = [1, 2] ∧
      IsLeast {nodes | (ofGraph crossing 0).HoldsFrontiers [3, 2, 9, 3] nodes}
        {v | v ∈ (ofGraph crossing 0).iteratedFrontier [3, 2, 9, 3]} := by
  obtain ⟨-, hleast, -, hcongr⟩ := iteratedFrontier_least crossing 0 [3, 2, 9, 3]
  have hsize : (ofGraph crossing 0).size = 5 := size_ofGraph crossing 0
  have hsame : ∀ v < (ofGraph crossing 0).size, v ∈ [3, 2, 9, 3] ↔ v ∈ [2, 3] := by
    rw [hsize]
    decide
  exact ⟨hsame, hcongr [2, 3] hsame, by decide +kernel, hleast⟩

/-- A node is in the frontier of another iff this one is on the way up from a reachable predecessor
of it, before the way reaches its immediate dominator. -/
theorem frontiers_climb (hg : g.Symmetric) (entry : Nat) : ∀ v < g.size,
    ∃ f, (ofGraph g entry).frontier? v = some f ∧
      (∀ w < g.size, w ∈ f ↔ ∃ u ∈ g.preds w, g.Reachable entry u ∧
        ∃ c, (ofGraph g entry).Climbs u c ∧
          v ∈ c.takeWhile (some · != (ofGraph g entry).idom? w)) ∧
      (¬ g.Reachable entry v → f.members = []) := by
  intro v hv
  refine ⟨_, frontier?_eq hv, fun w hw => ?_, fun hn => ?_⟩
  · rw [mem_frontierOf hg, inFrontier_iff_climbs hg hw]
  · refine List.eq_nil_iff_forall_not_mem.2 fun w hw => hn ?_
    exact ((mem_frontierOf hg).1 (tidy_frontierOf.mem_members.1 hw)).source_reachable

theorem crossing_frontiers : crossing.Symmetric ∧ 2 < crossing.size ∧
    ∃ f, (ofGraph crossing 0).frontier? 2 = some f ∧ f.members = [1] ∧
      (∀ w < crossing.size, w ∈ f ↔ ∃ u ∈ crossing.preds w, crossing.Reachable 0 u ∧
        ∃ c, (ofGraph crossing 0).Climbs u c ∧
          2 ∈ c.takeWhile (some · != (ofGraph crossing 0).idom? w)) ∧
      (¬ crossing.Reachable 0 2 → f.members = []) := by
  obtain ⟨f, hf, hmem, hempty⟩ := frontiers_climb crossing_symmetric 0 2 (by decide)
  have hmembers : ((ofGraph crossing 0).frontier? 2).map (·.members) = some [1] := by
    decide +kernel
  rw [hf] at hmembers
  exact ⟨crossing_symmetric, by decide, f, hf, Option.some.inj hmembers, hmem, hempty⟩

end Dominance

end FlowOpt
