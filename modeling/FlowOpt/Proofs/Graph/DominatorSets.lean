import FlowOpt.Graph.Dominance
import FlowOpt.Proofs.Graph.Digraph
import FlowOpt.Proofs.Graph.Search

/-!
# The dominator sets are path dominance

The sets start above path dominance and a pass only ever takes nodes from them. So the passes end,
at sets that no pass changes, and of those path dominance is the greatest: a node that is left in
the set of another lies on every path to it, by induction on the path. Adjacency must be symmetric,
since paths follow successors and passes look at predecessors.
-/

namespace FlowOpt.Digraph

variable {α : Type} (g : Digraph α)

/-- Every path from the entry to `b` passes through `a`. -/
def Dominates (entry a b : Nat) : Prop := ∀ p, g.Path entry b p → a ∈ p

def setAt (sets : Array BitSet) (v : Nat) : BitSet := sets[v]?.getD (BitSet.empty g.size)

def initialSets (entry : Nat) : Array BitSet :=
  (Array.range g.size).map fun v =>
    if v = entry || !(g.reachable entry).contains v then BitSet.ofList g.size [v]
    else g.reachable entry

/-- Passes without a bound: the last is the first that changes nothing. -/
inductive PassesTo (entry : Nat) : Array BitSet → Array BitSet → Nat → Prop
  | last {sets out : Array BitSet}
      (h : g.dominatorPass entry (g.reachable entry) (g.reversePostorder entry) sets =
        (out, false)) : PassesTo entry sets out 1
  | again {sets mid out : Array BitSet} {n : Nat}
      (h : g.dominatorPass entry (g.reachable entry) (g.reversePostorder entry) sets =
        (mid, true)) (hn : PassesTo entry mid out n) : PassesTo entry sets out (n + 1)

/-- The sets of the nodes hold nodes, those of the entry and of unreachable nodes only themselves;
every set holds all dominators of its node, and all that a pass would make of it. -/
structure Approximates (entry : Nat) (sets : Array BitSet) : Prop where
  size_eq : sets.size = g.size
  shape : ∀ v, (g.setAt sets v).Tidy ∧ (g.setAt sets v).capacity = g.size
  entry_set : ∀ a, entry < g.size → (a ∈ g.setAt sets entry ↔ a = entry)
  unreachable_set : ∀ v, v < g.size → ¬ g.Reachable entry v →
    g.setAt sets v = BitSet.ofList g.size [v]
  dominators : ∀ a b, g.Reachable entry b → g.Dominates entry a b → a ∈ g.setAt sets b
  shrinks : ∀ a v, g.Reachable entry v → v ≠ entry →
    a ∈ g.commonDominators (g.reachable entry) sets v → a ∈ g.setAt sets v

def totalSize (sets : Array BitSet) : Nat := ∑ v ∈ Finset.range g.size, (g.setAt sets v).size

variable {g} {entry : Nat} {sets : Array BitSet} {a b v w : Nat}

theorem Dominates.refl (v : Nat) : g.Dominates entry v v := fun _ hp => hp.mem_last

theorem Dominates.of_entry (v : Nat) : g.Dominates entry entry v := fun _ hp => hp.mem_entry

theorem Dominates.of_succs (h : ∀ w ∈ g.succs entry, w = a) (hne : v ≠ entry) :
    g.Dominates entry a v := by
  intro p hp
  induction hp with
  | start => exact absurd rfl hne
  | @step u w p hp hw hlt ih =>
    by_cases hu : u = entry
    · rw [h w (hu ▸ hw)]
      exact List.mem_append_right p List.mem_cons_self
    · exact List.mem_append_left _ (ih hu)

theorem Dominates.reachable (h : g.Dominates entry a b) (hb : g.Reachable entry b) :
    g.Reachable entry a := by
  obtain ⟨p, hp⟩ := hb
  exact hp.reachable_of_mem (h p hp)

theorem setAt_setIfInBounds (s : BitSet) (hv : v < sets.size) :
    g.setAt (sets.setIfInBounds v s) w = if w = v then s else g.setAt sets w := by
  unfold setAt
  rw [Array.getElem?_setIfInBounds]
  by_cases h : w = v
  · subst h
    simp [hv]
  · rw [if_neg (Ne.symm h), if_neg h]

section Common

variable {live : BitSet}

theorem foldl_inter (preds : List Nat) (hs : ∀ v, (g.setAt sets v).Tidy ∧
    (g.setAt sets v).capacity = g.size) (acc : BitSet) (hc : acc.capacity = g.size)
    (ht : acc.Tidy) :
    let out := preds.foldl (fun acc p => acc.inter (g.setAt sets p)) acc
    (out.Tidy ∧ out.capacity = g.size) ∧
      (a ∈ out ↔ a ∈ acc ∧ ∀ p ∈ preds, a ∈ g.setAt sets p) := by
  induction preds generalizing acc with
  | nil => exact ⟨⟨ht, hc⟩, by simp⟩
  | cons p preds ih =>
    have hcap : acc.capacity = (g.setAt sets p).capacity := hc.trans (hs p).2.symm
    obtain ⟨hshape, hmem⟩ := ih (acc.inter (g.setAt sets p)) hc ht.inter
    refine ⟨hshape, ?_⟩
    rw [List.foldl_cons, hmem, BitSet.mem_inter hcap, List.forall_mem_cons, and_assoc]

theorem commonDominators_eq (live : BitSet) (sets : Array BitSet) (v : Nat) :
    g.commonDominators live sets v =
      (((g.preds v).filter live.contains).foldl
        (fun acc p => acc.inter (g.setAt sets p)) live).add v := rfl

variable (hs : ∀ v, (g.setAt sets v).Tidy ∧ (g.setAt sets v).capacity = g.size)
include hs

theorem shape_commonDominators (entry v : Nat) :
    (g.commonDominators (g.reachable entry) sets v).Tidy ∧
      (g.commonDominators (g.reachable entry) sets v).capacity = g.size := by
  obtain ⟨⟨ht, hc⟩, _⟩ := foldl_inter (a := 0) ((g.preds v).filter (g.reachable entry).contains)
    hs (g.reachable entry) (capacity_reachable g entry) (tidy_reachable g entry)
  exact ⟨ht.add v, hc⟩

/-- What a pass makes of a node's set: the nodes common to the sets of its reachable predecessors,
and the node. -/
theorem mem_commonDominators (hv : v < g.size) :
    a ∈ g.commonDominators (g.reachable entry) sets v ↔
      (g.Reachable entry a ∧ ∀ p ∈ g.preds v, g.Reachable entry p → a ∈ g.setAt sets p) ∨
        a = v := by
  obtain ⟨⟨_, hc⟩, hmem⟩ := foldl_inter (a := a)
    ((g.preds v).filter (g.reachable entry).contains) hs (g.reachable entry)
    (capacity_reachable g entry) (tidy_reachable g entry)
  rw [commonDominators_eq, BitSet.mem_add, hmem, hc, mem_reachable]
  simp only [List.mem_filter, and_imp, ← BitSet.mem_iff_contains, mem_reachable, hv, and_true]

end Common

section Step

theorem setAt_initialSets (hv : v < g.size) : g.setAt (g.initialSets entry) v =
    if v = entry ∨ ¬ v ∈ g.reachable entry then BitSet.ofList g.size [v]
    else g.reachable entry := by
  simp [setAt, initialSets, hv, BitSet.mem_iff_contains]

theorem setAt_of_not_lt (hs : sets.size = g.size) (hv : ¬ v < g.size) :
    g.setAt sets v = BitSet.empty g.size := by
  have hnone : sets[v]? = none := Array.getElem?_eq_none (by omega)
  simp [setAt, hnone]

theorem initialSets_approximates (g : Digraph α) (entry : Nat) :
    g.Approximates entry (g.initialSets entry) := by
  have hsize : (g.initialSets entry).size = g.size := by simp [initialSets]
  have hlive : ∀ v, g.Reachable entry v → v ≠ entry →
      g.setAt (g.initialSets entry) v = g.reachable entry := by
    intro v hv hne
    rw [setAt_initialSets hv.lt, if_neg (by simp [hne, mem_reachable, hv])]
  have hshape : ∀ v, (g.setAt (g.initialSets entry) v).Tidy ∧
      (g.setAt (g.initialSets entry) v).capacity = g.size := by
    intro v
    by_cases hv : v < g.size
    · rw [setAt_initialSets hv]
      split
      · exact ⟨BitSet.tidy_ofList _ _, BitSet.capacity_ofList _ _⟩
      · exact ⟨tidy_reachable g entry, capacity_reachable g entry⟩
    · rw [setAt_of_not_lt hsize hv]
      exact ⟨BitSet.tidy_empty _, rfl⟩
  refine ⟨hsize, hshape, fun a h => ?_, fun v hv hn => ?_, fun a b hb hab => ?_,
    fun a v hv hne ha => ?_⟩
  · rw [setAt_initialSets h, if_pos (.inl rfl), BitSet.mem_ofList, List.mem_singleton]
    exact ⟨And.left, fun ha => ⟨ha, ha ▸ h⟩⟩
  · rw [setAt_initialSets hv, if_pos (.inr (mem_reachable.not.2 hn))]
  · by_cases hbe : b = entry
    · subst hbe
      obtain rfl : a = b := List.mem_singleton.1 (hab _ (.start hb.lt))
      rw [setAt_initialSets hb.lt, if_pos (.inl rfl), BitSet.mem_ofList]
      exact ⟨List.mem_singleton_self _, hb.lt⟩
    · rw [hlive b hb hbe, mem_reachable]
      exact hab.reachable hb
  · rw [hlive v hv hne, mem_reachable]
    rcases (mem_commonDominators hshape hv.lt).1 ha with ⟨ha, _⟩ | rfl
    · exact ha
    · exact hv

/-- A pass makes of a node's set no less than the node's dominators: a dominator of a node other
than itself dominates each of its reachable predecessors. -/
theorem Approximates.dominators_common (h : g.Approximates entry sets) (hg : g.Symmetric)
    (hb : g.Reachable entry b) (hab : g.Dominates entry a b) :
    a ∈ g.commonDominators (g.reachable entry) sets b := by
  rw [mem_commonDominators h.shape hb.lt]
  by_cases hne : a = b
  · exact .inr hne
  · refine .inl ⟨hab.reachable hb, fun p hp hr => h.dominators a p hr fun q hq => ?_⟩
    have hmem := hab (q ++ [b]) (hq.step ((hg p b).2 hp) hb.lt)
    rcases List.mem_append.1 hmem with hq | hq
    · exact hq
    · exact absurd (List.mem_singleton.1 hq) hne

theorem Approximates.update (h : g.Approximates entry sets) (hg : g.Symmetric)
    (hv : g.Reachable entry v) (hne : v ≠ entry) :
    g.Approximates entry
      (sets.setIfInBounds v (g.commonDominators (g.reachable entry) sets v)) := by
  have hvs : v < sets.size := h.size_eq ▸ hv.lt
  have hset : ∀ u, g.setAt
      (sets.setIfInBounds v (g.commonDominators (g.reachable entry) sets v)) u =
      if u = v then g.commonDominators (g.reachable entry) sets v else g.setAt sets u :=
    fun u => setAt_setIfInBounds _ hvs
  have hsub : ∀ u c, c ∈ g.setAt
      (sets.setIfInBounds v (g.commonDominators (g.reachable entry) sets v)) u →
      c ∈ g.setAt sets u := by
    intro u c hc
    rw [hset] at hc
    split at hc
    · next hu => exact hu ▸ h.shrinks c v hv hne hc
    · exact hc
  have hshape : ∀ u, (g.setAt
      (sets.setIfInBounds v (g.commonDominators (g.reachable entry) sets v)) u).Tidy ∧
      (g.setAt (sets.setIfInBounds v (g.commonDominators (g.reachable entry) sets v))
        u).capacity = g.size := by
    intro u
    rw [hset]
    split
    · exact shape_commonDominators h.shape entry v
    · exact h.shape u
  refine ⟨by simpa using h.size_eq, hshape, fun a he => ?_, fun u hu hn => ?_,
    fun a b hb hab => ?_, fun a u hu hue ha => ?_⟩
  · rw [hset, if_neg (Ne.symm hne)]
    exact h.entry_set a he
  · have huv : u ≠ v := fun huv => hn (huv ▸ hv)
    rw [hset, if_neg huv]
    exact h.unreachable_set u hu hn
  · rw [hset]
    split
    · next hbv => exact hbv ▸ h.dominators_common hg hb hab
    · exact h.dominators a b hb hab
  · have ha' : a ∈ g.commonDominators (g.reachable entry) sets u := by
      rw [mem_commonDominators hshape hu.lt] at ha
      rw [mem_commonDominators h.shape hu.lt]
      exact ha.imp_left fun hc => ⟨hc.1, fun p hp hr => hsub p a (hc.2 p hp hr)⟩
    rw [hset]
    split
    · next huv => exact huv ▸ ha'
    · exact h.shrinks a u hu hue ha'

theorem Approximates.totalSize_update_lt (h : g.Approximates entry sets)
    (hv : g.Reachable entry v) (hne : v ≠ entry)
    (hch : some (g.commonDominators (g.reachable entry) sets v) ≠ sets[v]?) :
    g.totalSize (sets.setIfInBounds v (g.commonDominators (g.reachable entry) sets v)) <
      g.totalSize sets := by
  have hvs : v < sets.size := h.size_eq ▸ hv.lt
  obtain ⟨ht, hc⟩ := shape_commonDominators h.shape entry v
  obtain ⟨ht', hc'⟩ := h.shape v
  have hsub := fun n => h.shrinks n v hv hne
  have hlost : ∃ n, n ∈ g.setAt sets v ∧
      ¬ n ∈ g.commonDominators (g.reachable entry) sets v := by
    by_contra hno
    push Not at hno
    refine hch ?_
    rw [ht.ext ht' (hc.trans hc'.symm) fun n => ⟨hsub n, hno n⟩, setAt]
    simp [hvs]
  obtain ⟨n, hn, hnot⟩ := hlost
  unfold totalSize
  refine Finset.sum_lt_sum (fun u _ => ?_) ⟨v, Finset.mem_range.2 hv.lt, ?_⟩
  · rw [setAt_setIfInBounds _ hvs]
    split
    · next huv => exact huv ▸ ht.size_le_size ht' hsub
    · exact le_rfl
  · rw [setAt_setIfInBounds _ hvs, if_pos rfl]
    exact ht.size_lt_size ht' hsub hn hnot

theorem Approximates.totalSize_le (h : g.Approximates entry sets) :
    g.totalSize sets ≤ g.size * g.size := by
  have hle : ∀ v ∈ Finset.range g.size, (g.setAt sets v).size ≤ g.size := fun v _ =>
    ((h.shape v).1.size_le).trans (h.shape v).2.le
  simpa [totalSize] using Finset.sum_le_card_nsmul _ _ _ hle

end Step

section Size

theorem size_dominatorPass (entry : Nat) (live : BitSet) (order : List Nat) (sets : Array BitSet) :
    (g.dominatorPass entry live order sets).1.size = sets.size := by
  unfold dominatorPass
  generalize false = changed
  induction order generalizing sets changed with
  | nil => rfl
  | cons v order ih =>
    rw [List.foldl_cons, ih]
    dsimp only
    split
    · rfl
    · split
      · rfl
      · exact Array.size_setIfInBounds

theorem size_dominatorLoop (entry : Nat) (live : BitSet) (order : List Nat) (fuel : Nat)
    (sets : Array BitSet) (passes : Nat) :
    (g.dominatorLoop entry live order fuel sets passes).1.size = sets.size := by
  induction fuel generalizing sets passes with
  | zero => rfl
  | succ fuel ih =>
    have hpass := size_dominatorPass (g := g) entry live order sets
    rw [dominatorLoop]
    dsimp only
    split
    · rw [ih, hpass]
    · exact hpass

theorem size_dominatorSets (g : Digraph α) (entry : Nat) :
    (g.dominatorSets entry).1.size = g.size := by
  have hsize : (g.initialSets entry).size = g.size := by simp [initialSets]
  exact (size_dominatorLoop entry _ _ _ (g.initialSets entry) 0).trans hsize

end Size

section Passes

def StableOn (g : Digraph α) (entry : Nat) (sets : Array BitSet) (order : List Nat) : Prop :=
  ∀ v ∈ order, v ≠ entry → sets[v]? = some (g.commonDominators (g.reachable entry) sets v)

theorem dominatorPass_fold (hg : g.Symmetric) (order : List Nat) (c : Bool)
    (h : g.Approximates entry sets) (ho : ∀ v ∈ order, g.Reachable entry v) :
    let out := order.foldl (fun (sets, changed) v =>
      if v = entry then (sets, changed)
      else
        let next := g.commonDominators (g.reachable entry) sets v
        if some next = sets[v]? then (sets, changed) else (sets.setIfInBounds v next, true))
      (sets, c)
    g.Approximates entry out.1 ∧
      ((out = (sets, c) ∧ g.StableOn entry sets order) ∨
        (out.2 = true ∧ g.totalSize out.1 < g.totalSize sets)) := by
  induction order generalizing sets c with
  | nil => exact ⟨h, .inl ⟨rfl, by simp [StableOn]⟩⟩
  | cons v order ih =>
    have hrest : ∀ u ∈ order, g.Reachable entry u := fun u hu => ho u (List.mem_cons_of_mem _ hu)
    have hkeep : (v ≠ entry → sets[v]? =
        some (g.commonDominators (g.reachable entry) sets v)) →
        g.StableOn entry sets order → g.StableOn entry sets (v :: order) := by
      intro hv hs u hu hne
      rcases List.mem_cons.1 hu with rfl | hu
      · exact hv hne
      · exact hs u hu hne
    simp only [List.foldl_cons]
    by_cases hve : v = entry
    · rw [if_pos hve]
      obtain ⟨ha, hcase⟩ := ih c h hrest
      exact ⟨ha, hcase.imp_left fun hs => ⟨hs.1, hkeep (absurd hve) hs.2⟩⟩
    · rw [if_neg hve]
      by_cases hsame : some (g.commonDominators (g.reachable entry) sets v) = sets[v]?
      · rw [if_pos hsame]
        obtain ⟨ha, hcase⟩ := ih c h hrest
        exact ⟨ha, hcase.imp_left fun hs => ⟨hs.1, hkeep (fun _ => hsame.symm) hs.2⟩⟩
      · have hv := ho v List.mem_cons_self
        have hlt := h.totalSize_update_lt hv hve hsame
        rw [if_neg hsame]
        obtain ⟨ha, hcase⟩ := ih true (h.update hg hv hve) hrest
        refine ⟨ha, .inr ?_⟩
        rcases hcase with ⟨hout, _⟩ | ⟨hout, hless⟩
        · exact ⟨by rw [hout], by rw [hout]; exact hlt⟩
        · exact ⟨hout, hless.trans hlt⟩

/-- A pass that reports no change leaves stable sets, and one that reports a change leaves smaller
ones. -/
theorem Approximates.pass (hg : g.Symmetric) (h : g.Approximates entry sets) :
    let out := g.dominatorPass entry (g.reachable entry) (g.reversePostorder entry) sets
    g.Approximates entry out.1 ∧
      ((out = (sets, false) ∧ g.StableOn entry sets (g.reversePostorder entry)) ∨
        (out.2 = true ∧ g.totalSize out.1 < g.totalSize sets)) :=
  dominatorPass_fold hg _ false h fun _ hv => mem_reversePostorder.1 hv

/-- With more passes allowed than the sets have members, the passes end, and at stable sets. -/
theorem Approximates.loop (hg : g.Symmetric) {fuel : Nat} (passes : Nat)
    (h : g.Approximates entry sets) (hf : g.totalSize sets < fuel) :
    ∃ out n, g.dominatorLoop entry (g.reachable entry) (g.reversePostorder entry) fuel sets
        passes = (out, passes + n) ∧ g.PassesTo entry sets out n ∧
      g.Approximates entry out ∧ g.StableOn entry out (g.reversePostorder entry) := by
  induction fuel generalizing sets passes with
  | zero => exact absurd hf (Nat.not_lt_zero _)
  | succ fuel ih =>
    obtain ⟨ha, hcase⟩ := h.pass hg
    rcases hcase with ⟨hout, hstable⟩ | ⟨hchanged, hless⟩
    · refine ⟨sets, 1, ?_, .last hout, h, hstable⟩
      rw [dominatorLoop, hout]
      rfl
    · obtain ⟨out, n, hloop, hpasses, ha', hstable⟩ :=
        ih (passes + 1) ha (hless.trans_le (Nat.le_of_lt_succ hf))
      refine ⟨out, n + 1, ?_, .again (Prod.ext rfl hchanged) hpasses, ha', hstable⟩
      rw [dominatorLoop]
      simp only [hchanged, if_true]
      rw [hloop, Nat.add_assoc, Nat.add_comm 1 n]

end Passes

/-- Stable sets hold dominators only: what is in the set of the last node of a path is on the
path. -/
theorem Approximates.dominates_of_mem (hg : g.Symmetric) (h : g.Approximates entry sets)
    (hs : g.StableOn entry sets (g.reversePostorder entry)) (hb : g.Reachable entry b)
    (ha : a ∈ g.setAt sets b) : g.Dominates entry a b := by
  intro p hp
  induction hp generalizing a with
  | start hlt =>
    rw [h.entry_set a hlt] at ha
    exact List.mem_singleton.2 ha
  | @step u w q hq hw hlt ih =>
    have hu : g.Reachable entry u := ⟨q, hq⟩
    by_cases hwe : w = entry
    · rw [hwe, h.entry_set a hq.entry_lt] at ha
      exact List.mem_append_left _ (ha ▸ hq.mem_entry)
    · have hset := hs w (mem_reversePostorder.2 (hu.step hw hlt)) hwe
      rw [setAt, hset, Option.getD_some, mem_commonDominators h.shape hlt] at ha
      rcases ha with ⟨_, hall⟩ | rfl
      · exact List.mem_append_left _ (ih hu (hall u ((hg u w).1 hw) hu))
      · exact List.mem_append_right _ (List.mem_singleton_self _)

theorem dominatorSets_eq_loop (g : Digraph α) (entry : Nat) : g.dominatorSets entry =
    g.dominatorLoop entry (g.reachable entry) (g.reversePostorder entry) (g.size * g.size + 1)
      (g.initialSets entry) 0 := rfl

/-- The sets that come out are stable, and the unbounded passes end there. -/
theorem dominatorSets_passesTo (hg : g.Symmetric) (entry : Nat) :
    g.PassesTo entry (g.initialSets entry) (g.dominatorSets entry).1
        (g.dominatorSets entry).2 ∧
      g.Approximates entry (g.dominatorSets entry).1 ∧
      g.StableOn entry (g.dominatorSets entry).1 (g.reversePostorder entry) := by
  have h := initialSets_approximates g entry
  obtain ⟨out, n, hloop, hpasses, ha, hstable⟩ :=
    Approximates.loop hg 0 h (Nat.lt_succ_of_le h.totalSize_le)
  rw [dominatorSets_eq_loop, hloop, Nat.zero_add]
  exact ⟨hpasses, ha, hstable⟩

theorem mem_dominatorSets (hg : g.Symmetric) (hb : g.Reachable entry b) :
    a ∈ g.setAt (g.dominatorSets entry).1 b ↔ g.Dominates entry a b := by
  obtain ⟨_, ha, hs⟩ := dominatorSets_passesTo hg entry
  exact ⟨ha.dominates_of_mem hg hs hb, ha.dominators a b hb⟩

theorem dominatorSets_of_unreachable (hg : g.Symmetric) (hb : b < g.size)
    (hn : ¬ g.Reachable entry b) :
    g.setAt (g.dominatorSets entry).1 b = BitSet.ofList g.size [b] :=
  (dominatorSets_passesTo hg entry).2.1.unreachable_set b hb hn

theorem getElem?_dominatorSets (hg : g.Symmetric) (hb : b < g.size) :
    (g.dominatorSets entry).1[b]? = some (g.setAt (g.dominatorSets entry).1 b) := by
  have hlt : b < (g.dominatorSets entry).1.size :=
    (dominatorSets_passesTo hg entry).2.1.size_eq ▸ hb
  simp [setAt, hlt]

/-- The passes end, whether the entry is a node or not. After them the set of a reachable node
holds just its dominators, and that of an unreachable one just itself. -/
theorem dominatorSets_compute_dominance (hg : g.Symmetric) (entry : Nat) :
    g.SearchesEnd entry ∧
      g.PassesTo entry (g.initialSets entry) (g.dominatorSets entry).1
        (g.dominatorSets entry).2 ∧
      ∀ b, b < g.size → ∃ s, (g.dominatorSets entry).1[b]? = some s ∧
        (g.Reachable entry b → ∀ a, a ∈ s ↔ ∀ p, g.Path entry b p → a ∈ p) ∧
        (¬ g.Reachable entry b → s = BitSet.ofList g.size [b]) := by
  refine ⟨searchesEnd g entry, (dominatorSets_passesTo hg entry).1, fun b hb => ?_⟩
  exact ⟨_, getElem?_dominatorSets hg hb, fun hr a => mem_dominatorSets hg hr,
    dominatorSets_of_unreachable hg hb⟩

def crossing : Digraph Unit where
  nodes := #[(), (), (), (), ()]
  outgoing := #[[1, 2], [2, 3], [1], [], [3]]
  incoming := #[[], [0, 2], [0, 1], [1, 4], []]
  edgeCount := 6

theorem crossing_symmetric : crossing.Symmetric :=
  have h : ofEdges [(), (), (), (), ()] [(0, 1), (0, 2), (1, 2), (2, 1), (1, 3), (4, 3)] =
      .ok crossing := rfl
  (ofEdges_ok h).1.symmetric

theorem crossing_dominatorSets : crossing.Symmetric ∧ crossing.SearchesEnd 0 ∧
    crossing.PassesTo 0 (crossing.initialSets 0) (crossing.dominatorSets 0).1
      (crossing.dominatorSets 0).2 ∧
    ∀ b, b < 5 → ∃ s, (crossing.dominatorSets 0).1[b]? = some s ∧
      (crossing.Reachable 0 b → ∀ a, a ∈ s ↔ ∀ p, crossing.Path 0 b p → a ∈ p) ∧
      (¬ crossing.Reachable 0 b → s = BitSet.ofList 5 [b]) :=
  ⟨crossing_symmetric, dominatorSets_compute_dominance crossing_symmetric 0⟩

end FlowOpt.Digraph
