import FlowOpt.Proofs.Graph.DominatorTree

/-!
# Up and down the dominator tree

The way up from a reachable node passes its dominators, and nothing else, and ends at the entry. A
walk down from the entry, whichever of the waiting nodes it visits next, never meets a node twice;
when nothing waits any more, everything reachable has been visited.
-/

namespace FlowOpt.Dominance

open FlowOpt.Digraph

/-- The nodes from `v` upwards, each the immediate dominator of the one before, until one has
none. -/
inductive Climbs (d : Dominance) : Nat → List Nat → Prop
  | stop {v : Nat} (h : d.idom? v = none) : Climbs d v [v]
  | up {v u : Nat} {p : List Nat} (h : d.idom? v = some u) (hp : Climbs d u p) : Climbs d v (v :: p)

/-- A walk under way: the nodes visited so far and those that wait. One that waits is visited next,
and then its children wait. -/
inductive Walks (d : Dominance) : List Nat → List Nat → Prop
  | start : Walks d [] [d.entry]
  | visit {seen before after : List Nat} {v : Nat} (h : Walks d seen (before ++ v :: after)) :
      Walks d (seen ++ [v]) (before ++ d.children v ++ after)

variable {α : Type} {g : Digraph α} {entry a t u v w : Nat} {c p seen waiting : List Nat}

section Climb

variable (hg : g.Symmetric)
include hg

theorem idom?_eq_none : (ofGraph g entry).idom? v = none ↔ v = entry ∨ ¬ g.Reachable entry v := by
  constructor
  · intro h
    by_contra hne
    rw [not_or, not_not] at hne
    obtain ⟨u, hu, -⟩ := exists_idom? hg hne.2 hne.1
    rw [hu] at h
    cases h
  · intro h
    by_contra hsome
    obtain ⟨u, hu⟩ := Option.ne_none_iff_exists'.1 hsome
    obtain ⟨hv, hne, -⟩ := (idom?_eq_some hg).1 hu
    exact h.elim hne fun hn => hn hv

theorem exists_climb (hv : g.Reachable entry v) : ∃ c, (ofGraph g entry).Climbs v c := by
  refine tree_induction hg (P := fun v => ∃ c, (ofGraph g entry).Climbs v c)
    ⟨[entry], .stop ((idom?_eq_none hg).2 (.inl rfl))⟩ (fun u w hw hne hi hu => ?_) hv
  obtain ⟨c, hc⟩ := hu
  exact ⟨w :: c, .up ((idom?_eq_some hg).2 ⟨hw, hne, hi⟩) hc⟩

theorem Climbs.getLast? (h : (ofGraph g entry).Climbs v c) (hv : g.Reachable entry v) :
    c.getLast? = some entry := by
  induction h with
  | stop hnone =>
    obtain rfl := ((idom?_eq_none hg).1 hnone).resolve_right (not_not.2 hv)
    rfl
  | up hsome hc ih =>
    obtain ⟨-, -, hi⟩ := (idom?_eq_some hg).1 hsome
    rw [List.getLast?_cons, ih (hi.1.1.reachable hv)]
    rfl

/-- Until it reaches a certain dominator, if one is given, the way up passes the dominators strictly
below that. -/
theorem Climbs.mem_takeWhile (h : (ofGraph g entry).Climbs v c) (hv : g.Reachable entry v)
    (bound : Option Nat) (hb : ∀ t ∈ bound, g.Dominates entry t v) :
    a ∈ c.takeWhile (some · != bound) ↔
      g.Dominates entry a v ∧ ∀ t ∈ bound, g.Dominates entry t a ∧ a ≠ t := by
  have hreached : ∀ v, g.Reachable entry v → bound = some v →
      ¬ (g.Dominates entry a v ∧ ∀ t ∈ bound, g.Dominates entry t a ∧ a ≠ t) := by
    rintro v hv rfl ⟨hav, hbelow⟩
    exact (hbelow v rfl).2 (hav.antisymm (hbelow v rfl).1 hv)
  induction h with
  | @stop v hnone =>
    by_cases hbv : bound = some v
    · rw [List.takeWhile_cons_of_neg (by simp [hbv])]
      exact iff_of_false List.not_mem_nil (hreached v hv hbv)
    · have hve : v = entry := ((idom?_eq_none hg).1 hnone).resolve_right (not_not.2 hv)
      rw [List.takeWhile_cons_of_pos (by simpa using Ne.symm hbv), List.takeWhile_nil,
        List.mem_singleton]
      constructor
      · rintro rfl
        exact ⟨.refl a, fun t ht => ⟨hb t ht, fun heq => hbv (heq ▸ ht)⟩⟩
      · rintro ⟨hav, -⟩
        exact hav.antisymm (hve ▸ .of_entry a) hv
  | @up v u c hsome hc ih =>
    obtain ⟨-, -, hi⟩ := (idom?_eq_some hg).1 hsome
    by_cases hbv : bound = some v
    · rw [List.takeWhile_cons_of_neg (by simp [hbv])]
      exact iff_of_false List.not_mem_nil (hreached v hv hbv)
    · have hne : ∀ t ∈ bound, v ≠ t := fun t ht heq => hbv (heq ▸ ht)
      have hrest := ih (hi.1.1.reachable hv) fun t ht => hi.2 t (hb t ht) (hne t ht).symm
      rw [List.takeWhile_cons_of_pos (by simpa using Ne.symm hbv), List.mem_cons]
      refine (or_congr_right hrest).trans ?_
      constructor
      · rintro (rfl | ⟨hau, hbelow⟩)
        · exact ⟨.refl a, fun t ht => ⟨hb t ht, hne t ht⟩⟩
        · exact ⟨hau.trans hi.1.1, hbelow⟩
      · rintro ⟨hav, hbelow⟩
        by_cases heq : a = v
        · exact .inl heq
        · exact .inr ⟨hi.2 a hav heq, hbelow⟩

theorem Climbs.mem_iff (h : (ofGraph g entry).Climbs v c) (hv : g.Reachable entry v) :
    a ∈ c ↔ g.Dominates entry a v := by
  have hall : c.takeWhile (some · != none) = c := List.takeWhile_eq_self_iff.2 fun _ _ => rfl
  have hmem := h.mem_takeWhile hg hv (a := a) none (by simp)
  rw [hall] at hmem
  simpa using hmem

theorem Climbs.nodup (h : (ofGraph g entry).Climbs v c) (hv : g.Reachable entry v) : c.Nodup := by
  induction h with
  | stop => exact List.nodup_singleton _
  | @up v u c hsome hc ih =>
    obtain ⟨-, -, hi⟩ := (idom?_eq_some hg).1 hsome
    have hu := hi.1.1.reachable hv
    refine List.nodup_cons.2 ⟨fun hvc => ?_, ih hu⟩
    exact hi.1.2 (hi.1.1.antisymm ((hc.mem_iff hg hu).1 hvc) hv)

end Climb

section Walk

variable (g entry) in
/-- What holds of a walk under way: no node is met twice, every node that was met was reached
through its immediate dominator, and the children of a visited node have been met. -/
structure Visited (seen waiting : List Nat) : Prop where
  nodup : (seen ++ waiting).Nodup
  root : entry ∈ seen ++ waiting
  reachable : ∀ v ∈ seen ++ waiting, g.Reachable entry v
  parent : ∀ v ∈ seen ++ waiting, v ≠ entry → ∃ u ∈ seen, g.ImmediateDominator entry u v
  child : ∀ u ∈ seen, ∀ v ∈ (ofGraph g entry).children u, v ∈ seen ++ waiting

theorem Visited.start (h : entry < g.size) : Visited g entry [] [entry] where
  nodup := List.nodup_singleton entry
  root := List.mem_singleton_self entry
  reachable _ hv := (List.mem_singleton.1 hv).symm ▸ .of_lt h
  parent _ hv hne := absurd (List.mem_singleton.1 hv) hne
  child _ hu := absurd hu List.not_mem_nil

variable (hg : g.Symmetric)
include hg

/-- A child of the node that is visited was not met before: its immediate dominator still waited. -/
theorem Visited.not_mem_of_child {before after : List Nat}
    (h : Visited g entry seen (before ++ v :: after)) (hw : w ∈ (ofGraph g entry).children v) :
    w ∉ seen ++ (before ++ v :: after) := by
  intro hmet
  obtain ⟨hr, hne, hi⟩ := (mem_children hg).1 hw
  obtain ⟨u, hu, hu'⟩ := h.parent w hmet hne
  obtain rfl := hu'.unique hi hr
  exact (List.nodup_append.1 h.nodup).2.2 u hu u (by simp) rfl

theorem Visited.visit {before after : List Nat} (h : Visited g entry seen (before ++ v :: after)) :
    Visited g entry (seen ++ [v]) (before ++ (ofGraph g entry).children v ++ after) := by
  have hperm : (seen ++ [v] ++ (before ++ (ofGraph g entry).children v ++ after)).Perm
      (seen ++ (before ++ v :: after) ++ (ofGraph g entry).children v) := by
    rw [List.perm_iff_count]
    intro x
    simp only [List.count_append, List.count_cons, List.count_nil]
    omega
  have hmem : ∀ w, w ∈ seen ++ [v] ++ (before ++ (ofGraph g entry).children v ++ after) ↔
      w ∈ seen ++ (before ++ v :: after) ∨ w ∈ (ofGraph g entry).children v := fun w => by
    rw [hperm.mem_iff, List.mem_append]
  have hv : v ∈ seen ++ (before ++ v :: after) := by simp
  constructor
  · rw [hperm.nodup_iff]
    refine h.nodup.append children_nodup fun w hw hc => ?_
    exact h.not_mem_of_child hg hc hw
  · exact (hmem entry).2 (.inl h.root)
  · intro w hw
    rcases (hmem w).1 hw with hw | hw
    · exact h.reachable w hw
    · exact ((mem_children hg).1 hw).1
  · intro w hw hne
    rcases (hmem w).1 hw with hw | hw
    · obtain ⟨u, hu, hi⟩ := h.parent w hw hne
      exact ⟨u, List.mem_append_left _ hu, hi⟩
    · exact ⟨v, by simp, ((mem_children hg).1 hw).2.2⟩
  · intro u hu w hw
    refine (hmem w).2 ?_
    rcases List.mem_append.1 hu with hu | hu
    · exact .inl (h.child u hu w hw)
    · exact .inr (List.mem_singleton.1 hu ▸ hw)

theorem Walks.visited (hlt : entry < g.size) (h : (ofGraph g entry).Walks seen waiting) :
    Visited g entry seen waiting := by
  induction h with
  | start => exact Visited.start hlt
  | visit _ ih => exact ih.visit hg

/-- When nothing waits, what was visited holds the entry and is closed under children. -/
theorem Visited.complete (h : Visited g entry seen []) (hv : g.Reachable entry v) : v ∈ seen := by
  refine tree_induction hg (P := (· ∈ seen)) (by simpa using h.root) (fun u w hw hne hi hu => ?_) hv
  simpa using h.child u hu w ((mem_children hg).2 ⟨hw, hne, hi⟩)

omit hg in
theorem Visited.length_le (h : Visited g entry seen waiting) : seen.length ≤ g.size := by
  have hsub : seen ⊆ List.range g.size := fun v hv =>
    List.mem_range.2 (h.reachable v (List.mem_append_left _ hv)).lt
  simpa using ((List.nodup_append.1 h.nodup).1.subperm hsub).length_le

/-- No walk goes on for ever: there is always one node less to visit. -/
theorem Walks.exists_end (hlt : entry < g.size) (h : (ofGraph g entry).Walks seen waiting) :
    ∃ more, (ofGraph g entry).Walks (seen ++ more) [] := by
  induction hn : g.size - seen.length using Nat.strong_induction_on generalizing seen waiting with
  | _ n ih =>
    cases waiting with
    | nil => exact ⟨[], by simpa using h⟩
    | cons v rest =>
      have hnext : (ofGraph g entry).Walks (seen ++ [v])
          ([] ++ (ofGraph g entry).children v ++ rest) := .visit h
      have hle := (hnext.visited hg hlt).length_le
      rw [List.length_append, List.length_singleton] at hle
      obtain ⟨more, hmore⟩ := ih (g.size - (seen ++ [v]).length)
        (by rw [List.length_append, List.length_singleton]; omega) hnext rfl
      exact ⟨v :: more, by simpa using hmore⟩

end Walk

structure DominatorTree (g : Digraph α) (entry : Nat) (d : Dominance) : Prop where
  idom?_eq_none : ∀ v, d.idom? v = none ↔ v = entry ∨ ¬ g.Reachable entry v
  /-- Of the strict dominators it is the only one that all others dominate. -/
  closest : ∀ v u, d.idom? v = some u →
    g.ImmediateDominator entry u v ∧ ∀ w, g.ImmediateDominator entry w v → w = u
  climb : ∀ v, g.Reachable entry v → ∃ c, d.Climbs v c ∧ c.getLast? = some entry ∧ c.Nodup ∧
    ∀ a, a ∈ c ↔ g.Dominates entry a v
  children : ∀ u, (d.children u).Pairwise (· < ·) ∧ ∀ v, v ∈ d.children u ↔ d.idom? v = some u
  /-- A walk can always be brought to its end, and has then visited everything reachable. -/
  walk : entry < g.size → ∀ seen waiting, d.Walks seen waiting →
    seen.Nodup ∧ (∀ v ∈ seen, g.Reachable entry v) ∧
      (waiting = [] → ∀ v, g.Reachable entry v → v ∈ seen) ∧ ∃ more, d.Walks (seen ++ more) []

/-- The dominance of a graph comes with its dominator tree. -/
theorem ofGraph_dominatorTree (hg : g.Symmetric) (entry : Nat) :
    DominatorTree g entry (ofGraph g entry) where
  idom?_eq_none _ := idom?_eq_none hg
  closest v u h := by
    obtain ⟨hv, -, hi⟩ := (idom?_eq_some hg).1 h
    exact ⟨hi, fun w hw => hw.unique hi hv⟩
  climb v hv := by
    obtain ⟨c, hc⟩ := exists_climb hg hv
    exact ⟨c, hc, hc.getLast? hg hv, hc.nodup hg hv, fun a => hc.mem_iff hg hv⟩
  children u := by
    refine ⟨List.pairwise_lt_range.filter _, fun v => ?_⟩
    rw [mem_children hg, idom?_eq_some hg]
  walk hlt seen waiting h := by
    have hvisited := h.visited hg hlt
    refine ⟨(List.nodup_append.1 hvisited.nodup).1,
      fun v hv => hvisited.reachable v (List.mem_append_left _ hv), ?_, h.exists_end hg hlt⟩
    rintro rfl v hv
    exact hvisited.complete hg hv

theorem crossing_dominatorTree : crossing.Symmetric ∧ 0 < crossing.size ∧
    DominatorTree crossing 0 (ofGraph crossing 0) ∧ (ofGraph crossing 0).idom? 3 = some 1 :=
  ⟨crossing_symmetric, by decide, ofGraph_dominatorTree crossing_symmetric 0, by decide +kernel⟩

end FlowOpt.Dominance
