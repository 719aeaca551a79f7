import FlowOpt.Proofs.Graph.Frontier

/-!
# Where paths merge

Two paths converge at a node when they have nothing in common before one of them ends there. The
node is then in the iterated frontier of the two nodes they come from. Otherwise each path would
pass a strict dominator of it that is dominated by every other one which the path does not pass:
these two would dominate each other, and be common to both. Conversely a member of an iterated
frontier is entered from what a seed or another member dominates, and on some way around that.
-/

namespace FlowOpt.Digraph

variable {α : Type} {g : Digraph α} {entry u v w x y z : Nat} {p q : List Nat}

variable (g) in
/-- Two paths of one edge or more to one node, which pass a common node only where one of them ends.
So they start at different nodes. -/
structure Converge (x y z : Nat) (p q : List Nat) : Prop where
  left : g.Path x z p
  right : g.Path y z q
  left_edge : 1 < p.length
  right_edge : 1 < q.length
  apart : ∀ j k u, p[j]? = some u → q[k]? = some u → j + 1 = p.length ∨ k + 1 = q.length

theorem Converge.disjoint (h : g.Converge x y z p q) : p.dropLast.Disjoint q.dropLast := by
  intro u hp hq
  obtain ⟨j, hj⟩ := List.mem_iff_getElem?.1 hp
  obtain ⟨k, hk⟩ := List.mem_iff_getElem?.1 hq
  rw [List.getElem?_dropLast] at hj hk
  split at hj
  · split at hk
    · have hlast := h.apart j k u hj hk
      omega
    · cases hk
  · cases hj

theorem Converge.of_disjoint (hp : g.Path x u p) (hz : z ∈ g.succs u) (hq : g.Path y v q)
    (hz' : z ∈ g.succs v) (hlt : z < g.size) (hd : p.Disjoint q) :
    g.Converge x y z (p ++ [z]) (q ++ [z]) := by
  have hpos := List.length_pos_of_mem hp.mem_last
  have hpos' := List.length_pos_of_mem hq.mem_last
  refine ⟨hp.step hz hlt, hq.step hz' hlt, by simpa, by simpa, fun j k w hj hk => ?_⟩
  by_contra hlast
  simp only [List.length_append, List.length_singleton, Nat.add_right_cancel_iff, not_or] at hlast
  have hjlt := (List.getElem?_eq_some_iff.1 hj).1
  have hklt := (List.getElem?_eq_some_iff.1 hk).1
  rw [List.length_append, List.length_singleton] at hjlt hklt
  rw [List.getElem?_append_left (by omega)] at hj hk
  exact hd (List.mem_of_getElem? hj) (List.mem_of_getElem? hk)

theorem Path.reachable (hp : g.Path x v p) (hx : g.Reachable entry x) : g.Reachable entry v := by
  induction hp with
  | start _ => exact hx
  | step _ hw hlt ih => exact ih.step hw hlt

theorem Dominates.eq_of_pred (h : g.Dominates entry v w) (hw : w ∈ g.succs u) (hlt : w < g.size)
    (hn : ¬ g.Dominates entry v u) : v = w := by
  obtain ⟨s, hs, hvs⟩ : ∃ s, g.Path entry u s ∧ v ∉ s := by simpa [Dominates] using hn
  simpa [hvs] using h _ (hs.step hw hlt)

theorem Dominates.exists_path (h : g.Dominates entry v u) (hu : g.Reachable entry u) :
    ∃ p, g.Path v u p ∧ ∀ w ∈ p, g.Dominates entry v w := by
  have hself : ∀ w, v = w → w < g.size → ∃ p, g.Path v w p ∧ ∀ n ∈ p, g.Dominates entry v n := by
    rintro w rfl hlt
    exact ⟨[v], .start hlt, fun n hn => (List.mem_singleton.1 hn).symm ▸ .refl v⟩
  obtain ⟨q, hq⟩ := hu
  induction hq with
  | start hlt => exact hself entry (List.mem_singleton.1 (h _ (.start hlt))) hlt
  | @step u w q hq hw hlt ih =>
    -- The path starts at `v` where the dominance of `v` is entered, and goes on from there.
    by_cases hvu : g.Dominates entry v u
    · obtain ⟨p, hp, hdom⟩ := ih hvu
      refine ⟨p ++ [w], hp.step hw hlt, fun n hn => ?_⟩
      rcases List.mem_append.1 hn with hn | hn
      · exact hdom n hn
      · exact List.mem_singleton.1 hn ▸ h
    · exact hself w (h.eq_of_pred hw hlt hvu) hlt

theorem Reachable.exists_first_entering (h : g.Reachable entry z) (hne : z ≠ entry) :
    ∃ u q, g.Path entry u q ∧ z ∈ g.succs u ∧ z ∉ q := by
  refine h.induction (P := fun n => g.Dominates entry z n →
    ∃ u q, g.Path entry u q ∧ z ∈ g.succs u ∧ z ∉ q) (fun hz => ?_)
    (fun u w _ ih hw hlt hzw => ?_) (.refl z)
  · exact absurd (List.mem_singleton.1 (hz _ (.start h.choose_spec.entry_lt))) hne
  · by_cases hzu : g.Dominates entry z u
    · exact ih hzu
    · obtain ⟨s, hs, hzs⟩ : ∃ s, g.Path entry u s ∧ z ∉ s := by simpa [Dominates] using hzu
      exact ⟨u, s, hs, (hzw.eq_of_pred hw hlt hzu).symm ▸ hw, hzs⟩

theorem Reachable.exists_entering (h : g.Reachable entry z) (hne : z ≠ entry)
    (hno : ¬ (g.Dominates entry v z ∧ v ≠ z)) :
    ∃ u q, g.Path entry u q ∧ z ∈ g.succs u ∧ v ∉ q := by
  by_cases hvz : v = z
  · exact hvz ▸ h.exists_first_entering hne
  · obtain ⟨p, hp, hvp⟩ : ∃ p, g.Path entry z p ∧ v ∉ p := by
      simpa [Dominates, hvz] using hno
    cases hp with
    | start _ => exact absurd rfl hne
    | @step u _ q hq hw _ => exact ⟨u, q, hq, hw, fun hv => hvp (List.mem_append_left _ hv)⟩

/-- What is in the frontier of a node is entered from it and from around it. -/
theorem InFrontier.exists_converge (h : g.InFrontier entry v z) (hentry : ∀ u, entry ∉ g.succs u) :
    ∃ p q, g.Converge v entry z p q := by
  obtain ⟨u, hu, hvu, hz, hlt, hno⟩ := h
  have hne : z ≠ entry := fun heq => hentry u (heq ▸ hz)
  obtain ⟨p, hp, hdom⟩ := hvu.exists_path hu
  obtain ⟨u', q, hq, hz', hvq⟩ := (hu.step hz hlt).exists_entering hne hno
  refine ⟨p ++ [z], q ++ [z], .of_disjoint hp hz hq hz' hlt fun w hwp hwq => hvq ?_⟩
  obtain ⟨s, r, rfl, hs⟩ := hq.exists_prefix hwq
  exact List.mem_append_left _ (hdom w hwp s hs)

end FlowOpt.Digraph

namespace FlowOpt.Dominance

open FlowOpt.Digraph

variable {α : Type} {g : Digraph α} {entry x y z v : Nat} {seeds p q : List Nat}
  (hg : g.Symmetric)

section Covering

include hg

/-- A path from a seed or a member passes one that dominates where the path ends, and what it does
after that can follow every way there. -/
theorem exists_dominator_on_path (hx : x ∈ seeds ∨ x ∈ (ofGraph g entry).iteratedFrontier seeds)
    (hr : g.Reachable entry x) (hp : g.Path x v p) :
    ∃ c ∈ p, (c ∈ seeds ∨ c ∈ (ofGraph g entry).iteratedFrontier seeds) ∧
      g.Dominates entry c v ∧
      ∃ rest ⊆ p, ∀ s, g.Path entry c s → g.Path entry v (s ++ rest) := by
  induction hp with
  | start _ => exact ⟨x, by simp, hx, .refl x, [], by simp, fun s hs => by simpa using hs⟩
  | @step u w p hp hw hlt ih =>
    obtain ⟨c, hc, hmem, hcu, rest, hrest, hfollow⟩ := ih
    -- Either the dominance of `c` ends with this edge, and the member `w` takes its place, or it
    -- covers `w` too.
    by_cases hf : g.InFrontier entry c w
    · exact ⟨w, by simp, .inr (mem_iteratedFrontier hg hmem hf), .refl w, [], by simp,
        fun s hs => by simpa using hs⟩
    · have hcw : g.Dominates entry c w := by
        by_contra hn
        exact hf ⟨u, hp.reachable hr, hcu, hw, hlt, fun h => hn h.1⟩
      refine ⟨c, by simp [hc], hmem, hcw, rest ++ [w], ?_, fun s hs => ?_⟩
      · exact List.append_subset.2 ⟨fun n hn => by simp [hrest hn], by simp⟩
      · rw [← List.append_assoc]
        exact (hfollow s hs).step hw hlt

/-- Before a node outside the iterated frontier such a path passes a strict dominator of it that
every other one dominates, unless the path passes the other one as well. -/
theorem exists_strict_dominator_on_path
    (hx : x ∈ seeds ∨ x ∈ (ofGraph g entry).iteratedFrontier seeds) (hr : g.Reachable entry x)
    (hp : g.Path x z p) (hedge : 1 < p.length)
    (hz : z ∉ (ofGraph g entry).iteratedFrontier seeds) :
    ∃ c ∈ p.dropLast, g.Dominates entry c z ∧ c ≠ z ∧
      ∀ d, g.Dominates entry d z → d ≠ z → g.Dominates entry d c ∨ d ∈ p.dropLast := by
  cases hp with
  | start _ => simp at hedge
  | @step u _ p hp hw hlt =>
    obtain ⟨c, hc, hmem, hcu, rest, hrest, hfollow⟩ := exists_dominator_on_path hg hx hr hp
    have hcz : g.Dominates entry c z ∧ c ≠ z := by
      by_contra hn
      exact hz (mem_iteratedFrontier hg hmem ⟨u, hp.reachable hr, hcu, hw, hlt, hn⟩)
    rw [List.dropLast_concat]
    refine ⟨c, hc, hcz.1, hcz.2, fun d hd hne => ?_⟩
    by_cases hdp : d ∈ p
    · exact .inr hdp
    · refine .inl fun s hs => ?_
      have hmem := hd _ ((hfollow s hs).step hw hlt)
      have hdrest : d ∉ rest := fun h => hdp (hrest h)
      simpa [hne, hdrest] using hmem

theorem mem_iteratedFrontier_of_converge (hx : x ∈ seeds) (hxr : g.Reachable entry x)
    (hy : y ∈ seeds) (hyr : g.Reachable entry y) (h : g.Converge x y z p q) :
    z ∈ (ofGraph g entry).iteratedFrontier seeds := by
  by_contra hz
  obtain ⟨c, hc, hcz, hcne, hcmost⟩ :=
    exists_strict_dominator_on_path hg (.inl hx) hxr h.left h.left_edge hz
  obtain ⟨d, hd, hdz, hdne, hdmost⟩ :=
    exists_strict_dominator_on_path hg (.inl hy) hyr h.right h.right_edge hz
  -- The paths are apart, so neither passes the dominator of the other.
  have hdc := (hcmost d hdz hdne).resolve_right fun hdp => h.disjoint hdp hd
  have hcd := (hdmost c hcz hcne).resolve_right fun hcq => h.disjoint hc hcq
  obtain rfl := hcd.antisymm hdc (hdz.reachable (h.left.reachable hxr))
  exact h.disjoint hc hd

end Covering

/-- The iterated frontier of some nodes holds every node at which paths from two of them converge.
Where nothing leads to the entry, it holds only nodes at which a path from one of them, or from
another of its own nodes, converges with a path from the entry. -/
theorem iteratedFrontier_covers_merges (hg : g.Symmetric) (entry : Nat) (seeds : List Nat) :
    (∀ x ∈ seeds, ∀ y ∈ seeds, g.Reachable entry x → g.Reachable entry y →
      ∀ z p q, g.Converge x y z p q → z ∈ (ofGraph g entry).iteratedFrontier seeds) ∧
    ((∀ u, entry ∉ g.succs u) → ∀ z ∈ (ofGraph g entry).iteratedFrontier seeds,
      ∃ v, (v ∈ seeds ∨ v ∈ (ofGraph g entry).iteratedFrontier seeds) ∧
        ∃ p q, g.Converge v entry z p q) := by
  refine ⟨fun x hx y hy hxr hyr z p q h => ?_, fun hentry z hz => ?_⟩
  · exact mem_iteratedFrontier_of_converge hg hx hxr hy hyr h
  · obtain ⟨v, hv, hf⟩ := exists_of_mem_iteratedFrontier hg hz
    exact ⟨v, hv, hf.exists_converge hentry⟩

/-- The entry and one of two nodes that lead to each other both lead to the other one. -/
theorem crossing_covers_merges : crossing.Symmetric ∧ crossing.Converge 0 2 1 [0, 1] [2, 1] ∧
    1 ∈ (ofGraph crossing 0).iteratedFrontier [0, 2] := by
  have hedge : crossing.Path 0 2 [0, 2] := .step (.start (by decide)) (by decide) (by decide)
  have hmeet : crossing.Converge 0 2 1 [0, 1] [2, 1] :=
    .of_disjoint (.start (by decide)) (by decide) (.start (by decide)) (by decide) (by decide)
      (by simp)
  exact ⟨crossing_symmetric, hmeet,
    (iteratedFrontier_covers_merges crossing_symmetric 0 [0, 2]).1 0 (by decide) 2 (by decide)
      ⟨_, .start (by decide)⟩ ⟨_, hedge⟩ 1 _ _ hmeet⟩

end FlowOpt.Dominance
