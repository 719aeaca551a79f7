import FlowOpt.Proofs.Graph.LoopSearch

/-!
# How natural loops nest

Two loops have no reachable node in common, or one of them is inside the other. So the loops around
a reachable node are the innermost one and those that hold its header, and its depth counts the
latter. A loop that is strictly around another is less deep, so it comes first when they are sorted
by depth.
-/

namespace FlowOpt

open FlowOpt.Digraph

def NaturalLoop.Inside {α : Type} (g : Digraph α) (entry : Nat) (l k : NaturalLoop) : Prop :=
  ∀ v, g.Reachable entry v → l.contains v = true → k.contains v = true

theorem NaturalLoop.Inside.refl {α : Type} {g : Digraph α} {entry : Nat} (l : NaturalLoop) :
    l.Inside g entry l :=
  fun _ _ hv => hv

namespace LoopForest

structure Nested {α : Type} (g : Digraph α) (entry : Nat) (f : LoopForest) : Prop where
  apart_or_inside : ∀ l ∈ f.loops, ∀ k ∈ f.loops,
    (∀ v, g.Reachable entry v → l.contains v = true → k.contains v = false) ∨
      l.Inside g entry k ∨ k.Inside g entry l
  innermost : ∀ v, g.Reachable entry v → (∃ l ∈ f.loops, l.contains v = true) →
    ∃ m ∈ f.loops, f.innermost? v = some m ∧ m.contains v = true ∧
      (∀ k ∈ f.loops, k.contains v = true → m.Inside g entry k) ∧ f.depthOf v = m.depth + 1
  outermostFirst_perm : f.outermostFirst.Perm f.loops
  /-- What is strictly around a loop comes before it. -/
  outermostFirst : ∀ (i j : Nat) (l k : NaturalLoop), f.outermostFirst[i]? = some k →
    f.outermostFirst[j]? = some l → l.Inside g entry k → ¬ k.Inside g entry l → i < j

section

variable {α : Type} {g : Digraph α} {entry v : Nat} {l k m : NaturalLoop} (hg : g.WellFormed)
  (hl : l ∈ (ofGraph g (.ofGraph g entry)).loops) (hk : k ∈ (ofGraph g (.ofGraph g entry)).loops)
include hg hl hk

theorem inside_of_contains_header (h : l.contains k.header = true) : k.Inside g entry l := by
  by_cases heq : l.header = k.header
  · exact eq_of_header_eq hl hk heq ▸ .refl l
  · exact fun _ _ hv => contains_of_contains_header hg hl hk heq h hv

omit hl in
theorem contains_header_of_inside (h : k.Inside g entry l) : l.contains k.header = true :=
  h k.header (header_reachable hg hk) (contains_header hg hk)

/-- Loops that share a reachable node are one inside the other. -/
theorem inside_of_common (hr : g.Reachable entry v) (hv : l.contains v = true)
    (hv' : k.contains v = true) : l.Inside g entry k ∨ k.Inside g entry l := by
  rcases contains_header_of_common hg hl hk hv hv' hr with h | h
  · exact .inr (inside_of_contains_header hg hl hk h)
  · exact .inl (inside_of_contains_header hg hk hl h)

theorem depth_lt_of_inside (h : k.Inside g entry l) (hn : ¬ l.Inside g entry k) :
    l.depth < k.depth := by
  refine depth_lt hg hl hk (fun heq => hn ?_) (contains_header_of_inside hg hk h)
  exact eq_of_header_eq hl hk heq ▸ .refl l

/-- Of two loops around a reachable node the one that is no less deep is inside the other. -/
theorem inside_of_depth_le (hr : g.Reachable entry v) (hv : l.contains v = true)
    (hv' : k.contains v = true) (hle : k.depth ≤ l.depth) : l.Inside g entry k := by
  by_contra hn
  have hkl := (inside_of_common hg hl hk hr hv hv').resolve_left hn
  exact absurd (depth_lt_of_inside hg hl hk hkl hn) (Nat.not_lt.2 hle)

end

section

variable {α : Type} {g : Digraph α} {entry v : Nat} {m : NaturalLoop} (hg : g.WellFormed)
include hg

theorem exists_innermost (hr : g.Reachable entry v)
    (hex : ∃ l ∈ (ofGraph g (.ofGraph g entry)).loops, l.contains v = true) :
    ∃ m ∈ (ofGraph g (.ofGraph g entry)).loops,
      (ofGraph g (.ofGraph g entry)).innermost? v = some m ∧ m.contains v = true ∧
      ∀ k ∈ (ofGraph g (.ofGraph g entry)).loops, k.contains v = true → m.Inside g entry k := by
  obtain ⟨l, hl, hv⟩ := hex
  have hfilter : l ∈ (ofGraph g (.ofGraph g entry)).loops.filter (·.contains v) :=
    List.mem_filter.2 ⟨hl, hv⟩
  obtain ⟨m, hinner, hmem, hmax⟩ := exists_lastMaxOn (·.depth) (List.ne_nil_of_mem hfilter)
  obtain ⟨hm, hmv⟩ := List.mem_filter.1 hmem
  refine ⟨m, hm, hinner, hmv, fun k hk hkv => ?_⟩
  exact inside_of_depth_le hg hm hk hr hmv hkv (hmax k (List.mem_filter.2 ⟨hk, hkv⟩))

/-- The other loops around a node are those that hold the header of the innermost. -/
theorem contains_iff_of_innermost (hm : m ∈ (ofGraph g (.ofGraph g entry)).loops)
    (hmv : m.contains v = true)
    (hin : ∀ k ∈ (ofGraph g (.ofGraph g entry)).loops, k.contains v = true → m.Inside g entry k) :
    ∀ k ∈ (ofGraph g (.ofGraph g entry)).loops, k.header ≠ m.header →
      (k.contains v = true ↔ k.contains m.header = true) := by
  intro k hk hne
  constructor
  · exact fun hkv => contains_header_of_inside hg hm (hin k hk hkv)
  · exact fun hheader => contains_of_contains_header hg hk hm hne hheader hmv

omit hg in
theorem countP_eq_succ {p q : NaturalLoop → Bool}
    (hm : m ∈ (ofGraph g (.ofGraph g entry)).loops) (hp : p m = true) (hq : ¬ q m = true)
    (hother : ∀ k ∈ (ofGraph g (.ofGraph g entry)).loops, k.header ≠ m.header →
      (p k = true ↔ q k = true)) :
    (ofGraph g (.ofGraph g entry)).loops.countP p =
      (ofGraph g (.ofGraph g entry)).loops.countP q + 1 := by
  obtain ⟨rest, hperm⟩ := exists_perm_cons hm
  have hheaders : (m :: rest).Pairwise (·.header ≠ ·.header) :=
    pairwise_header.perm hperm fun h => h.symm
  have hrest : rest.countP p = rest.countP q := List.countP_congr fun k hk =>
    hother k (hperm.mem_iff.2 (List.mem_cons_of_mem _ hk))
      ((List.pairwise_cons.1 hheaders).1 k hk).symm
  rw [hperm.countP_eq, hperm.countP_eq, List.countP_cons_of_pos hp, List.countP_cons_of_neg hq,
    hrest]

theorem depthOf_eq_succ (hm : m ∈ (ofGraph g (.ofGraph g entry)).loops)
    (hmv : m.contains v = true)
    (hin : ∀ k ∈ (ofGraph g (.ofGraph g entry)).loops, k.contains v = true → m.Inside g entry k) :
    (ofGraph g (.ofGraph g entry)).depthOf v = m.depth + 1 := by
  have hother := contains_iff_of_innermost hg hm hmv hin
  rw [depthOf, depth_eq hm]
  refine countP_eq_succ hm hmv (by simp) fun k hk hne => ?_
  simpa [hne] using hother k hk hne

theorem outermostFirst_lt {i j : Nat} {l k : NaturalLoop}
    (hi : (ofGraph g (.ofGraph g entry)).outermostFirst[i]? = some k)
    (hj : (ofGraph g (.ofGraph g entry)).outermostFirst[j]? = some l)
    (h : l.Inside g entry k) (hn : ¬ k.Inside g entry l) : i < j := by
  have hk := mem_outermostFirst.1 (List.mem_of_getElem? hi)
  have hl := mem_outermostFirst.1 (List.mem_of_getElem? hj)
  have hdeeper := depth_lt_of_inside hg hk hl h hn
  by_contra hle
  rcases Nat.eq_or_lt_of_le (Nat.not_lt.1 hle) with heq | hlt
  · obtain rfl : l = k := Option.some.inj (hj.symm.trans (heq ▸ hi))
    exact hn h
  · obtain ⟨hjlt, rfl⟩ := List.getElem?_eq_some_iff.1 hj
    obtain ⟨hilt, rfl⟩ := List.getElem?_eq_some_iff.1 hi
    have hle := List.pairwise_iff_getElem.1
      (pairwise_outermostFirst (ofGraph g (.ofGraph g entry))) j i hjlt hilt hlt
    omega

/-- The natural loops of a graph nest. -/
theorem ofGraph_nested (entry : Nat) : Nested g entry (ofGraph g (.ofGraph g entry)) where
  apart_or_inside l hl k hk := by
    by_cases hcommon : ∃ v, g.Reachable entry v ∧ l.contains v = true ∧ k.contains v = true
    · obtain ⟨v, hr, hv, hv'⟩ := hcommon
      exact .inr (inside_of_common hg hl hk hr hv hv')
    · refine .inl fun v hr hv => ?_
      rw [← Bool.not_eq_true]
      exact fun hv' => hcommon ⟨v, hr, hv, hv'⟩
  innermost v hr hex := by
    obtain ⟨m, hm, hinner, hmv, hin⟩ := exists_innermost hg hr hex
    exact ⟨m, hm, hinner, hmv, hin, depthOf_eq_succ hg hm hmv hin⟩
  outermostFirst_perm := List.mergeSort_perm _ _
  outermostFirst _ _ _ _ hi hj h hn := outermostFirst_lt hg hi hj h hn

end

theorem nestedLoops_nested : nestedLoops.WellFormed ∧
    Nested nestedLoops 0 (ofGraph nestedLoops (.ofGraph nestedLoops 0)) ∧
    ((ofGraph nestedLoops (.ofGraph nestedLoops 0)).innermost? 2).map (·.header) = some 2 ∧
    (ofGraph nestedLoops (.ofGraph nestedLoops 0)).depthOf 2 = 2 :=
  ⟨nestedLoops_wellFormed, ofGraph_nested nestedLoops_wellFormed 0, by decide +kernel,
    by decide +kernel⟩

end LoopForest

end FlowOpt
