import FlowOpt.Proofs.Graph.DominatorSets

/-!
# The dominator tree

Among reachable nodes dominance is a partial order, and the dominators of a node form a chain. The
strict dominator with most dominators is therefore the closest one: every other strict dominator
dominates it. The tree that hangs each node below its closest strict dominator holds every
reachable node, and a node has more dominators than the one above it.
-/

namespace FlowOpt.Digraph

variable {α : Type} {g : Digraph α} {entry a b c u v w : Nat} {p : List Nat}

theorem Path.exists_shorter (h : g.Path entry v p) (hu : u ∈ p) (hne : u ≠ v) :
    ∃ q, g.Path entry u q ∧ q.length < p.length ∧ ∀ x ∈ q, x ∈ p := by
  cases h with
  | start h => exact absurd (List.mem_singleton.1 hu) hne
  | @step x _ p hp hw hlt =>
    have hup : u ∈ p := (List.mem_append.1 hu).resolve_right fun h =>
      hne (List.mem_singleton.1 h)
    obtain ⟨q, r, rfl, hq⟩ := hp.exists_prefix hup
    exact ⟨q, hq, by simp, fun x hx => by simp [hx]⟩

/-- What a path does after it last passes a node can follow any path to that node. -/
theorem Path.exists_suffix (h : g.Path entry v p) (hu : u ∈ p) :
    ∃ q r, p = q ++ r ∧ u ∉ r ∧ ∀ s, g.Path entry u s → g.Path entry v (s ++ r) := by
  induction h with
  | start h =>
    obtain rfl := List.mem_singleton.1 hu
    exact ⟨[u], [], rfl, by simp, fun s hs => by simpa using hs⟩
  | @step x y p hp hw hlt ih =>
    by_cases hy : u = y
    · exact ⟨p ++ [y], [], by simp, by simp, fun s hs => by simpa [hy] using hs⟩
    · have hup : u ∈ p := (List.mem_append.1 hu).resolve_right fun h =>
        hy (List.mem_singleton.1 h)
      obtain ⟨q, r, rfl, hr, hs⟩ := ih hup
      refine ⟨q, r ++ [y], by simp, by simp [hr, hy], fun s hsu => ?_⟩
      rw [← List.append_assoc]
      exact (hs s hsu).step hw hlt

theorem Dominates.trans (hab : g.Dominates entry a b) (hbc : g.Dominates entry b c) :
    g.Dominates entry a c := by
  intro p hp
  obtain ⟨q, r, rfl, hq⟩ := hp.exists_prefix (hbc p hp)
  exact List.mem_append_left _ (hab q hq)

/-- Two reachable nodes that dominate each other would give ever shorter paths. -/
theorem Dominates.antisymm (hab : g.Dominates entry a b) (hba : g.Dominates entry b a)
    (hb : g.Reachable entry b) : a = b := by
  by_contra hne
  have hno : ∀ n p, g.Path entry b p → p.length ≠ n := by
    intro n
    induction n using Nat.strong_induction_on with
    | _ n ih =>
      intro p hp hlen
      obtain ⟨q, hq, hqlen, _⟩ := hp.exists_shorter (hab p hp) hne
      obtain ⟨r, hr, hrlen, _⟩ := hq.exists_shorter (hba q hq) (Ne.symm hne)
      exact ih r.length (by omega) r hr rfl
  obtain ⟨p, hp⟩ := hb
  exact hno p.length p hp rfl

/-- Of two dominators of a node one dominates the other: the one that a path passes last is reached
by any path to it without the other in between. -/
theorem Dominates.total (hac : g.Dominates entry a c) (hbc : g.Dominates entry b c)
    (hc : g.Reachable entry c) : g.Dominates entry a b ∨ g.Dominates entry b a := by
  obtain ⟨p, hp⟩ := hc
  obtain ⟨q, r, hpq, har, hr⟩ := hp.exists_suffix (hac p hp)
  by_cases hbr : b ∈ r
  · obtain ⟨q', r', hpq', hbr', hr'⟩ := hp.exists_suffix (hbc p hp)
    have hsuffix : r' <:+ r := by
      have h1 : r <:+ p := ⟨q, hpq.symm⟩
      have h2 : r' <:+ p := ⟨q', hpq'.symm⟩
      rcases List.suffix_or_suffix_of_suffix h1 h2 with h | h
      · exact absurd (h.subset hbr) hbr'
      · exact h
    refine .inl fun s hs => ?_
    exact (List.mem_append.1 (hac _ (hr' s hs))).resolve_right fun h => har (hsuffix.subset h)
  · refine .inr fun s hs => ?_
    exact (List.mem_append.1 (hbc _ (hr s hs))).resolve_right hbr

variable (g) in
/-- `u` strictly dominates `v`, and so closely that no other strict dominator is between them. -/
def ImmediateDominator (entry u v : Nat) : Prop :=
  (g.Dominates entry u v ∧ u ≠ v) ∧
    ∀ a, g.Dominates entry a v → a ≠ v → g.Dominates entry a u

variable (g) in
def dominatorCount (entry v : Nat) : Nat := (g.setAt (g.dominatorSets entry).1 v).size

/-- The closest strict dominator of a node dominates each of its predecessors. -/
theorem ImmediateDominator.dominates_pred (h : g.ImmediateDominator entry u v)
    (hv : v ∈ g.succs w) (hlt : v < g.size) : g.Dominates entry u w := by
  intro q hq
  exact (List.mem_append.1 (h.1.1 _ (hq.step hv hlt))).resolve_right fun hm =>
    h.1.2 (List.mem_singleton.1 hm)

theorem ImmediateDominator.unique (h : g.ImmediateDominator entry u v)
    (h' : g.ImmediateDominator entry w v) (hv : g.Reachable entry v) : u = w :=
  (h'.2 u h.1.1 h.1.2).antisymm (h.2 w h'.1.1 h'.1.2) (h'.1.1.reachable hv)

/-- The subtrees of two nodes below one node have nothing in common. -/
theorem ImmediateDominator.eq_of_dominates (ha : g.ImmediateDominator entry u a)
    (hb : g.ImmediateDominator entry u b) (hac : g.Dominates entry a c)
    (hbc : g.Dominates entry b c) (hc : g.Reachable entry c) : a = b := by
  by_contra hne
  rcases hac.total hbc hc with h | h
  · exact ha.1.2 (ha.1.1.antisymm (hb.2 a h hne) (hac.reachable hc))
  · exact hb.1.2 (hb.1.1.antisymm (ha.2 b h (Ne.symm hne)) (hbc.reachable hc))

end FlowOpt.Digraph

namespace FlowOpt

def larger {α : Type} (key : α → Nat) (best : Option α) (a : α) : Option α :=
  match best with
  | none => some a
  | some b => if key b ≤ key a then some a else some b

theorem foldl_larger {α : Type} (key : α → Nat) (l : List α) (b : α) :
    ∃ m, l.foldl (larger key) (some b) = some m ∧ m ∈ b :: l ∧ ∀ x ∈ b :: l, key x ≤ key m := by
  induction l generalizing b with
  | nil => exact ⟨b, rfl, by simp⟩
  | cons a l ih =>
    by_cases h : key b ≤ key a
    · obtain ⟨m, hfold, hm, hmax⟩ := ih a
      refine ⟨m, by simpa [larger, h] using hfold, List.mem_cons_of_mem _ hm, fun x hx => ?_⟩
      rcases List.mem_cons.1 hx with rfl | hx
      · exact h.trans (hmax a List.mem_cons_self)
      · exact hmax x hx
    · obtain ⟨m, hfold, hm, hmax⟩ := ih b
      have hbm := hmax b List.mem_cons_self
      refine ⟨m, by simpa [larger, h] using hfold, ?_, fun x hx => ?_⟩
      · rcases List.mem_cons.1 hm with rfl | hm
        · exact List.mem_cons_self
        · exact List.mem_cons_of_mem _ (List.mem_cons_of_mem _ hm)
      · rcases List.mem_cons.1 hx with rfl | hx
        · exact hbm
        · rcases List.mem_cons.1 hx with rfl | hx
          · omega
          · exact hmax x (List.mem_cons_of_mem _ hx)

theorem exists_lastMaxOn {α : Type} (key : α → Nat) {l : List α} (h : l ≠ []) :
    ∃ m, lastMaxOn key l = some m ∧ m ∈ l ∧ ∀ x ∈ l, key x ≤ key m := by
  cases l with
  | nil => exact absurd rfl h
  | cons a l => exact foldl_larger key l a

namespace Dominance

open FlowOpt.Digraph

variable {α : Type} (g : Digraph α) (entry : Nat)

theorem ofGraph_sets : (ofGraph g entry).sets = (g.dominatorSets entry).1 := rfl

theorem ofGraph_entry : (ofGraph g entry).entry = entry := rfl

theorem size_ofGraph : (ofGraph g entry).size = g.size := size_dominatorSets g entry

variable {g entry} {a b u v w : Nat} (hg : g.Symmetric)
include hg

theorem dominates_iff_mem (hb : b < g.size) :
    (ofGraph g entry).dominates a b = true ↔ a ∈ g.setAt (g.dominatorSets entry).1 b := by
  rw [dominates, ofGraph_sets, getElem?_dominatorSets hg hb]
  rfl

theorem dominates_of_not_lt (hb : ¬ b < g.size) : (ofGraph g entry).dominates a b = false := by
  have hsize : (ofGraph g entry).sets.size = g.size :=
    (dominatorSets_passesTo hg entry).2.1.size_eq
  have hnone : (ofGraph g entry).sets[b]? = none := Array.getElem?_eq_none (by omega)
  simp [dominates, hnone]

theorem dominates_iff (hb : g.Reachable entry b) :
    (ofGraph g entry).dominates a b = true ↔ g.Dominates entry a b := by
  rw [dominates_iff_mem hg hb.lt, mem_dominatorSets hg hb]

theorem dominates_iff_of_unreachable (hb : b < g.size) (hn : ¬ g.Reachable entry b) :
    (ofGraph g entry).dominates a b = true ↔ a = b := by
  rw [dominates_iff_mem hg hb, dominatorSets_of_unreachable hg hb hn, BitSet.mem_ofList,
    List.mem_singleton]
  exact ⟨And.left, fun h => ⟨h, h ▸ hb⟩⟩

theorem isReachable_iff : (ofGraph g entry).isReachable v = true ↔ g.Reachable entry v := by
  unfold isReachable
  rw [ofGraph_entry]
  by_cases hv : v < g.size
  · by_cases hr : g.Reachable entry v
    · rw [dominates_iff hg hr]
      exact ⟨fun _ => hr, fun _ => Dominates.of_entry v⟩
    · rw [dominates_iff_of_unreachable hg hv hr]
      exact ⟨fun h => absurd (h ▸ Reachable.of_lt (h ▸ hv)) hr, fun h => absurd h hr⟩
  · rw [dominates_of_not_lt hg hv]
    exact ⟨by simp, fun h => absurd h.lt hv⟩

theorem strictlyDominates_iff (hb : g.Reachable entry b) :
    (ofGraph g entry).strictlyDominates a b = true ↔ g.Dominates entry a b ∧ a ≠ b := by
  rw [strictlyDominates, Bool.and_eq_true, dominates_iff hg hb]
  simp [and_comm]

/-- The set of a node holds that of each of its strict dominators, and the node. -/
theorem dominatorCount_lt (hab : g.Dominates entry a b) (hne : a ≠ b) (hb : g.Reachable entry b) :
    g.dominatorCount entry a < g.dominatorCount entry b := by
  obtain ⟨_, happ, _⟩ := dominatorSets_passesTo hg entry
  have ha := hab.reachable hb
  refine (happ.shape a).1.size_lt_size (happ.shape b).1 (n := b) (fun c hc => ?_) ?_ ?_
  · rw [mem_dominatorSets hg ha] at hc
    exact (mem_dominatorSets hg hb).2 (hc.trans hab)
  · exact (mem_dominatorSets hg hb).2 (.refl b)
  · rw [mem_dominatorSets hg ha]
    exact fun hba => hne (hab.antisymm hba hb)

theorem dominatorCount_le (entry v : Nat) : g.dominatorCount entry v ≤ g.size := by
  obtain ⟨ht, hc⟩ := (dominatorSets_passesTo hg entry).2.1.shape v
  exact ht.size_le.trans hc.le

theorem dominatorCount_pos (hv : g.Reachable entry v) : 0 < g.dominatorCount entry v := by
  have ht := ((dominatorSets_passesTo hg entry).2.1.shape v).1
  rw [dominatorCount, BitSet.size_eq]
  exact List.length_pos_of_mem (ht.mem_members.2 ((mem_dominatorSets hg hv).2 (.refl v)))

theorem map_size_eq (v : Nat) : (((g.dominatorSets entry).1[v]?).map (·.size)).getD 0 =
    g.dominatorCount entry v := by
  by_cases hv : v < g.size
  · rw [getElem?_dominatorSets hg hv]
    rfl
  · have hsize := (dominatorSets_passesTo hg entry).2.1.size_eq
    have hnone : (g.dominatorSets entry).1[v]? = none := Array.getElem?_eq_none (by omega)
    rw [hnone, dominatorCount, setAt_of_not_lt hsize hv]
    simp [BitSet.size_eq]

theorem idom?_of_reachable (hv : g.Reachable entry v) (hne : v ≠ entry) :
    (ofGraph g entry).idom? v =
      lastMaxOn (g.dominatorCount entry)
        ((g.setAt (g.dominatorSets entry).1 v).members.filter (· != v)) := by
  have hset : (g.dominatorSets entry).1[v]? = some (g.setAt (g.dominatorSets entry).1 v) :=
    getElem?_dominatorSets hg hv.lt
  have hmem : (g.setAt (g.dominatorSets entry).1 v).contains entry = true :=
    (mem_dominatorSets hg hv).2 (Dominates.of_entry v)
  have hidoms : (ofGraph g entry).idoms = immediateDominators entry (g.dominatorSets entry).1 := rfl
  rw [idom?, hidoms, immediateDominators, Array.getElem?_mapIdx, hset]
  simp only [Option.map_some, Option.join_some, hmem, hne, decide_false, Bool.not_true,
    Bool.or_self, Bool.false_eq_true, if_false, map_size_eq hg]

theorem reachable_of_idom? (h : (ofGraph g entry).idom? v = some u) :
    g.Reachable entry v ∧ v ≠ entry := by
  have hidoms : (ofGraph g entry).idoms = immediateDominators entry (g.dominatorSets entry).1 := rfl
  rw [idom?, hidoms, immediateDominators, Array.getElem?_mapIdx] at h
  by_cases hv : v < g.size
  · rw [getElem?_dominatorSets hg hv] at h
    simp only [Option.map_some, Option.join_some] at h
    split at h
    · cases h
    · next hcond =>
      simp only [Bool.or_eq_true, decide_eq_true_eq, Bool.not_eq_true', not_or,
        Bool.not_eq_false] at hcond
      refine ⟨?_, hcond.1⟩
      by_contra hn
      have hmem : entry ∈ g.setAt (g.dominatorSets entry).1 v := hcond.2
      rw [dominatorSets_of_unreachable hg hv hn, BitSet.mem_ofList, List.mem_singleton] at hmem
      exact hcond.1 hmem.1.symm
  · have hsize := (dominatorSets_passesTo hg entry).2.1.size_eq
    have hnone : (g.dominatorSets entry).1[v]? = none := Array.getElem?_eq_none (by omega)
    simp [hnone] at h

theorem exists_idom? (hv : g.Reachable entry v) (hne : v ≠ entry) :
    ∃ u, (ofGraph g entry).idom? v = some u ∧ g.ImmediateDominator entry u v := by
  have happ := (dominatorSets_passesTo hg entry).2.1
  have hlist : ∀ a, a ∈ (g.setAt (g.dominatorSets entry).1 v).members.filter (· != v) ↔
      g.Dominates entry a v ∧ a ≠ v := fun a => by
    rw [List.mem_filter, (happ.shape v).1.mem_members, mem_dominatorSets hg hv]
    simp
  have hentry := (hlist entry).2 ⟨Dominates.of_entry v, Ne.symm hne⟩
  obtain ⟨u, hu, hmem, hmax⟩ := exists_lastMaxOn
    (g.dominatorCount entry) (List.ne_nil_of_mem hentry)
  obtain ⟨huv, hune⟩ := (hlist u).1 hmem
  refine ⟨u, (idom?_of_reachable hg hv hne).trans hu, ⟨huv, hune⟩, fun a ha hane => ?_⟩
  rcases ha.total huv hv with hau | hua
  · exact hau
  · by_cases heq : u = a
    · exact heq ▸ .refl u
    · have hlt := dominatorCount_lt hg hua heq (ha.reachable hv)
      exact absurd (hmax a ((hlist a).2 ⟨ha, hane⟩)) (Nat.not_le.2 hlt)

theorem idom?_eq_some : (ofGraph g entry).idom? v = some u ↔
    g.Reachable entry v ∧ v ≠ entry ∧ g.ImmediateDominator entry u v := by
  constructor
  · intro h
    obtain ⟨hv, hne⟩ := reachable_of_idom? hg h
    obtain ⟨u', hu', hi⟩ := exists_idom? hg hv hne
    obtain rfl : u' = u := Option.some.inj (hu'.symm.trans h)
    exact ⟨hv, hne, hi⟩
  · rintro ⟨hv, hne, hi⟩
    obtain ⟨u', hu', hi'⟩ := exists_idom? hg hv hne
    rw [hu', hi.unique hi' hv]

theorem mem_children : w ∈ (ofGraph g entry).children v ↔
    g.Reachable entry w ∧ w ≠ entry ∧ g.ImmediateDominator entry v w := by
  rw [children, List.mem_filter, List.mem_range, size_ofGraph g entry, beq_iff_eq, idom?_eq_some hg]
  exact ⟨And.right, fun h => ⟨h.1.lt, h⟩⟩

omit hg in
theorem children_nodup : ((ofGraph g entry).children v).Nodup := List.nodup_range.filter _

theorem tree_induction {P : Nat → Prop} (h0 : P entry)
    (hs : ∀ u v, g.Reachable entry v → v ≠ entry → g.ImmediateDominator entry u v → P u → P v)
    (hv : g.Reachable entry v) : P v := by
  induction hn : g.dominatorCount entry v using Nat.strong_induction_on generalizing v with
  | _ n ih =>
    by_cases hne : v = entry
    · exact hne ▸ h0
    · obtain ⟨u, _, hi⟩ := exists_idom? hg hv hne
      have hlt := dominatorCount_lt hg hi.1.1 hi.1.2 hv
      exact hs u v hv hne hi (ih _ (hn ▸ hlt) (hi.1.1.reachable hv) rfl)

/-- Everything that a node strictly dominates is in the subtree of a node below it. -/
theorem exists_child (hu : g.Reachable entry u) (hvu : g.Dominates entry v u) (hne : u ≠ v) :
    ∃ c, g.ImmediateDominator entry v c ∧ g.Dominates entry c u := by
  refine tree_induction hg (P := fun u => g.Dominates entry v u → u ≠ v →
    ∃ c, g.ImmediateDominator entry v c ∧ g.Dominates entry c u) (fun hve hne => ?_)
    (fun m n hn hne hi ih hvn hnv => ?_) hu hvu hne
  · exact absurd ((Dominates.of_entry v).antisymm hve (hvu.reachable hu)) hne
  · have hvm := hi.2 v hvn (Ne.symm hnv)
    by_cases hm : m = v
    · exact ⟨n, hm ▸ hi, .refl n⟩
    · obtain ⟨c, hc, hcm⟩ := ih hvm hm
      exact ⟨c, hc, hcm.trans hi.1.1⟩

end Dominance

end FlowOpt
