import FlowOpt.FlowGraph.ByName
import FlowOpt.Proofs.FlowGraph.Exact
import FlowOpt.Proofs.Graph.DominatorTree
import FlowOpt.Proofs.Inquiry

/-!
# Dominance by looking for a way around

A search that may not enter a node meets what can be reached without passing it: whatever it meets
was reached so, and what it has met when it ends without the target is closed under the edges that
do not lead to that node. So it tells for every node of every graph whether all paths to it pass
another one. The dominator sets say the same about reachable nodes, and differ about the others, to
which there is no path at all.
-/

namespace FlowOpt

namespace Digraph

variable {α : Type} {g : Digraph α} {root target v w : Nat} {work : List Nat} {met : BitSet}
  {c fuel : Nat}

theorem searchLoop_succ_cons (target fuel v : Nat) (work : List Nat) (met : BitSet) :
    g.searchLoop target (fuel + 1) (v :: work) met =
      if v = target then true
      else g.searchLoop target fuel (meet work met (g.succs v)).1 (meet work met (g.succs v)).2 :=
  rfl

/-- What holds of the nodes that wait, and passes along edges to nodes that were not met, holds of a
target that is met. -/
theorem searchLoop_sound {P : Nat → Prop} (hc : met.capacity = g.size)
    (hs : ∀ v w, P v → w ∈ g.succs v → w < g.size → ¬ w ∈ met → P w) (hw : ∀ v ∈ work, P v)
    (h : g.searchLoop target fuel work met = true) : P target := by
  induction fuel generalizing work met with
  | zero => cases h
  | succ fuel ih =>
    cases work with
    | nil => cases h
    | cons u work =>
      have hu : P u := hw u List.mem_cons_self
      rw [searchLoop_succ_cons] at h
      split at h
      · next heq => exact heq ▸ hu
      · refine ih ((capacity_meet _ _ _).trans hc) (fun v w hv hvw hlt hn => ?_) (fun v hv => ?_) h
        · exact hs v w hv hvw hlt fun hm => hn ((mem_meet_snd _ _ _).2 (.inl hm))
        · rcases (mem_meet_fst _ _ _).1 hv with hv | ⟨hv, hn⟩
          · exact hw v (List.mem_cons_of_mem _ hv)
          · obtain ⟨hv, hlt⟩ := ((mem_meet_snd _ _ _).1 hv).resolve_left hn
            exact hs u v hu hv (hc ▸ hlt) hn

/-- A search with steps for every node that waits or is not met, and that ends without the target,
has met nodes which no edge leaves but to nodes met before. -/
theorem searchLoop_complete (hc : met.capacity = g.size)
    (hf : work.length + (g.unmet met).card ≤ fuel)
    (h : g.searchLoop target fuel work met = false) :
    ∃ visited : Set Nat, (∀ v ∈ work, v ∈ visited) ∧ target ∉ visited ∧
      ∀ v ∈ visited, ∀ w ∈ g.succs v, w < g.size → w ∈ met ∨ w ∈ visited := by
  induction fuel generalizing work met with
  | zero =>
    obtain rfl : work = [] := List.eq_nil_of_length_eq_zero (by omega)
    exact ⟨∅, by simp⟩
  | succ fuel ih =>
    cases work with
    | nil => exact ⟨∅, by simp⟩
    | cons u work =>
      have hlen := length_meet work hc (g.succs u)
      rw [List.length_cons] at hf
      rw [searchLoop_succ_cons] at h
      split at h
      · cases h
      · next hne =>
        obtain ⟨visited, hwork, htarget, hclosed⟩ :=
          ih ((capacity_meet _ _ _).trans hc) (by omega) h
        have hnew : ∀ w, w ∈ (meet work met (g.succs u)).2 → w ∈ met ∨ w ∈ visited := by
          intro w hw
          by_cases hm : w ∈ met
          · exact .inl hm
          · exact .inr (hwork w ((mem_meet_fst _ _ _).2 (.inr ⟨hw, hm⟩)))
        refine ⟨insert u visited, fun v hv => ?_, ?_, fun v hv w hw hlt => ?_⟩
        · rcases List.mem_cons.1 hv with rfl | hv
          · exact .inl rfl
          · exact .inr (hwork v ((mem_meet_fst _ _ _).2 (.inl hv)))
        · rintro (rfl | ht)
          · exact hne rfl
          · exact htarget ht
        · rcases hv with rfl | hv
          · exact (hnew w ((mem_meet_snd _ _ _).2 (.inr ⟨hw, hc ▸ hlt⟩))).imp_right .inr
          · exact ((hclosed v hv w hw hlt).elim (hnew w) .inr).imp_right .inr

section Avoiding

variable (g) in
def avoiding (root c : Nat) : List Nat × BitSet := meet [] ((BitSet.empty g.size).add c) [root]

theorem dominatesByPaths_of_short (h : c = target ∨ c = root) :
    g.dominatesByPaths root c target = true := if_pos h

theorem dominatesByPaths_eq (h : ¬ (c = target ∨ c = root)) : g.dominatesByPaths root c target =
    !g.searchLoop target (g.size + 1) (g.avoiding root c).1 (g.avoiding root c).2 := if_neg h

theorem capacity_avoiding : (g.avoiding root c).2.capacity = g.size := capacity_meet _ _ _

theorem length_avoiding_le :
    (g.avoiding root c).1.length + (g.unmet (g.avoiding root c).2).card ≤ g.size + 1 := by
  rw [avoiding, length_meet (g := g) [] rfl, List.length_nil, Nat.zero_add]
  exact (card_unmet_le _).trans (Nat.le_succ _)

theorem mem_add_empty : v ∈ (BitSet.empty g.size).add c ↔ v = c ∧ v < g.size := by
  rw [BitSet.mem_add]
  simp only [BitSet.not_mem_empty, false_or]
  exact and_congr_right fun h => h ▸ Iff.rfl

theorem mem_avoiding_met : v ∈ (g.avoiding root c).2 ↔ v < g.size ∧ (v = c ∨ v = root) := by
  rw [avoiding, mem_meet_snd, mem_add_empty, List.mem_singleton, BitSet.capacity_add,
    BitSet.capacity_empty]
  tauto

theorem mem_avoiding_work (hne : c ≠ root) :
    v ∈ (g.avoiding root c).1 ↔ v = root ∧ root < g.size := by
  have hmet : v ∈ (g.avoiding root c).2 ↔ v < g.size ∧ (v = c ∨ v = root) := mem_avoiding_met
  rw [avoiding] at hmet ⊢
  rw [mem_meet_fst, hmet, mem_add_empty]
  constructor
  · rintro (h | ⟨⟨hlt, rfl | rfl⟩, hn⟩)
    · cases h
    · exact absurd ⟨rfl, hlt⟩ hn
    · exact ⟨rfl, hlt⟩
  · rintro ⟨rfl, hlt⟩
    exact .inr ⟨⟨hlt, .inr rfl⟩, fun h => hne h.1.symm⟩

variable (hne : c ≠ root)
include hne

/-- What the search meets can be reached without passing `c`. -/
theorem exists_path_of_searchLoop
    (h : g.searchLoop target fuel (g.avoiding root c).1 (g.avoiding root c).2 = true) :
    ∃ p, g.Path root target p ∧ c ∉ p := by
  refine searchLoop_sound (P := fun v => ∃ p, g.Path root v p ∧ c ∉ p) capacity_avoiding ?_ ?_ h
  · rintro v w ⟨p, hp, hcp⟩ hw hlt hn
    refine ⟨p ++ [w], hp.step hw hlt, fun hmem => ?_⟩
    rcases List.mem_append.1 hmem with hmem | hmem
    · exact hcp hmem
    · exact hn (mem_avoiding_met.2 ⟨hlt, .inl (List.mem_singleton.1 hmem).symm⟩)
  · intro v hv
    obtain ⟨rfl, hlt⟩ := (mem_avoiding_work hne).1 hv
    exact ⟨[v], .start hlt, fun h => hne (List.mem_singleton.1 h)⟩

/-- What the search does not meet has no path that does not pass `c`: all of such a path would be
visited. -/
theorem dominates_of_searchLoop
    (h : g.searchLoop target (g.size + 1) (g.avoiding root c).1 (g.avoiding root c).2 = false) :
    g.Dominates root c target := by
  intro p hp
  obtain ⟨visited, hwork, htarget, hclosed⟩ :=
    searchLoop_complete capacity_avoiding length_avoiding_le h
  have hvisited : ∀ v q, g.Path root v q → c ∉ q → v ∈ visited := by
    intro v q hq
    induction hq with
    | start hlt => exact fun _ => hwork root ((mem_avoiding_work hne).2 ⟨rfl, hlt⟩)
    | @step u w q hq hw hlt ih =>
      intro hcq
      have hu := ih fun hcq' => hcq (List.mem_append_left _ hcq')
      rcases hclosed u hu w hw hlt with hm | hm
      · rcases (mem_avoiding_met.1 hm).2 with rfl | rfl
        · exact absurd (List.mem_append_right q List.mem_cons_self) hcq
        · exact hwork w ((mem_avoiding_work hne).2 ⟨rfl, hlt⟩)
      · exact hm
  by_contra hcp
  exact htarget (hvisited target p hp hcp)

end Avoiding

/-- The check by paths is dominance, of any nodes in any graph. -/
theorem dominatesByPaths_iff :
    g.dominatesByPaths root c target = true ↔ g.Dominates root c target := by
  by_cases hshort : c = target ∨ c = root
  · refine iff_of_true (dominatesByPaths_of_short hshort) ?_
    rcases hshort with rfl | rfl
    · exact .refl c
    · exact .of_entry target
  · have hne : c ≠ root := fun h => hshort (.inr h)
    rw [dominatesByPaths_eq hshort, Bool.not_eq_true']
    refine ⟨dominates_of_searchLoop hne, fun h => ?_⟩
    by_contra htrue
    obtain ⟨p, hp, hcp⟩ := exists_path_of_searchLoop hne (Bool.not_eq_false _ ▸ htrue)
    exact hcp (h p hp)

theorem dominatesByPaths_of_unreachable (h : ¬ g.Reachable root target) :
    g.dominatesByPaths root c target = true :=
  dominatesByPaths_iff.2 fun p hp => absurd ⟨p, hp⟩ h

end Digraph

namespace FlowGraph

open FlowOpt.Digraph FlowOpt.Dominance

variable {g : FlowGraph} {a b : Block} {u v : Nat}

theorem Built.forward (h : g.Built) : g.forward.WellFormed ∧ g.forward.size = g.size := by
  induction h with
  | @ofBlocks g blocks stem h =>
    have hg := WellFormed.of_ofBlocks h
    have hforward : g.forward = g.graph := if_neg (by simp [hg.forward])
    rw [hforward]
    exact ⟨hg.graph, rfl⟩
  | turned _ ih => rwa [forward_switchDirections]

theorem Built.require (h : g.Built) (hb : g.blocks[v]? = some b) : g.require b.name = .ok v := by
  have hid : g.id? b.name = some v :=
    (id?_eq_some_iff h.names_nodup b.name v).2 ⟨lt_size_iff.2 ⟨b, hb⟩, nameOf_eq hb⟩
  rw [FlowGraph.require, hid]

theorem Built.name_eq_iff (h : g.Built) (ha : g.blocks[u]? = some a) (hb : g.blocks[v]? = some b) :
    a.name = b.name ↔ u = v := by
  constructor
  · intro hname
    have hv := h.require hb
    rw [← hname, h.require ha] at hv
    exact Except.ok.inj hv
  · rintro rfl
    rw [Option.some.inj (ha.symm.trans hb)]

/-- Both ways to ask whether a block dominates another find both of them. -/
theorem Built.dominates_eq (h : g.Built) (ha : g.blocks[u]? = some a)
    (hb : g.blocks[v]? = some b) :
    g.dominates a.name b.name = .ok (g.dominance.dominates u v) ∧
      g.dominatesByPaths a.name b.name = .ok (g.forward.dominatesByPaths 0 u v) := by
  unfold FlowGraph.dominates FlowGraph.dominatesByPaths
  rw [h.require ha, h.require hb]
  exact ⟨rfl, rfl⟩

/-- For a block that the entry reaches both give one answer, and it is whether every path there
passes the other block. A block that is not reached is dominated by itself alone in one answer, and
by every block in the other. -/
theorem path_check_agrees (hg : g.Built) (ha : g.blocks[u]? = some a)
    (hb : g.blocks[v]? = some b) :
    (g.forward.Reachable 0 v → ∃ answer, g.dominates a.name b.name = .ok answer ∧
      g.dominatesByPaths a.name b.name = .ok answer ∧
      (answer = true ↔ g.forward.Dominates 0 u v)) ∧
    (¬ g.forward.Reachable 0 v →
      g.dominates a.name b.name = .ok (decide (a.name = b.name)) ∧
      g.dominatesByPaths a.name b.name = .ok true) := by
  obtain ⟨hw, hsize⟩ := hg.forward
  obtain ⟨hsets, hpaths⟩ := hg.dominates_eq ha hb
  rw [hsets, hpaths]
  refine ⟨fun hr => ⟨_, rfl, congrArg Except.ok ?_, dominates_iff hw.symmetric hr⟩,
    fun hn => ⟨congrArg Except.ok ?_, congrArg Except.ok ?_⟩⟩
  · rw [Bool.eq_iff_iff, dominatesByPaths_iff]
    exact (dominates_iff hw.symmetric hr).symm
  · rw [Bool.eq_iff_iff, decide_eq_true_iff]
    exact (dominates_iff_of_unreachable hw.symmetric (hsize ▸ lt_size_iff.2 ⟨b, hb⟩) hn).trans
      (hg.name_eq_iff ha hb).symm
  · exact dominatesByPaths_of_unreachable hn

def bypassed : List Block :=
  [⟨"top", [.atLabel "top", .branch "c" "top" "done"]⟩,
    ⟨"lost", [.atLabel "lost", .jump "done"]⟩, ⟨"done", [.atLabel "done"]⟩]

theorem bypassed_path_check : ∃ g, Built g ∧ g.reversed = true ∧ g.blocks.tail = bypassed ∧
    (∃ answer, g.dominates "top" "done" = .ok answer ∧
      g.dominatesByPaths "top" "done" = .ok answer ∧
      (answer = true ↔ g.forward.Dominates 0 1 3)) ∧
    g.dominates "top" "lost" = .ok false ∧ g.dominatesByPaths "top" "lost" = .ok true := by
  have hshape : (ofBlocks bypassed "entry").toOption.any (fun g =>
      g.blocks.tail = bypassed && g.forward.dfs 0 = [0, 1, 3]) = true := by
    decide +kernel
  obtain ⟨g, hg, hshape⟩ := exists_of_toOption_any hshape
  simp only [Bool.and_eq_true, decide_eq_true_eq] at hshape
  obtain ⟨hblocks, hdfs⟩ := hshape
  have hbuilt : Built g.switchDirections := .turned (.ofBlocks hg)
  have hturned : g.switchDirections.reversed = true := by
    simp [switchDirections, (WellFormed.of_ofBlocks hg).forward]
  have hblock : ∀ v, g.switchDirections.blocks[v + 1]? = bypassed[v]? := fun v => by
    rw [← hblocks, List.getElem?_tail]
    rfl
  have hreach : ∀ v, g.switchDirections.forward.Reachable 0 v ↔ v ∈ [0, 1, 3] := fun v => by
    rw [forward_switchDirections, ← hdfs, mem_dfs]
  exact ⟨g.switchDirections, hbuilt, hturned, hblocks,
    (path_check_agrees hbuilt (hblock 0) (hblock 2)).1 ((hreach 3).2 (by decide)),
    (path_check_agrees hbuilt (hblock 0) (hblock 1)).2 fun h =>
      absurd ((hreach 2).1 h) (by decide)⟩

end FlowGraph

end FlowOpt
