import FlowOpt.Proofs.FlowGraph.PathCheck
import FlowOpt.Proofs.Graph.LoopSearch
import FlowOpt.Proofs.Graph.Merging

/-!
# Cycles that are loops

A way from the entry to a cycle enters it where it first meets one of its nodes. A cycle that all
ways enter at one node has this node as a dominator of all others, so the edge that leads back to it
makes a loop. The edge of a loop in turn closes a cycle of nodes that the header dominates, which is
entered there alone. So there are no loops just when each cycle that can be reached is entered at
two nodes at least, as is the case in code with a jump into the middle of a loop. Only where no such
cycle exists do loops tell whether the code has a cycle.
-/

namespace FlowOpt

namespace Digraph

variable {α : Type} {g : Digraph α} {entry h u v x y : Nat} {p q : List Nat}

variable (g) in
def ReachableCycle (entry : Nat) (p : List Nat) : Prop :=
  ∃ v u, g.Reachable entry v ∧ g.Path v u p ∧ v ∈ g.succs u

variable (g) in
/-- Some way from the entry meets the nodes at this one first. -/
def EnteredAt (entry : Nat) (p : List Nat) (x : Nat) : Prop :=
  x ∈ p ∧ ∃ q, g.Path entry x q ∧ ∀ w ∈ q.dropLast, w ∉ p

/-- A way that meets the nodes enters them somewhere. -/
theorem Path.exists_enteredAt (hq : g.Path entry v q) (hmeet : ∃ y ∈ q, y ∈ p) :
    ∃ x ∈ q, g.EnteredAt entry p x := by
  induction hq with
  | start hlt =>
    obtain ⟨y, hy, hyp⟩ := hmeet
    obtain rfl := List.mem_singleton.1 hy
    exact ⟨y, hy, hyp, [y], .start hlt, by simp⟩
  | @step u w q hq hw hlt ih =>
    by_cases hbefore : ∃ y ∈ q, y ∈ p
    · obtain ⟨x, hx, hentered⟩ := ih hbefore
      exact ⟨x, List.mem_append_left _ hx, hentered⟩
    · obtain ⟨y, hy, hyp⟩ := hmeet
      rcases List.mem_append.1 hy with hy | hy
      · exact absurd ⟨y, hy, hyp⟩ hbefore
      · obtain rfl := List.mem_singleton.1 hy
        refine ⟨y, List.mem_append_right _ hy, hyp, _, hq.step hw hlt, fun z hz hzp => ?_⟩
        rw [List.dropLast_concat] at hz
        exact hbefore ⟨z, hz, hzp⟩

namespace ReachableCycle

theorem reachable (hp : g.ReachableCycle entry p) (hy : y ∈ p) : g.Reachable entry y := by
  obtain ⟨v, u, hv, hpath, -⟩ := hp
  obtain ⟨q, -, -, hq⟩ := hpath.exists_prefix hy
  exact hq.reachable hv

theorem exists_pred (hp : g.ReachableCycle entry p) (hy : y ∈ p) : ∃ u ∈ p, y ∈ g.succs u := by
  obtain ⟨v, u, -, hpath, hback⟩ := hp
  obtain ⟨q, r, rfl, hq⟩ := hpath.exists_prefix hy
  cases hq with
  | start _ => exact ⟨u, hpath.mem_last, hback⟩
  | step hq hw _ => exact ⟨_, List.mem_append_left _ (List.mem_append_left _ hq.mem_last), hw⟩

theorem exists_enteredAt (hp : g.ReachableCycle entry p) : ∃ x, g.EnteredAt entry p x := by
  obtain ⟨v, u, ⟨q, hq⟩, hpath, -⟩ := hp
  obtain ⟨x, -, hx⟩ := hq.exists_enteredAt ⟨v, hq.mem_last, hpath.mem_entry⟩
  exact ⟨x, hx⟩

/-- A cycle that is entered at one node only has a back edge to it. -/
theorem exists_backEdge (hp : g.ReachableCycle entry p) (hx : g.EnteredAt entry p x)
    (hone : ∀ y, g.EnteredAt entry p y → y = x) : ∃ u, g.BackEdge entry u x := by
  obtain ⟨u, hu, hxu⟩ := hp.exists_pred hx.1
  refine ⟨u, hp.reachable hu, hxu, fun q hq => ?_⟩
  obtain ⟨y, hy, hentered⟩ := hq.exists_enteredAt ⟨u, hq.mem_last, hu⟩
  exact hone y hentered ▸ hy

end ReachableCycle

/-- The nodes are entered at one that dominates them, if at all. -/
theorem EnteredAt.eq_of_dominates (hx : g.EnteredAt entry p x) (hh : h ∈ p)
    (hdom : g.Dominates entry h x) : x = h := by
  obtain ⟨-, q, hq, hfirst⟩ := hx
  have hmem : h ∈ q := hdom q hq
  rw [← hq.dropLast_concat] at hmem
  rcases List.mem_append.1 hmem with hmem | hmem
  · exact absurd hh (hfirst h hmem)
  · exact (List.mem_singleton.1 hmem).symm

/-- A back edge closes a cycle that is entered at its target only. -/
theorem BackEdge.exists_cycle (hb : g.BackEdge entry u h) :
    ∃ p, g.ReachableCycle entry p ∧ ∀ x, g.EnteredAt entry p x → x = h := by
  obtain ⟨hu, hh, hdom⟩ := hb
  obtain ⟨p, hp, hall⟩ := Dominates.exists_path hdom hu
  exact ⟨p, ⟨h, u, hdom.reachable hu, hp, hh⟩,
    fun x hx => hx.eq_of_dominates hp.mem_entry (hall x hx.1)⟩

end Digraph

open FlowOpt.Digraph

/-- There are no loops iff each cycle that can be reached is entered at two nodes at least. -/
theorem LoopForest.isEmpty_iff {α : Type} {g : Digraph α} (hg : g.WellFormed) (entry : Nat) :
    (ofGraph g (.ofGraph g entry)).isEmpty = true ↔ ∀ p, g.ReachableCycle entry p →
      ∃ x y, x ≠ y ∧ g.EnteredAt entry p x ∧ g.EnteredAt entry p y := by
  have hempty : (ofGraph g (.ofGraph g entry)).isEmpty = true ↔ ∀ u h, ¬ g.BackEdge entry u h := by
    rw [isEmpty, List.isEmpty_iff, List.eq_nil_iff_forall_not_mem]
    constructor
    · intro hnone u h hb
      obtain ⟨l, hl, -⟩ := (exists_header_iff hg).2 ⟨u, hb⟩
      exact hnone l hl
    · intro hnone l hl
      obtain ⟨u, hb⟩ := (exists_header_iff hg).1 ⟨l, hl, rfl⟩
      exact hnone u l.header hb
  rw [hempty]
  constructor
  · intro hnone p hp
    by_contra hone
    push Not at hone
    obtain ⟨x, hx⟩ := hp.exists_enteredAt
    obtain ⟨u, hb⟩ := hp.exists_backEdge hx fun y hy => by
      by_contra hne
      exact hone y x hne hy hx
    exact hnone u x hb
  · intro htwo u h hb
    obtain ⟨p, hp, hone⟩ := hb.exists_cycle
    obtain ⟨x, y, hne, hx, hy⟩ := htwo p hp
    exact hne ((hone x hx).trans (hone y hy).symm)

namespace FlowGraph

variable {g : FlowGraph}

/-- Code without loops has only cycles that are entered at two blocks or more. If it has no such
cycle, it has no loops just when the part that can be reached is without cycles. -/
theorem loops_isEmpty_iff (hg : g.Built) :
    (g.loops.isEmpty = true ↔ ∀ p, g.forward.ReachableCycle g.entry p → ∃ x y, x ≠ y ∧
      g.forward.EnteredAt g.entry p x ∧ g.forward.EnteredAt g.entry p y) ∧
    ((∀ p, g.forward.ReachableCycle g.entry p → ∀ x y, g.forward.EnteredAt g.entry p x →
      g.forward.EnteredAt g.entry p y → x = y) →
      (g.loops.isEmpty = true ↔ ∀ p, ¬ g.forward.ReachableCycle g.entry p)) := by
  have hloops := LoopForest.isEmpty_iff hg.forward.1 g.entry
  refine ⟨hloops, fun hone => hloops.trans ⟨fun htwo p hp => ?_, fun hnone p hp => ?_⟩⟩
  · obtain ⟨x, y, hne, hx, hy⟩ := htwo p hp
    exact hne (hone p hp x y hx hy)
  · exact absurd hp (hnone p)

theorem Built.ofInstructions {instrs : List Instruction} (h : ofInstructions instrs = .ok g) :
    g.Built := by
  obtain ⟨blocks, -, hg⟩ := bind_eq_ok.1 h
  exact .ofBlocks hg

def spinning : List Instruction := [.atLabel "top", .jump "top"]

theorem spinning_loops : ∃ g, ofInstructions spinning = .ok g ∧ g.Built ∧
    (∀ p, g.forward.ReachableCycle g.entry p → ∀ x y, g.forward.EnteredAt g.entry p x →
      g.forward.EnteredAt g.entry p y → x = y) ∧
    (g.loops.isEmpty = true ↔ ∀ p, ¬ g.forward.ReachableCycle g.entry p) ∧
    g.loops.isEmpty = false := by
  have hshape : (ofInstructions spinning).toOption.any (fun g => g.forward.size = 2 &&
      g.forward.succs 0 = [1] && g.forward.succs 1 = [1] && !g.loops.isEmpty) = true := by
    decide +kernel
  obtain ⟨g, hg, hshape⟩ := exists_of_toOption_any hshape
  simp only [Bool.and_eq_true, decide_eq_true_eq, Bool.not_eq_true'] at hshape
  obtain ⟨⟨⟨hsize, hzero⟩, hone⟩, hloops⟩ := hshape
  have hbuilt := Built.ofInstructions hg
  -- All edges lead to the second block.
  have honly : ∀ p, g.forward.ReachableCycle g.entry p → ∀ x ∈ p, x = 1 := by
    intro p hp x hx
    obtain ⟨u, hu, hxu⟩ := hp.exists_pred hx
    have hlt : u < 2 := hsize ▸ (hp.reachable hu).lt
    obtain rfl | rfl : u = 0 ∨ u = 1 := by omega
    · simpa [hzero] using hxu
    · simpa [hone] using hxu
  have hentered : ∀ p, g.forward.ReachableCycle g.entry p → ∀ x y,
      g.forward.EnteredAt g.entry p x → g.forward.EnteredAt g.entry p y → x = y :=
    fun p hp x y hx hy => (honly p hp x hx.1).trans (honly p hp y hy.1).symm
  exact ⟨g, hg, hbuilt, hentered, (loops_isEmpty_iff hbuilt).2 hentered, hloops⟩

/-- Two blocks that lead to each other, with a branch in front to either. -/
def eitherWay : List Instruction :=
  [.branch "c" "a" "b", .atLabel "a", .jump "b", .atLabel "b", .jump "a"]

/-- They are a cycle and no loop. -/
theorem eitherWay_cycle : ∃ g, ofInstructions eitherWay = .ok g ∧ g.loops.isEmpty = true ∧
    ∃ p, g.forward.ReachableCycle g.entry p := by
  have hshape : (ofInstructions eitherWay).toOption.any (fun g => g.forward.size = 3 &&
      g.forward.succs 0 = [1, 2] && g.forward.succs 1 = [2] && g.forward.succs 2 = [1] &&
      g.loops.isEmpty) = true := by
    decide +kernel
  obtain ⟨g, hg, hshape⟩ := exists_of_toOption_any hshape
  simp only [Bool.and_eq_true, decide_eq_true_eq] at hshape
  obtain ⟨⟨⟨⟨hsize, hzero⟩, hone⟩, htwo⟩, hloops⟩ := hshape
  have hpath : g.forward.Path 1 2 [1, 2] :=
    (Path.start (by omega)).step (by simp [hone]) (by omega)
  have hreach : g.forward.Reachable g.entry 1 :=
    (Reachable.of_lt (by simp [entry, hsize])).step (by simp [entry, hzero]) (by omega)
  exact ⟨g, hg, hloops, [1, 2], 1, 2, hreach, hpath, by simp [htwo]⟩

end FlowGraph

end FlowOpt
