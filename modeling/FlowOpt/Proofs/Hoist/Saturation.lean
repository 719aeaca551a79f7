import FlowOpt.Proofs.Hoist.Choice
import FlowOpt.Proofs.Hoist.Marking

/-!
# All that is invariant is marked and taken

What can be marked in a loop is marked there. So what is invariant in a loop is so in every loop
inside it that holds it. Without phis no loop is skipped: whatever is marked in
a loop is taken out of it or out of a loop that is no deeper. An instruction that stays inside a
loop is thus invariant in no loop around.
-/

namespace FlowOpt

open FlowOpt.Digraph

variable {g : FlowGraph} {l k : NaturalLoop} {s t : Site} {x : String}

def FlowGraph.NoPhi (g : FlowGraph) : Prop := ∀ b ∈ g.blocks, ∀ i ∈ b.instrs, i.isPhi = false

theorem FlowGraph.hasPhi_eq_false (h : g.NoPhi) (v : Nat) : g.hasPhi v = false := by
  unfold FlowGraph.hasPhi
  cases hv : g.node? v with
  | none => rfl
  | some n =>
    have hb : n.block ∈ g.blocks := by
      refine List.mem_of_getElem? (i := v) ?_
      rw [← FlowGraph.map_block_node?, hv]
      rfl
    simp only [Option.any_some, List.any_eq_false]
    intro i hi
    simp [h _ hb i (List.mem_filter.1 hi).1]

section Nested

variable {results : Results} (hg : g.WellFormed)
  (hsolved : g.solve (edgeLiveness g) = .ok results) (hl : l ∈ g.loops.loops)
  (hk : k ∈ g.loops.loops) (hc : k.contains l.header = true)
include hg hl hk hc

theorem contains_of_around {v : Nat} (hv : l.contains v = true) : k.contains v = true := by
  have hloop := (FlowGraph.mem_loops hg).1 hl
  have hloop' := (FlowGraph.mem_loops hg).1 hk
  by_cases heq : k.header = l.header
  · rwa [LoopForest.eq_of_header_eq hloop' hloop heq]
  · exact LoopForest.contains_of_contains_header hg.graph hloop' hloop heq hc hv

theorem mem_sites_of_around (hs : s ∈ l.sites g) : s ∈ k.sites g := by
  obtain ⟨hin, hat⟩ := (NaturalLoop.mem_sites hg hl).1 hs
  exact (NaturalLoop.mem_sites hg hk).2 ⟨contains_of_around hg hl hk hc hin, hat⟩

include hsolved

/-- On the way from the header of a loop to that of one inside, nothing assigns what is invariant
and assigned there, so it is not live at either. -/
theorem not_liveIn_inner (hs : s ∈ k.invariants g (g.liveAtHeader results k))
    (hin : l.contains s.node = true) (hd : s.instr.dest = some x) :
    ¬ g.LiveIn results l.header x := by
  have hloop := (FlowGraph.mem_loops hg).1 hl
  have hloop' := (FlowGraph.mem_loops hg).1 hk
  obtain ⟨y, hy, hlive, honce⟩ := (NaturalLoop.marks_invariants g k _).ownsDest hs
  obtain rfl : y = x := Option.some.inj (hy.symm.trans hd)
  have hheader : ¬ g.LiveIn results k.header y := by
    intro h
    have hmem : NameMap.contains (g.liveAtHeader results k) y = true := h
    rw [hlive] at hmem
    cases hmem
  have hway := (LoopForest.header_reachable hg.graph hloop).induction
    (P := fun v => (l.contains v = false ∧ (k.contains v = true → ¬ g.LiveIn results v y)) ∨
      ¬ g.LiveIn results l.header y) (.inl ⟨?_, fun hzero => ?_⟩) fun v w _ ih hw _ => ?_
  · rcases hway with ⟨hout, -⟩ | hnot
    · rw [LoopForest.contains_header hg.graph hloop] at hout
      cases hout
    · exact hnot
  · exact LoopForest.not_contains_entry hg.graph hloop hg.entry_not_succ
  · rw [LoopForest.not_contains_entry hg.graph hloop' hg.entry_not_succ] at hzero
    cases hzero
  · rcases ih with ⟨hout, hnot⟩ | hnot
    · have hafter : k.contains w = true → ¬ g.LiveIn results w y := by
        intro hkw hwy
        by_cases hwk : w = k.header
        · exact hheader (hwk ▸ hwy)
        · have hkv := LoopForest.contains_pred hg.graph hloop' hkw hwk hw
          obtain ⟨b, -, hb, -⟩ := (hg.mem_succs v w).1 hw
          refine hnot hkv (hwy.of_succ hg hsolved hw hb fun i hi hid => ?_)
          obtain ⟨j, hj⟩ := List.getElem?_of_mem hi
          have hsite : (⟨v, j, i⟩ : Site) ∈ k.sites g :=
            (NaturalLoop.mem_sites hg hk).2 ⟨hkv, b, hb, hj⟩
          rw [← honce _ hsite hid, hout] at hin
          cases hin
      cases hlw : l.contains w with
      | false => exact .inl ⟨rfl, hafter⟩
      | true =>
        right
        by_cases hwl : w = l.header
        · exact hwl ▸ hafter (hwl ▸ hc)
        · rw [LoopForest.contains_pred hg.graph hloop hlw hwl hw] at hout
          cases hout
    · exact .inr hnot

/-- What is invariant in a loop is so in every loop inside it that holds it: what it depends on
there was marked before. -/
theorem mem_invariants_of_around (hs : s ∈ k.invariants g (g.liveAtHeader results k))
    (hin : l.contains s.node = true) : s ∈ l.invariants g (g.liveAtHeader results l) := by
  have hm := NaturalLoop.marks_invariants g k (g.liveAtHeader results k)
  refine NaturalLoop.invariants_induction (P := fun s => l.contains s.node = true →
    s ∈ l.invariants g (g.liveAtHeader results l)) (fun s hs ih hin => ?_) s hs hin
  obtain ⟨x, hx, -, honce⟩ := hm.ownsDest hs
  have hsite := (NaturalLoop.mem_sites hg hk).1 (hm.mem s hs)
  refine NaturalLoop.mem_invariants ((NaturalLoop.mem_sites hg hl).2 ⟨hin, hsite.2⟩)
    (hm.isMovable hs) hx ?_ (fun t ht hd => ?_) fun y hy t ht hd => ?_
  · rw [← Bool.not_eq_true]
    exact not_liveIn_inner hg hsolved hl hk hc hs hin hx
  · exact honce t (mem_sites_of_around hg hl hk hc ht) hd
  · exact ih y hy t (mem_sites_of_around hg hl hk hc ht) hd ((NaturalLoop.mem_sites hg hl).1 ht).1

end Nested

def ReadByTaken (planned : List PlannedLoop) (v : Nat) (x : String) : Prop :=
  ∃ e ∈ planned, e.1.contains v = true ∧ ∃ s ∈ e.2.sites, x ∈ s.instr.args

section Planned

variable {results : Results} {planned : List PlannedLoop} (hg : g.WellFormed) (hphi : g.NoPhi)
  (h : Planned g results g.loops.outermostFirst planned (g.planLoops results))
include hg hphi h

/-- What is marked in a loop is taken out of a loop that is no deeper. -/
theorem Planned.exists_taken (hl : l ∈ g.loops.loops)
    (hs : s ∈ l.invariants g (g.liveAtHeader results l)) :
    ∃ e ∈ planned, e.1.depth ≤ l.depth ∧ s ∈ e.2.sites := by
  obtain ⟨before, after, heq⟩ := List.append_of_mem (LoopForest.mem_outermostFirst.2 hl)
  have hskip : g.nameOf l.header ∉ (g.planLoops results).skipped := by
    intro hmem
    obtain ⟨k, -, -, hk, -⟩ := (settled_planLoops g results).skipped _ hmem
    rw [FlowGraph.hasPhi_eq_false hphi] at hk
    cases hk
  obtain ⟨e, he, hmem, hse⟩ := h.exists_taken_upTo hg heq hskip hs
  refine ⟨e, he, ?_, hse⟩
  rcases List.mem_append.1 hmem with hmem | hmem
  · have hsorted := LoopForest.pairwise_outermostFirst g.loops
    rw [heq, List.pairwise_append] at hsorted
    exact hsorted.2.2 e.1 hmem l List.mem_cons_self
  · rw [List.mem_singleton.1 hmem]

/-- An instruction of a loop that is taken out of no loop around it. -/
def StaysIn (g : FlowGraph) (planned : List PlannedLoop) (l : NaturalLoop) (s : Site) : Prop :=
  s ∈ l.sites g ∧ ∀ e ∈ planned, e.1.contains l.header = true → s ∉ e.2.sites

variable (hreach : ∀ v, v < g.size → g.graph.Reachable 0 v) (hl : l ∈ g.loops.loops)
  (hstays : StaysIn g planned l s)
include hreach hl hstays

/-- It is invariant in no loop around: what took it would be a loop inside, which is deeper. -/
theorem StaysIn.not_mem_invariants (hk : k ∈ g.loops.loops) (hc : k.contains l.header = true) :
    s ∉ k.invariants g (g.liveAtHeader results k) := by
  intro hs
  obtain ⟨e, he, hle, hse⟩ := h.exists_taken hg hphi hk hs
  have hloop := (FlowGraph.mem_loops hg).1 hl
  have hloop' := (FlowGraph.mem_loops hg).1 hk
  have hloop'' := (FlowGraph.mem_loops hg).1 (h.mem_loops he)
  have hin := ((NaturalLoop.mem_sites hg hl).1 hstays.1).1
  have hin' := (NaturalLoop.mem_sites hg (h.mem_loops he)).1 (h.mem_sites he hse)
  obtain ⟨b, hb, -⟩ := hin'.2
  have hr := hreach s.node (FlowGraph.lt_size_iff.2 ⟨b, hb⟩)
  rcases LoopForest.contains_header_of_common hg.graph hloop hloop'' hin hin'.1 hr with
    hinner | houter
  · have hke := contains_of_around hg hl hk hc hinner
    have hne : k.header ≠ e.1.header := by
      intro heq
      obtain rfl := LoopForest.eq_of_header_eq hloop' hloop'' heq
      exact hstays.2 e he hc hse
    have hlt := LoopForest.depth_lt hg.graph hloop' hloop'' hne hke
    omega
  · exact hstays.2 e he houter hse

/-- It can be marked in none: its destination is live at the header although nothing taken out of a
loop around reads it, or something else that stays assigns that or an argument. -/
theorem StaysIn.blocked (hsolved : g.solve (edgeLiveness g) = .ok results)
    (hmov : s.instr.isMovable = true) (hd : s.instr.dest = some x)
    (hlive : g.LiveIn results l.header x → ReadByTaken planned l.header x) :
    (∃ t, StaysIn g planned l t ∧ t.instr.dest = some x ∧ t ≠ s) ∨
      ∃ y ∈ s.instr.args, ∃ t, StaysIn g planned l t ∧ t.instr.dest = some y := by
  by_contra hnone
  push Not at hnone
  obtain ⟨hone, hargs⟩ := hnone
  have houter : ∀ e ∈ planned, e.1.contains l.header = true → s ∈ e.1.sites g := fun e he hc =>
    mem_sites_of_around hg hl (h.mem_loops he) hc hstays.1
  have htaken : ∀ t ∈ l.sites g, ¬ StaysIn g planned l t →
      ∃ e ∈ planned, e.1.contains l.header = true ∧
        t ∈ e.1.invariants g (g.liveAtHeader results e.1) := by
    intro t ht hnot
    unfold StaysIn at hnot
    push Not at hnot
    obtain ⟨e, he, hc, hte⟩ := hnot ht
    exact ⟨e, he, hc, h.mem_invariants he hte⟩
  have hheader := LoopForest.contains_header hg.graph ((FlowGraph.mem_loops hg).1 hl)
  apply StaysIn.not_mem_invariants hg hphi h hreach hl hstays hl hheader
  refine NaturalLoop.mem_invariants hstays.1 hmov hd ?_ (fun t ht htd => ?_)
    fun y hy t ht htd => ?_
  · by_contra hmem
    rw [Bool.not_eq_false] at hmem
    obtain ⟨e, he, hc, t, ht, hx⟩ := hlive hmem
    apply StaysIn.not_mem_invariants hg hphi h hreach hl hstays (h.mem_loops he) hc
    exact NaturalLoop.arg_mem_invariants (h.mem_invariants he ht) hx (houter e he hc) hd
  · by_contra hne
    by_cases hts : StaysIn g planned l t
    · exact hne (hone t hts htd)
    · obtain ⟨e, he, hc, hte⟩ := htaken t ht hts
      obtain ⟨z, hz, -, honce⟩ := (NaturalLoop.marks_invariants g e.1 _).ownsDest hte
      obtain rfl : z = x := Option.some.inj (hz.symm.trans htd)
      exact hne (honce s (houter e he hc) hd).symm
  · by_cases hts : StaysIn g planned l t
    · exact absurd htd (hargs y hy t hts)
    · obtain ⟨e, he, hc, hte⟩ := htaken t ht hts
      exact mem_invariants_of_around hg hsolved hl (h.mem_loops he) hc hte
        ((NaturalLoop.mem_sites hg hl).1 ht).1

end Planned

end FlowOpt
