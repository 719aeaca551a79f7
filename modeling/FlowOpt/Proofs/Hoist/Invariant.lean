import FlowOpt.Hoist.Invariant
import FlowOpt.Proofs.FlowGraph.Construction
import FlowOpt.Proofs.Graph.Loop

/-!
# What the marked instructions of a loop have in common

An instruction is marked when those it depends on are marked already. So nothing marked from it on
assigns what it reads, and nothing else in the loop assigns its destination.
-/

namespace FlowOpt

def FlowGraph.InstrAt (g : FlowGraph) (v k : Nat) (i : Instruction) : Prop :=
  ∃ b, g.blocks[v]? = some b ∧ b.instrs[k]? = some i

variable {g : FlowGraph} {l : NaturalLoop} {live : FactMap} {s t u : Site} {v k : Nat}
  {i j : Instruction} {x : String} {sites marked before after : List Site}

theorem FlowGraph.InstrAt.unique (h : g.InstrAt v k i) (h' : g.InstrAt v k j) : i = j := by
  obtain ⟨b, hb, hi⟩ := h
  obtain ⟨b', hb', hj⟩ := h'
  obtain rfl := Option.some.inj (hb.symm.trans hb')
  exact Option.some.inj (hi.symm.trans hj)

theorem FlowGraph.instrAt_iff :
    g.InstrAt v k i ↔ (((g.node? v).map (·.block.instrs)).getD [])[k]? = some i := by
  have hblock := FlowGraph.map_block_node? g v
  unfold FlowGraph.InstrAt
  cases hn : g.node? v with
  | none => simp [← hblock, hn]
  | some node => simp [← hblock, hn]

theorem FlowGraph.mem_loops (hg : g.WellFormed) :
    l ∈ g.loops.loops ↔ l ∈ (LoopForest.ofGraph g.graph (.ofGraph g.graph 0)).loops := by
  simp [FlowGraph.loops, FlowGraph.dominance, FlowGraph.forward, FlowGraph.entry, hg.forward]

theorem FlowGraph.ne_zero_of_contains (hg : g.WellFormed) (hl : l ∈ g.loops.loops)
    (hv : l.contains v = true) : v ≠ 0 := by
  rintro rfl
  rw [LoopForest.not_contains_entry hg.graph ((mem_loops hg).1 hl) hg.entry_not_succ] at hv
  cases hv

theorem Site.isAt_iff : s.isAt t = true ↔ s.node = t.node ∧ s.index = t.index := by
  simp [Site.isAt]

theorem Site.eq_of_instrAt (hs : g.InstrAt s.node s.index s.instr)
    (ht : g.InstrAt t.node t.index t.instr) (h : s.isAt t = true) : s = t := by
  obtain ⟨hnode, hindex⟩ := Site.isAt_iff.1 h
  cases s
  cases t
  simp only at hnode hindex hs
  rw [hnode, hindex] at hs
  rw [hnode, hindex, hs.unique ht]

namespace NaturalLoop

theorem mem_sites_iff :
    s ∈ l.sites g ↔ s.node ∈ l.body.members ∧ g.InstrAt s.node s.index s.instr := by
  obtain ⟨v, k, i⟩ := s
  rw [FlowGraph.instrAt_iff]
  simp only [sites, List.mem_flatMap, List.mem_map, Prod.exists, Site.mk.injEq,
    List.mem_zipIdx_iff_getElem?]
  constructor
  · rintro ⟨w, hw, j, n, hj, rfl, rfl, rfl⟩
    exact ⟨hw, hj⟩
  · rintro ⟨hv, hi⟩
    exact ⟨v, hv, i, k, hi, rfl, rfl, rfl⟩

theorem mem_sites (hg : g.WellFormed) (hl : l ∈ g.loops.loops) :
    s ∈ l.sites g ↔ l.contains s.node = true ∧ g.InstrAt s.node s.index s.instr := by
  rw [mem_sites_iff, LoopForest.mem_members hg.graph ((FlowGraph.mem_loops hg).1 hl)]

theorem eq_of_isAt (hs : s ∈ l.sites g) (ht : t ∈ l.sites g) (h : s.isAt t = true) : s = t :=
  Site.eq_of_instrAt (mem_sites_iff.1 hs).2 (mem_sites_iff.1 ht).2 h

theorem pairwise_of_split {α : Type} {R : α → α → Prop} {l : List α}
    (h : ∀ before a after, l = before ++ a :: after → ∀ b ∈ before, R b a) : l.Pairwise R := by
  induction l using List.reverseRecOn with
  | nil => exact .nil
  | append_singleton l a ih =>
    rw [List.pairwise_append]
    refine ⟨ih fun before b after heq => ?_, List.pairwise_singleton _ _, fun b hb c hc => ?_⟩
    · exact h before b (after ++ [a]) (by simp [heq])
    · rw [List.mem_singleton.1 hc]
      exact h l a [] rfl b hb

structure Marks (sites : List Site) (live : FactMap) (marked : List Site) : Prop where
  mem : ∀ s ∈ marked, s ∈ sites
  allowed : ∀ before s after, marked = before ++ s :: after → canMark sites live before s = true

theorem Marks.concat (h : Marks sites live marked) (hs : s ∈ sites)
    (hc : canMark sites live marked s = true) : Marks sites live (marked ++ [s]) := by
  constructor
  · exact List.forall_mem_append.2 ⟨h.mem, List.forall_mem_singleton.2 hs⟩
  · intro before t after heq
    rcases List.eq_nil_or_concat after with rfl | ⟨after, u, rfl⟩
    · obtain ⟨rfl, hst⟩ := List.append_inj' heq rfl
      obtain rfl : s = t := by simpa using hst
      exact hc
    · rw [List.concat_eq_append, ← List.cons_append, ← List.append_assoc] at heq
      obtain ⟨hmarked, -⟩ := List.append_inj' heq rfl
      exact h.allowed before t after hmarked

theorem Marks.scan (h : Marks sites live marked) :
    Marks sites live (markScan sites live marked) := by
  refine List.foldlRecOn (motive := Marks sites live) sites _ h fun marked h s hs => ?_
  split
  · next hc => exact h.concat hs hc
  · exact h

theorem Marks.loop (h : Marks sites live marked) (fuel : Nat) :
    Marks sites live (markLoop sites live fuel marked) := by
  induction fuel generalizing marked with
  | zero => exact h
  | succ fuel ih =>
    unfold markLoop
    simp only
    split
    · exact h.scan
    · exact ih h.scan

theorem Marks.nil (sites : List Site) (live : FactMap) : Marks sites live [] :=
  ⟨by simp, fun before s after h => by simp at h⟩

theorem marks_invariants (g : FlowGraph) (l : NaturalLoop) (live : FactMap) :
    Marks (l.sites g) live (l.invariants g live) :=
  (Marks.nil (l.sites g) live).loop _

section Marks

variable (h : Marks sites live marked)
include h

theorem Marks.canMark (hs : s ∈ marked) : ∃ before after, marked = before ++ s :: after ∧
    NaturalLoop.canMark sites live before s = true := by
  obtain ⟨before, after, heq⟩ := List.append_of_mem hs
  exact ⟨before, after, heq, h.allowed before s after heq⟩

theorem Marks.isMovable (hs : s ∈ marked) : s.instr.isMovable = true := by
  obtain ⟨before, after, -, hc⟩ := h.canMark hs
  simp only [NaturalLoop.canMark, Bool.and_eq_true] at hc
  exact hc.1.1.2

/-- The destination of a marked instruction is not live at the header, and nothing else in the loop
assigns it. -/
theorem Marks.ownsDest (hs : s ∈ marked) : ∃ x, s.instr.dest = some x ∧
    NameMap.contains live x = false ∧ ∀ t ∈ sites, t.instr.dest = some x → t = s := by
  obtain ⟨before, after, -, hc⟩ := h.canMark hs
  simp only [NaturalLoop.canMark, Bool.and_eq_true] at hc
  have howns := hc.1.2
  unfold NaturalLoop.ownsDest at howns
  cases hx : s.instr.dest with
  | none => simp [hx] at howns
  | some x =>
    simp only [hx, Bool.and_eq_true, Bool.not_eq_true', beq_iff_eq, List.length_eq_one_iff] at howns
    obtain ⟨hlive, u, hu⟩ := howns
    have hone : ∀ t ∈ sites, t.instr.dest = some x → t = u := by
      intro t ht hd
      have hmem : t ∈ assignments sites x := List.mem_filter.2 ⟨ht, by simp [hd]⟩
      rw [hu] at hmem
      exact List.mem_singleton.1 hmem
    refine ⟨x, rfl, hlive, fun t ht hd => ?_⟩
    rw [hone t ht hd, hone s (h.mem s hs) hx]

theorem Marks.arg (hs : marked = before ++ s :: after) (hx : x ∈ s.instr.args) (ht : t ∈ sites)
    (hd : t.instr.dest = some x) : ∃ u ∈ before, u.isAt t = true := by
  have hc := h.allowed before s after hs
  simp only [NaturalLoop.canMark, Bool.and_eq_true, List.all_eq_true] at hc
  have harg := hc.2 x hx
  have hmem : t ∈ assignments sites x := List.mem_filter.2 ⟨ht, by simp [hd]⟩
  unfold isInvariantArg at harg
  split at harg
  · next hnil => simp [hnil] at hmem
  · next u hu =>
    rw [hu, List.mem_singleton] at hmem
    rw [List.any_eq_true] at harg
    rwa [hmem]
  · cases harg

/-- Nothing that is marked from an instruction on assigns what it reads. -/
theorem Marks.not_arg (hs : marked = before ++ s :: after) (ht : t ∈ before ++ [s])
    (hx : x ∈ t.instr.args) : s.instr.dest ≠ some x := by
  intro hd
  have hsm : s ∈ sites := h.mem s (by simp [hs])
  have hc := h.allowed before s after hs
  simp only [NaturalLoop.canMark, Bool.and_eq_true, Bool.not_eq_true', List.any_eq_false] at hc
  obtain ⟨first, last, hsplit⟩ := List.append_of_mem ht
  have heq : marked = first ++ t :: (last ++ after) := by
    rw [hs, ← List.singleton_append, ← List.append_assoc, hsplit]
    simp
  obtain ⟨u, hu, hat⟩ := h.arg heq hx hsm hd
  -- What was marked before `t` stands before `s`.
  have hub : u ∈ before := by
    rcases List.eq_nil_or_concat last with rfl | ⟨last, r, rfl⟩
    · obtain ⟨rfl, -⟩ := List.append_inj' hsplit rfl
      exact hu
    · rw [List.concat_eq_append, ← List.cons_append, ← List.append_assoc] at hsplit
      obtain ⟨rfl, -⟩ := List.append_inj' hsplit rfl
      exact List.mem_append_left _ hu
  exact hc.1.1.1 u hub hat

theorem Marks.not_isAt (hs : marked = before ++ s :: after) (ht : t ∈ before) :
    t.isAt s = false := by
  have hc := h.allowed before s after hs
  simp only [NaturalLoop.canMark, Bool.and_eq_true, Bool.not_eq_true', List.any_eq_false] at hc
  simpa using hc.1.1.1 t ht

theorem Marks.not_own_arg (hs : s ∈ marked) (hx : x ∈ s.instr.args) : s.instr.dest ≠ some x := by
  obtain ⟨before, after, heq⟩ := List.append_of_mem hs
  exact h.not_arg heq (by simp) hx

/-- What is marked later assigns neither what is read nor what is assigned before. -/
theorem Marks.pairwise : marked.Pairwise fun s t =>
    (∀ x ∈ s.instr.args, t.instr.dest ≠ some x) ∧ s.instr.dest ≠ t.instr.dest := by
  apply pairwise_of_split
  intro before t after heq s hs
  have hsm : s ∈ marked := by
    rw [heq]
    exact List.mem_append_left _ hs
  constructor
  · intro x hx
    exact h.not_arg heq (List.mem_append_left _ hs) hx
  · intro hd
    obtain ⟨x, hx, -, honce⟩ := h.ownsDest (s := t) (by simp [heq])
    obtain rfl := honce s (h.mem s hsm) (hd.trans hx)
    simpa [Site.isAt] using h.not_isAt heq hs

end Marks

theorem arg_mem_before (hs : l.invariants g live = before ++ s :: after)
    (hx : x ∈ s.instr.args) (ht : t ∈ l.sites g) (hd : t.instr.dest = some x) : t ∈ before := by
  have hm := marks_invariants g l live
  obtain ⟨u, hu, hat⟩ := hm.arg hs hx ht hd
  have hmem : u ∈ l.invariants g live := hs ▸ List.mem_append_left _ hu
  rwa [← eq_of_isAt (hm.mem u hmem) ht hat]

theorem arg_mem_invariants (hs : s ∈ l.invariants g live) (hx : x ∈ s.instr.args)
    (ht : t ∈ l.sites g) (hd : t.instr.dest = some x) : t ∈ l.invariants g live := by
  obtain ⟨before, after, heq⟩ := List.append_of_mem hs
  rw [heq]
  exact List.mem_append_left _ (arg_mem_before heq hx ht hd)

end NaturalLoop

end FlowOpt
