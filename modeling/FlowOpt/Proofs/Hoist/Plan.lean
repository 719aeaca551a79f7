import FlowOpt.Hoist.Plan
import FlowOpt.Proofs.Hoist.Invariant
import FlowOpt.Proofs.Hoist.Liveness

/-!
# What is planned

Each plan is of a loop of its own, and what it takes was not taken by the plans before it. A loop is
planned before the loops inside it, so what is hoisted out of an inner loop never assigns what is
read or assigned by what was hoisted out of a loop around it.
-/

namespace FlowOpt

open FlowOpt.Digraph

abbrev PlannedLoop := NaturalLoop × HoistPlan

def takenBy (planned : List PlannedLoop) : List Site := planned.flatMap (·.2.sites)

def FlowGraph.liveAtHeader (g : FlowGraph) (live : Results) (l : NaturalLoop) : FactMap :=
  (live.inputs.get? (g.nameOf l.header)).getD {}

structure IsPlan (g : FlowGraph) (live : Results) (taken : List Site) (e : PlannedLoop) : Prop where
  header : e.2.header = g.nameOf e.1.header
  sites : e.2.sites =
    (e.1.invariants g (g.liveAtHeader live e.1)).filter fun s => !taken.any (·.isAt s)
  entering : e.2.entering =
    ((e.1.entering g.graph).filter fun v => !(g.node? v).any (·.synthetic)).map g.nameOf
  phi : g.hasPhi e.1.header = true → (e.1.entering g.graph).length ≤ 1

/-- What the plans have taken after some loops. -/
structure Planned (g : FlowGraph) (live : Results) (visited : List NaturalLoop)
    (planned : List PlannedLoop) (acc : HoistPlans) : Prop where
  plans : acc.plans = planned.map (·.2)
  taken : acc.taken = takenBy planned
  loops : (planned.map (·.1)).Sublist visited
  isPlan : ∀ before e after, planned = before ++ e :: after →
    IsPlan g live (takenBy before) e

variable {g : FlowGraph} {live : Results} {visited : List NaturalLoop}
  {planned before after : List PlannedLoop} {acc : HoistPlans} {l : NaturalLoop}
  {e e' : PlannedLoop} {s t : Site} {x : String} {v : Nat} {b : Block}

/-- A header with a phi is entered from one block at most. -/
theorem IsPlan.entering_unique {taken : List Site} {u : Nat} (h : IsPlan g live taken e)
    (hphi : g.hasPhi e.1.header = true) (hu : u ∈ e.1.entering g.graph)
    (hv : v ∈ e.1.entering g.graph) : u = v := by
  obtain ⟨a, ha⟩ := List.length_eq_one_iff.1
    (Nat.le_antisymm (h.phi hphi) (List.length_pos_of_mem hu))
  rw [ha, List.mem_singleton] at hu hv
  exact hu.trans hv.symm

theorem FlowGraph.hasPhi_of_mem {i : Instruction} (hb : g.blocks[v]? = some b)
    (hi : i ∈ b.operations) (hphi : i.isPhi = true) : g.hasPhi v = true := by
  obtain ⟨n, hn, rfl⟩ := Option.map_eq_some_iff.1 ((FlowGraph.map_block_node? g v).trans hb)
  rw [FlowGraph.hasPhi, hn, Option.any_some, List.any_eq_true]
  exact ⟨i, hi, hphi⟩

theorem Planned.skip (h : Planned g live visited planned acc) (l : NaturalLoop)
    (skipped : List String) :
    Planned g live (visited ++ [l]) planned { acc with skipped := skipped } where
  plans := h.plans
  taken := h.taken
  loops := h.loops.trans (List.sublist_append_left _ _)
  isPlan := h.isPlan

theorem Planned.step (h : Planned g live visited planned acc) (l : NaturalLoop) :
    ∃ planned', Planned g live (visited ++ [l]) planned' (g.planLoop live acc l) := by
  unfold FlowGraph.planLoop
  simp only
  split
  · exact ⟨planned, h.skip l acc.skipped⟩
  · split
    · exact ⟨planned, h.skip l _⟩
    · next hphi =>
      refine ⟨planned ++ [(l, ⟨g.nameOf l.header,
        ((l.entering g.graph).filter fun v => !(g.node? v).any (·.synthetic)).map g.nameOf,
        (l.invariants g (g.liveAtHeader live l)).filter fun s => !acc.taken.any (·.isAt s)⟩)], ?_⟩
      constructor
      · rw [List.map_append, ← h.plans]
        rfl
      · rw [takenBy, List.flatMap_append, ← takenBy, ← h.taken]
        simp [FlowGraph.liveAtHeader]
      · rw [List.map_append]
        exact h.loops.append (.refl _)
      · intro before e after heq
        rcases List.eq_nil_or_concat after with rfl | ⟨after, e', rfl⟩
        · obtain ⟨rfl, he⟩ := List.append_inj' heq rfl
          obtain rfl := (List.cons.inj he).1
          refine ⟨rfl, ?_, rfl, fun hp => ?_⟩
          · rw [h.taken]
          · simp only [hp, Bool.true_and, decide_eq_true_eq, not_lt] at hphi
            exact hphi
        · rw [List.concat_eq_append, ← List.cons_append, ← List.append_assoc] at heq
          obtain ⟨hplanned, -⟩ := List.append_inj' heq rfl
          exact h.isPlan before e after hplanned

theorem exists_planned (g : FlowGraph) (live : Results) :
    ∃ planned, Planned g live g.loops.outermostFirst planned (g.planLoops live) := by
  have hfold : ∀ (ls visited : List NaturalLoop) (planned : List PlannedLoop) (acc : HoistPlans),
      Planned g live visited planned acc →
      ∃ planned', Planned g live (visited ++ ls) planned' (ls.foldl (g.planLoop live) acc) := by
    intro ls
    induction ls with
    | nil =>
      intro visited planned acc h
      rw [List.append_nil]
      exact ⟨planned, h⟩
    | cons l ls ih =>
      intro visited planned acc h
      obtain ⟨planned', h'⟩ := h.step l
      obtain ⟨planned'', h''⟩ := ih _ _ _ h'
      rw [List.append_assoc] at h''
      exact ⟨planned'', h''⟩
  have hnil : Planned g live [] [] {} := by
    refine ⟨rfl, rfl, .slnil, fun before e after heq => ?_⟩
    simp at heq
  exact hfold _ _ _ _ hnil

theorem sites_ne_nil_of_mem_plans (g : FlowGraph) (live : Results) :
    ∀ p ∈ (g.planLoops live).plans, p.sites ≠ [] := by
  refine List.foldlRecOn (motive := fun acc : HoistPlans => ∀ p ∈ acc.plans, p.sites ≠ []) _
    (g.planLoop live) (by simp) fun acc h l _ => ?_
  unfold FlowGraph.planLoop
  simp only
  split
  · exact h
  · next hne =>
    split
    · exact h
    · exact List.forall_mem_append.2 ⟨h, List.forall_mem_singleton.2 (by simpa using hne)⟩

theorem takenBy_mono {planned' : List PlannedLoop} (hle : ∀ e ∈ planned, e ∈ planned')
    (hs : s ∈ takenBy planned) : s ∈ takenBy planned' := by
  obtain ⟨e, he, hse⟩ := List.mem_flatMap.1 hs
  exact List.mem_flatMap.2 ⟨e, hle e he, hse⟩

theorem mem_takenBy : s ∈ takenBy planned ↔ ∃ e ∈ planned, s ∈ e.2.sites := List.mem_flatMap

section Planned

variable (hg : g.WellFormed) (h : Planned g live g.loops.outermostFirst planned acc)
include h

theorem Planned.isPlan_of_mem (he : e ∈ planned) :
    ∃ before after, planned = before ++ e :: after ∧ IsPlan g live (takenBy before) e := by
  obtain ⟨before, after, heq⟩ := List.append_of_mem he
  exact ⟨before, after, heq, h.isPlan before e after heq⟩

theorem Planned.mem_loops (he : e ∈ planned) : e.1 ∈ g.loops.loops :=
  LoopForest.mem_outermostFirst.1 (h.loops.subset (List.mem_map_of_mem he))

theorem Planned.sublist_invariants (he : e ∈ planned) :
    e.2.sites.Sublist (e.1.invariants g (g.liveAtHeader live e.1)) := by
  obtain ⟨before, after, -, hplan⟩ := h.isPlan_of_mem he
  rw [hplan.sites]
  exact List.filter_sublist

theorem Planned.mem_invariants (he : e ∈ planned) (hs : s ∈ e.2.sites) :
    s ∈ e.1.invariants g (g.liveAtHeader live e.1) :=
  (h.sublist_invariants he).subset hs

theorem Planned.mem_sites (he : e ∈ planned) (hs : s ∈ e.2.sites) : s ∈ e.1.sites g :=
  (NaturalLoop.marks_invariants g e.1 _).mem s (h.mem_invariants he hs)

/-- What is marked in a loop is taken by its plan or by one before it. -/
theorem Planned.taken_of_mem_invariants (heq : planned = before ++ e :: after)
    (hs : s ∈ e.1.invariants g (g.liveAtHeader live e.1)) :
    ∃ t ∈ takenBy (before ++ [e]), t.isAt s = true := by
  have hplan := h.isPlan before e after heq
  by_cases htaken : (takenBy before).any (·.isAt s) = true
  · obtain ⟨t, ht, hat⟩ := List.any_eq_true.1 htaken
    refine ⟨t, ?_, hat⟩
    rw [takenBy, List.flatMap_append]
    exact List.mem_append_left _ ht
  · refine ⟨s, ?_, by simp [Site.isAt]⟩
    rw [takenBy, List.flatMap_append, List.mem_append]
    right
    have hsite : s ∈ e.2.sites := by
      rw [hplan.sites]
      exact List.mem_filter.2 ⟨hs, by simpa using htaken⟩
    simpa using hsite

theorem Planned.not_taken (heq : planned = before ++ e :: after) (hs : s ∈ e.2.sites)
    (ht : t ∈ takenBy before) : t.isAt s = false := by
  rw [(h.isPlan before e after heq).sites] at hs
  have hnot := (List.mem_filter.1 hs).2
  rw [Bool.not_eq_true', List.any_eq_false] at hnot
  simpa using hnot t ht

theorem Planned.eq_of_mem_sites (he : e ∈ planned) (he' : e' ∈ planned)
    (hs : s ∈ e.2.sites) (hs' : s ∈ e'.2.sites) : e = e' := by
  have hself : s.isAt s = true := by simp [Site.isAt]
  have hbefore : ∀ {e e' : PlannedLoop} {before after}, planned = before ++ e :: after →
      e' ∈ before → s ∈ e.2.sites → s ∉ e'.2.sites := by
    intro e e' before after heq hmem hs hs'
    rw [h.not_taken heq hs (mem_takenBy.2 ⟨e', hmem, hs'⟩)] at hself
    cases hself
  obtain ⟨before, after, heq⟩ := List.append_of_mem he
  rw [heq, List.mem_append, List.mem_cons] at he'
  rcases he' with hmem | rfl | hmem
  · exact absurd hs' (hbefore heq hmem hs)
  · rfl
  · obtain ⟨first, last, rfl⟩ := List.append_of_mem hmem
    have hcut : planned = (before ++ e :: first) ++ e' :: last := by
      rw [heq, List.append_assoc, List.cons_append]
    exact absurd hs (hbefore hcut (by simp) hs')

/-- What assigns an argument of a planned instruction in its loop is hoisted too. -/
theorem Planned.arg_taken (he : e ∈ planned) (hs : s ∈ e.2.sites) (hx : x ∈ s.instr.args)
    (ht : t ∈ e.1.sites g) (hd : t.instr.dest = some x) :
    ∃ u ∈ takenBy planned, u.isAt t = true := by
  have hmark := NaturalLoop.arg_mem_invariants (h.mem_invariants he hs) hx ht hd
  obtain ⟨before, after, heq⟩ := List.append_of_mem he
  obtain ⟨u, hu, hat⟩ := h.taken_of_mem_invariants heq hmark
  refine ⟨u, takenBy_mono (fun e₁ he₁ => ?_) hu, hat⟩
  rw [heq, ← List.singleton_append, ← List.append_assoc]
  exact List.mem_append_left _ he₁

include hg

theorem Planned.pairwise_header : planned.Pairwise fun e e' => e.1.header ≠ e'.1.header := by
  have hloops : g.loops = .ofGraph g.graph (.ofGraph g.graph 0) := by
    simp [FlowGraph.loops, FlowGraph.dominance, FlowGraph.forward, FlowGraph.entry, hg.forward]
  have hall : (LoopForest.ofGraph g.graph (.ofGraph g.graph 0)).outermostFirst.Pairwise
      (·.header ≠ ·.header) := LoopForest.pairwise_header_outermostFirst
  rw [← hloops] at hall
  have hplanned := hall.sublist h.loops
  rwa [List.pairwise_map] at hplanned

/-- The plan of a loop comes before those of the loops inside it. -/
theorem Planned.split_of_contains (he : e ∈ planned) (he' : e' ∈ planned)
    (hne : e.1.header ≠ e'.1.header) (hc : e.1.contains e'.1.header = true) :
    ∃ before after, planned = before ++ e' :: after ∧ e ∈ before := by
  have hloops := (FlowGraph.mem_loops hg).1 (h.mem_loops he)
  have hloops' := (FlowGraph.mem_loops hg).1 (h.mem_loops he')
  have hdepth := LoopForest.depth_lt hg.graph hloops hloops' hne hc
  obtain ⟨before, after, heq⟩ := List.append_of_mem he'
  refine ⟨before, after, heq, ?_⟩
  have hsorted := (LoopForest.pairwise_outermostFirst g.loops).sublist h.loops
  rw [List.pairwise_map] at hsorted
  rw [heq, List.mem_append, List.mem_cons] at he
  rcases he with he | rfl | he
  · exact he
  · exact absurd rfl hne
  · rw [heq, List.pairwise_append, List.pairwise_cons] at hsorted
    have hle := hsorted.2.1.1 e he
    omega

/-- What is hoisted out of an inner loop assigns nothing that is read or assigned by what is hoisted
out of a loop around it. -/
theorem Planned.apart (he : e ∈ planned) (he' : e' ∈ planned)
    (hne : e.1.header ≠ e'.1.header) (hc : e.1.contains e'.1.header = true)
    (hs : s ∈ e.2.sites) (ht : t ∈ e'.2.sites) :
    (∀ x ∈ s.instr.args, t.instr.dest ≠ some x) ∧ s.instr.dest ≠ t.instr.dest := by
  have hl := h.mem_loops he
  have hl' := h.mem_loops he'
  have hloops := (FlowGraph.mem_loops hg).1 hl
  have hloops' := (FlowGraph.mem_loops hg).1 hl'
  obtain ⟨before, after, heq, hbefore⟩ := h.split_of_contains hg he he' hne hc
  have hm := NaturalLoop.marks_invariants g e.1 (g.liveAtHeader live e.1)
  have hm' := NaturalLoop.marks_invariants g e'.1 (g.liveAtHeader live e'.1)
  have hsm := h.mem_invariants he hs
  have htm := h.mem_invariants he' ht
  have htsite : t ∈ e.1.sites g := by
    have htin := (NaturalLoop.mem_sites hg hl').1 (hm'.mem t htm)
    rw [NaturalLoop.mem_sites hg hl]
    exact ⟨LoopForest.contains_of_contains_header hg.graph hloops hloops' hne hc htin.1, htin.2⟩
  constructor
  · intro x hx hd
    have hmark := NaturalLoop.arg_mem_invariants hsm hx htsite hd
    obtain ⟨first, last, hsplit⟩ := List.append_of_mem hbefore
    have heq' : planned = first ++ e :: (last ++ e' :: after) := by simp [heq, hsplit]
    obtain ⟨u, hu, hat⟩ := h.taken_of_mem_invariants heq' hmark
    have hub : ∀ e₁ ∈ first ++ [e], e₁ ∈ before := by
      intro e₁ he₁
      rw [hsplit]
      rw [← List.singleton_append, ← List.append_assoc]
      exact List.mem_append_left _ he₁
    have hnot := h.not_taken heq ht (takenBy_mono hub hu)
    rw [hat] at hnot
    cases hnot
  · intro hd
    obtain ⟨x, hx, -, honce⟩ := hm.ownsDest hsm
    obtain rfl := honce t htsite (hd ▸ hx)
    have hnot := h.not_taken heq ht (mem_takenBy.2 ⟨e, hbefore, hs⟩)
    simp [Site.isAt] at hnot

theorem Planned.mem_entering (he : e ∈ planned) (hb : g.blocks[v]? = some b)
    (hv : (g.node? v).any (·.synthetic) = false) :
    b.name ∈ e.2.entering ↔ e.1.header ∈ g.graph.succs v ∧ e.1.contains v = false := by
  obtain ⟨before, after, -, hplan⟩ := h.isPlan_of_mem he
  rw [hplan.entering, List.mem_map]
  simp only [List.mem_filter, NaturalLoop.entering]
  constructor
  · rintro ⟨u, ⟨⟨hu, hc⟩, -⟩, hname⟩
    have hsucc := (hg.graph.symmetric u e.1.header).2 hu
    obtain ⟨c, d, hcb, -⟩ := (hg.mem_succs u e.1.header).1 hsucc
    rw [FlowGraph.nameOf_eq hcb] at hname
    obtain rfl := hg.eq_of_name_eq hcb hb hname
    exact ⟨hsucc, by simpa using hc⟩
  · rintro ⟨hs, hc⟩
    have hpred := (hg.graph.symmetric v e.1.header).1 hs
    exact ⟨v, ⟨⟨hpred, by simp [hc]⟩, by simp [hv]⟩, FlowGraph.nameOf_eq hb⟩

end Planned

end FlowOpt
