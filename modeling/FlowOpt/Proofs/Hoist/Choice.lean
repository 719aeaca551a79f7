import FlowOpt.Proofs.Hoist.Plan

/-!
# Which loop takes what is marked

A loop is skipped only if its header has a phi and it is entered from several blocks. What is
marked in any other loop is taken when that loop is visited, unless it was taken before. So an
instruction goes to the first loop that marks it and is not skipped.
-/

namespace FlowOpt

open FlowOpt.Digraph

variable {g : FlowGraph} {live : Results} {visited before after loops loops' : List NaturalLoop}
  {planned : List PlannedLoop} {acc acc' : HoistPlans} {plans plans' : List HoistPlan}
  {k l : NaturalLoop} {e : PlannedLoop} {s : Site}

def TakenFor (g : FlowGraph) (loops : List NaturalLoop) (plans : List HoistPlan) (s : Site) :
    Prop :=
  ∃ k ∈ loops, ∃ p ∈ plans, p.header = g.nameOf k.header ∧ ∃ t ∈ p.sites, t.isAt s = true

/-- A visited loop is skipped, for a reason that no loop with a plan has, or all that is marked in
it is taken by plans of loops up to it. -/
structure Settled (g : FlowGraph) (live : Results) (visited : List NaturalLoop)
    (acc : HoistPlans) : Prop where
  taken : acc.taken = acc.plans.flatMap (·.sites)
  plan : ∀ p ∈ acc.plans, ∃ k ∈ visited, p.header = g.nameOf k.header
  skipped : ∀ x ∈ acc.skipped, ∃ k ∈ visited, x = g.nameOf k.header ∧
    g.hasPhi k.header = true ∧ 1 < (k.entering g.graph).length
  all : ∀ before k after, visited = before ++ k :: after → g.nameOf k.header ∈ acc.skipped ∨
    ∀ s ∈ k.invariants g (g.liveAtHeader live k), TakenFor g (before ++ [k]) acc.plans s

theorem TakenFor.mono (h : TakenFor g loops plans s) (hl : loops ⊆ loops') (hp : plans ⊆ plans') :
    TakenFor g loops' plans' s :=
  have ⟨k, hk, p, hmem, hrest⟩ := h
  ⟨k, hl hk, p, hp hmem, hrest⟩

theorem Settled.takenFor (h : Settled g live visited acc) (hs : acc.taken.any (·.isAt s) = true) :
    TakenFor g visited acc.plans s := by
  obtain ⟨t, ht, hat⟩ := List.any_eq_true.1 hs
  rw [h.taken] at ht
  obtain ⟨p, hp, htp⟩ := List.mem_flatMap.1 ht
  obtain ⟨k, hk, hheader⟩ := h.plan p hp
  exact ⟨k, hk, p, hp, hheader, t, htp, hat⟩

theorem Settled.all_append (h : Settled g live visited acc) (hplans : acc.plans ⊆ acc'.plans)
    (hskipped : acc.skipped ⊆ acc'.skipped) (hl : g.nameOf l.header ∈ acc'.skipped ∨
      ∀ s ∈ l.invariants g (g.liveAtHeader live l), TakenFor g (visited ++ [l]) acc'.plans s) :
    ∀ before k after, visited ++ [l] = before ++ k :: after → g.nameOf k.header ∈ acc'.skipped ∨
      ∀ s ∈ k.invariants g (g.liveAtHeader live k), TakenFor g (before ++ [k]) acc'.plans s := by
  intro before k after heq
  rcases List.eq_nil_or_concat after with rfl | ⟨after, last, rfl⟩
  · obtain ⟨rfl, hk⟩ := List.append_inj' heq rfl
    obtain rfl := (List.cons.inj hk).1
    exact hl
  · rw [List.concat_eq_append, ← List.cons_append, ← List.append_assoc] at heq
    obtain ⟨hvisited, -⟩ := List.append_inj' heq rfl
    refine (h.all before k after hvisited).imp (fun hk => hskipped hk) fun hk s hs => ?_
    exact (hk s hs).mono (fun _ hm => hm) hplans

theorem Settled.step (h : Settled g live visited acc) (l : NaturalLoop) :
    Settled g live (visited ++ [l]) (g.planLoop live acc l) := by
  have hplan : ∀ p ∈ acc.plans, ∃ k ∈ visited ++ [l], p.header = g.nameOf k.header := fun p hp =>
    have ⟨k, hk, hheader⟩ := h.plan p hp
    ⟨k, List.mem_append_left _ hk, hheader⟩
  have hskip : ∀ x ∈ acc.skipped, ∃ k ∈ visited ++ [l], x = g.nameOf k.header ∧
      g.hasPhi k.header = true ∧ 1 < (k.entering g.graph).length := fun x hx =>
    have ⟨k, hk, hreason⟩ := h.skipped x hx
    ⟨k, List.mem_append_left _ hk, hreason⟩
  have hbefore : visited ⊆ visited ++ [l] := List.subset_append_left _ _
  unfold FlowGraph.planLoop
  simp only
  split
  · next hempty =>
    refine ⟨h.taken, hplan, hskip, h.all_append (fun _ hp => hp) (fun _ hx => hx) (.inr ?_)⟩
    intro s hs
    refine (h.takenFor ?_).mono hbefore fun _ hp => hp
    simpa using List.filter_eq_nil_iff.1 (List.isEmpty_iff.1 hempty) s hs
  · split
    · next hphi =>
      rw [Bool.and_eq_true, decide_eq_true_eq] at hphi
      refine ⟨h.taken, hplan, fun x hx => ?_, h.all_append (fun _ hp => hp)
        (List.subset_append_left _ _) (.inl (List.mem_append_right _ (List.mem_singleton_self _)))⟩
      rcases List.mem_append.1 hx with hx | hx
      · exact hskip x hx
      · exact ⟨l, by simp, List.mem_singleton.1 hx, hphi⟩
    · refine ⟨?_, fun p hp => ?_, hskip, h.all_append (List.subset_append_left _ _)
        (fun _ hx => hx) (.inr fun s hs => ?_)⟩
      · rw [h.taken, List.flatMap_append]
        simp
      · rcases List.mem_append.1 hp with hp | hp
        · exact hplan p hp
        · exact ⟨l, by simp, by rw [List.mem_singleton.1 hp]⟩
      · by_cases htaken : acc.taken.any (·.isAt s) = true
        · exact (h.takenFor htaken).mono hbefore (List.subset_append_left _ _)
        · refine ⟨l, by simp, _, List.mem_append_right _ List.mem_cons_self, rfl, s, ?_,
            by simp [Site.isAt]⟩
          exact List.mem_filter.2 ⟨hs, by simpa using htaken⟩

theorem settled_planLoops (g : FlowGraph) (live : Results) :
    Settled g live g.loops.outermostFirst (g.planLoops live) := by
  have hfold : ∀ (ls visited : List NaturalLoop) (acc : HoistPlans),
      Settled g live visited acc →
      Settled g live (visited ++ ls) (ls.foldl (g.planLoop live) acc) := by
    intro ls
    induction ls with
    | nil => exact fun _ _ h => (List.append_nil _).symm ▸ h
    | cons l ls ih =>
      intro visited acc h
      rw [← List.singleton_append, ← List.append_assoc]
      exact ih _ _ (h.step l)
  exact hfold _ [] {} ⟨rfl, by simp, by simp, by simp⟩

def FlowGraph.firstToMark? (g : FlowGraph) (live : Results) (skipped : List String) (s : Site) :
    Option NaturalLoop :=
  g.loops.outermostFirst.find? fun l =>
    g.nameOf l.header ∉ skipped ∧ s ∈ l.invariants g (g.liveAtHeader live l)

theorem firstToMark?_eq_some {skipped : List String} : g.firstToMark? live skipped s = some k ↔
    (g.nameOf k.header ∉ skipped ∧ s ∈ k.invariants g (g.liveAtHeader live k)) ∧
      ∃ before after, g.loops.outermostFirst = before ++ k :: after ∧ ∀ l ∈ before,
        g.nameOf l.header ∉ skipped → s ∉ l.invariants g (g.liveAtHeader live l) := by
  rw [FlowGraph.firstToMark?, List.find?_eq_some_iff_append]
  simp [← or_iff_not_imp_left]

theorem exists_firstToMark {skipped : List String} (hl : l ∈ g.loops.loops)
    (hskip : g.nameOf l.header ∉ skipped) (hs : s ∈ l.invariants g (g.liveAtHeader live l)) :
    ∃ k, g.firstToMark? live skipped s = some k := by
  rw [← Option.isSome_iff_exists, FlowGraph.firstToMark?, List.find?_isSome]
  exact ⟨l, LoopForest.mem_outermostFirst.2 hl, by simp [hskip, hs]⟩

section Planned

variable (hg : g.WellFormed)
  (h : Planned g live g.loops.outermostFirst planned (g.planLoops live))
include hg h

theorem Planned.eq_of_nameOf_eq (he : e ∈ planned) (hk : k ∈ g.loops.loops)
    (hheader : g.nameOf e.1.header = g.nameOf k.header) : e.1 = k := by
  have hloop := (FlowGraph.mem_loops hg).1 (h.mem_loops he)
  have hloop' := (FlowGraph.mem_loops hg).1 hk
  exact LoopForest.eq_of_header_eq hloop hloop' (hg.nameOf_inj (LoopForest.eq_loopAt hloop).2.1
    (LoopForest.eq_loopAt hloop').2.1 hheader)

/-- A loop with a plan is not skipped: it would be entered from one block and from several. -/
theorem Planned.not_skipped (he : e ∈ planned) :
    g.nameOf e.1.header ∉ (g.planLoops live).skipped := by
  intro hmem
  obtain ⟨k, hk, hname, hphi, hlt⟩ := (settled_planLoops g live).skipped _ hmem
  obtain rfl := h.eq_of_nameOf_eq hg he (LoopForest.mem_outermostFirst.1 hk) hname
  obtain ⟨before, after, -, hplan⟩ := h.isPlan_of_mem he
  have hle := hplan.phi hphi
  omega

/-- What is marked in a loop that is not skipped is taken by its plan or by one before it. -/
theorem Planned.exists_taken_upTo (heq : g.loops.outermostFirst = before ++ l :: after)
    (hskip : g.nameOf l.header ∉ (g.planLoops live).skipped)
    (hs : s ∈ l.invariants g (g.liveAtHeader live l)) :
    ∃ e ∈ planned, e.1 ∈ before ++ [l] ∧ s ∈ e.2.sites := by
  have hmem : ∀ k ∈ before ++ [l], k ∈ g.loops.loops := by
    intro k hk
    rw [← LoopForest.mem_outermostFirst, heq, ← List.singleton_append, ← List.append_assoc]
    exact List.mem_append_left _ hk
  obtain ⟨k, hk, p, hp, hheader, t, ht, hat⟩ :=
    ((settled_planLoops g live).all before l after heq).resolve_left hskip s hs
  rw [h.plans] at hp
  obtain ⟨e, he, rfl⟩ := List.mem_map.1 hp
  obtain ⟨_, _, -, hplan⟩ := h.isPlan_of_mem he
  obtain rfl := h.eq_of_nameOf_eq hg he (hmem k hk) (hplan.header.symm.trans hheader)
  refine ⟨e, he, hk, ?_⟩
  have hsite := ((NaturalLoop.mem_sites hg (hmem l (by simp))).1
    ((NaturalLoop.marks_invariants g l _).mem s hs)).2
  have htsite := ((NaturalLoop.mem_sites hg (h.mem_loops he)).1 (h.mem_sites he ht)).2
  rwa [← Site.eq_of_instrAt htsite hsite hat]

/-- The first loop that marks it takes it. -/
theorem Planned.exists_taken_first
    (hk : g.firstToMark? live (g.planLoops live).skipped s = some k) :
    ∃ e ∈ planned, e.1 = k ∧ s ∈ e.2.sites := by
  obtain ⟨⟨hskip, hs⟩, before, after, heq, hfirst⟩ := firstToMark?_eq_some.1 hk
  obtain ⟨e, he, hmem, hse⟩ := h.exists_taken_upTo hg heq hskip hs
  refine ⟨e, he, ?_, hse⟩
  rcases List.mem_append.1 hmem with hmem | hmem
  · exact absurd (h.mem_invariants he hse) (hfirst e.1 hmem (h.not_skipped hg he))
  · exact List.mem_singleton.1 hmem

end Planned

end FlowOpt
