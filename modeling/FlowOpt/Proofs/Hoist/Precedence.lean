import FlowOpt.Proofs.Hoist.Origin

/-!
# What precedes what in hoisted code

An assignment that comes before a use on every path still does when either of them is hoisted. All
of a loop stands behind its preheader. What dominates a node of the loop from outside dominates its
header, and with it the preheader; and nothing hoisted out of a loop reads what only comes to be
assigned further inside.
-/

namespace FlowOpt

open FlowOpt.Digraph

def FlowGraph.Precedes (g : FlowGraph) (s t : Site) : Prop :=
  (s.node = t.node ∧ s.index < t.index) ∨
    (s.node ≠ t.node ∧ g.graph.Dominates 0 s.node t.node)

variable {stem stem' : String} {blocks blocks' : List Block} {g g' : FlowGraph} {live : Results}
  {planned : List PlannedLoop} {moves : List Move} {b c : Block} {e f : PlannedLoop}
  {s s' t t' : Site} {x : String} {d j k p u v : Nat}

theorem FlowGraph.Precedes.dominates (h : g.Precedes s t) :
    g.graph.Dominates 0 s.node t.node := by
  rcases h with ⟨heq, -⟩ | ⟨-, hdom⟩
  · exact heq ▸ .refl _
  · exact hdom

namespace Rearranged

variable (h : Rearranged stem blocks g live planned moves blocks')
include h

theorem index_lt_of_mem_args (he : e ∈ planned) (hs : e.2.sites[j]? = some s)
    (ht : e.2.sites[k]? = some t) (hd : s.instr.dest = some x) (hx : x ∈ t.instr.args) : j < k := by
  have hmarks := NaturalLoop.marks_invariants g e.1 (g.liveAtHeader live e.1)
  have hpair := hmarks.pairwise.sublist (h.isPlanned.sublist_invariants he)
  rw [List.pairwise_iff_getElem] at hpair
  rcases lt_trichotomy j k with hlt | rfl | hlt
  · exact hlt
  · obtain rfl := Option.some.inj (hs.symm.trans ht)
    exact absurd hd (hmarks.not_own_arg
      (h.isPlanned.mem_invariants he (List.mem_of_getElem? hs)) hx)
  · obtain ⟨hj, hsj⟩ := List.getElem?_eq_some_iff.1 hs
    obtain ⟨hk, htk⟩ := List.getElem?_eq_some_iff.1 ht
    have hapart := (hpair k j hk hj hlt).1 x (htk.symm ▸ hx)
    rw [hsj] at hapart
    exact absurd hd hapart

variable (hg' : FlowGraph.ofBlocks blocks' stem' = .ok g')
include hg'

/-- The whole of a loop stands behind its preheader. -/
theorem preheaderOf_dominates (he : e ∈ planned) (hd : PreheaderOf moves g' e.2 d)
    (hv : v < g.size) (hin : e.1.contains v = true) :
    g'.graph.Dominates 0 d (g.placeIn g' v) := by
  by_cases hzero : d = 0
  · subst hzero
    exact .of_entry _
  · have hg := h.wellFormed
    have hdoor := (h.preheaderAt_iff he).2 ⟨hzero, hd⟩
    refine (h.rerouted hg').door_dominates hg.graph hg.entry_not_succ hdoor
      (fun d' hd' => h.preheaderAt_unique hg' hd' hdoor) hv ?_
    rwa [← (LoopForest.eq_loopAt (h.mem_loops he)).1]

theorem placeIn_dominates_preheaderOf (he : e ∈ planned) (hd : PreheaderOf moves g' e.2 d)
    (hu : u < g.size) (hne : u ≠ e.1.header) (hdom : g.graph.Dominates 0 u e.1.header) :
    g'.graph.Dominates 0 (g.placeIn g' u) d := by
  have hlt := (LoopForest.eq_loopAt (h.mem_loops he)).2.1
  intro p hp
  have hstep := hp.step ((h.mem_succs_of_preheaderOf hg' hd he).2 rfl) (h.placeIn_lt hg' hlt)
  have hplace := ((h.rerouted hg').dominates_place_iff hu hlt).2 hdom
  rcases List.mem_append.1 (hplace _ hstep) with hmem | hmem
  · exact hmem
  · exact absurd (h.placeIn_inj hg' hu hlt (List.mem_singleton.1 hmem)) hne

variable (hreach : ∀ v, v < g.size → g.graph.Reachable 0 v)
include hreach

/-- An assignment still dominates what it dominated, wherever it has gone. -/
theorem comesFrom_dominates (hs : ComesFrom planned moves g g' s' s) (hp : p < g.size)
    (hdom : g.graph.Dominates 0 s.node p) :
    g'.graph.Dominates 0 s'.node (g.placeIn g' p) := by
  cases hs with
  | kept hb _ hnode _ _ =>
    rw [hnode]
    exact ((h.rerouted hg').dominates_place_iff (FlowGraph.lt_size_iff.2 ⟨_, hb⟩) hp).2 hdom
  | @taken e j he hnode _ hsite _ =>
    have hg := h.wellFormed
    have hloop := h.mem_loops he
    obtain ⟨hin, b, hb, -⟩ := h.contains_site he (List.mem_of_getElem? hsite)
    have hlt := (LoopForest.eq_loopAt hloop).2.1
    have hheader := LoopForest.header_dominates hg.graph hloop hin
      (hreach _ (FlowGraph.lt_size_iff.2 ⟨b, hb⟩))
    exact (h.preheaderOf_dominates hg' he hnode hlt (LoopForest.contains_header hg.graph hloop)).trans
      (((h.rerouted hg').dominates_place_iff hlt hp).2 (hheader.trans hdom))

/-- What stays outside a loop and comes before something in it comes before the preheader. -/
theorem kept_dominates_preheaderOf (he : e ∈ planned) (hd : PreheaderOf moves g' e.2 d)
    (hu : u < g.size) (hout : e.1.contains u = false) (hv : v < g.size)
    (hin : e.1.contains v = true) (hdom : g.graph.Dominates 0 u v) :
    g'.graph.Dominates 0 (g.placeIn g' u) d := by
  have hg := h.wellFormed
  have hloop := h.mem_loops he
  refine h.placeIn_dominates_preheaderOf hg' he hd hu ?_
    (LoopForest.dominates_header hg.graph hloop hout hin (hreach v hv) hdom)
  rintro rfl
  rw [LoopForest.contains_header hg.graph hloop] at hout
  cases hout

theorem precedes_of_kept (hs : ComesFrom planned moves g g' s' s)
    (hc : g.blocks[t.node]? = some c) (hown : (g.node? t.node).any (·.synthetic) = false)
    (htnode : t'.node = g.placeIn g' t.node)
    (htindex : (keptAt (takenBy planned) t.node c.instrs)[t'.index]? = some (t.instr, t.index))
    (hprec : g.Precedes s t) : g'.Precedes s' t' := by
  have htlt := FlowGraph.lt_size_iff.2 ⟨c, hc⟩
  have hdom := h.comesFrom_dominates hg' hreach hs htlt hprec.dominates
  rw [← htnode] at hdom
  cases hs with
  | @kept b hb _ hnode hindex _ =>
    rcases hprec with ⟨heq, hlt⟩ | ⟨hne, -⟩
    · rw [← heq] at hc htindex
      obtain rfl := Option.some.inj (hb.symm.trans hc)
      exact .inl ⟨by rw [hnode, htnode, heq], (keptAt_lt_iff hindex htindex).2 hlt⟩
    · refine .inr ⟨fun heq => hne ?_, hdom⟩
      exact h.placeIn_inj hg' (FlowGraph.lt_size_iff.2 ⟨b, hb⟩) htlt
        (hnode.symm.trans (heq.trans htnode))
  | taken _ hnode => exact .inr ⟨htnode ▸ h.preheaderOf_ne_placeIn hg' hnode hc hown, hdom⟩

/-- What comes before a use that is hoisted is hoisted out of the same loop, or has gone to a place
that dominates the preheader. -/
theorem precedes_of_taken (hs : ComesFrom planned moves g g' s' s) (hsi : g.HasSite s)
    (he : e ∈ planned) (htnode : PreheaderOf moves g' e.2 t'.node) (htindex : t'.index = k + 1)
    (htsite : e.2.sites[k]? = some t) (hd : s.instr.dest = some x) (hx : x ∈ t.instr.args)
    (hdom : g.graph.Dominates 0 s.node t.node) : g'.Precedes s' t' := by
  have hg := h.wellFormed
  have hte := List.mem_of_getElem? htsite
  obtain ⟨htin, c, hc, -⟩ := h.contains_site he hte
  have htlt := FlowGraph.lt_size_iff.2 ⟨c, hc⟩
  have hslt := FlowGraph.lt_size_iff.2 ⟨_, hsi.choose_spec.1⟩
  cases hs with
  | @kept b hb hown hnode hindex _ =>
    -- What is assigned inside the loop and read there is hoisted with it.
    have hout : e.1.contains s.node = false := by
      by_contra hin
      rw [Bool.not_eq_false] at hin
      have hsite := (NaturalLoop.mem_sites hg (h.isPlanned.mem_loops he)).2 ⟨hin, hsi⟩
      obtain ⟨r, hr, hat⟩ := h.isPlanned.arg_taken he hte hx hsite hd
      obtain ⟨hrnode, hrindex⟩ := Site.isAt_iff.1 hat
      exact (mem_keptAt.1 (List.mem_of_getElem? hindex)).2 r hr hrnode hrindex
    have hplace := h.kept_dominates_preheaderOf hg' hreach he htnode hslt hout htlt htin hdom
    refine .inr ⟨fun heq => ?_, hnode ▸ hplace⟩
    exact h.preheaderOf_ne_placeIn hg' htnode hb hown (heq.symm.trans hnode)
  | @taken f j hf hnode hindex hssite _ =>
    have hsf := List.mem_of_getElem? hssite
    by_cases hfe : f = e
    · subst hfe
      have hlt := h.index_lt_of_mem_args he hssite htsite hd hx
      exact .inl ⟨h.preheaderOf_unique hg' hnode htnode, by omega⟩
    · have hne : e.1.header ≠ f.1.header := fun heq => hfe (h.header_inj hf he heq.symm)
      -- What is hoisted out of the outer loop reads nothing hoisted out of the inner one.
      have hout : e.1.contains f.1.header = false := by
        by_contra hin
        rw [Bool.not_eq_false] at hin
        exact (h.isPlanned.apart hg he hf hne hin hte hsf).1 x hx hd
      have hloop := h.mem_loops hf
      have hlt := (LoopForest.eq_loopAt hloop).2.1
      have hheader := LoopForest.header_dominates hg.graph hloop
        (h.contains_site hf hsf).1 (hreach _ hslt)
      have hfront := h.preheaderOf_dominates hg' hf hnode hlt
        (LoopForest.contains_header hg.graph hloop)
      have hplace := h.kept_dominates_preheaderOf hg' hreach he htnode hlt hout htlt htin
        (hheader.trans hdom)
      refine .inr ⟨fun heq => hfe ?_, hfront.trans hplace⟩
      exact h.eq_of_preheaderOf hf he hnode (heq ▸ htnode)

theorem precedes (hs : ComesFrom planned moves g g' s' s) (ht : ComesFrom planned moves g g' t' t)
    (hsi : g.HasSite s) (hd : s.instr.dest = some x) (hx : x ∈ t.instr.args)
    (hprec : g.Precedes s t) : g'.Precedes s' t' := by
  cases ht with
  | kept hc hown hnode hindex _ =>
    exact h.precedes_of_kept hg' hreach hs hc hown hnode hindex hprec
  | taken he hnode hindex hsite _ =>
    exact h.precedes_of_taken hg' hreach hs hsi he hnode hindex hsite hd hx hprec.dominates

end Rearranged

end FlowOpt
