import FlowOpt.Proofs.Hoist.Places
import FlowOpt.Proofs.Hoist.Saturation

/-!
# Where the instructions of hoisted code come from

An instruction of hoisted code that reads or assigns a variable stood at one site of the code, and
every site has gone to one place: it is kept in its block, or its plan has taken it to a preheader.
Nothing changes on the way but labels, and what is kept of a block keeps its order.
-/

namespace FlowOpt

open FlowOpt.Digraph

def FlowGraph.HasSite (g : FlowGraph) (s : Site) : Prop := g.InstrAt s.node s.index s.instr

def Instruction.NamesVariable (i : Instruction) : Prop := i.dest ≠ none ∨ i.args ≠ []

theorem FlowGraph.own_of_instrAt {g : FlowGraph} {blocks : List Block} {stem : String} {v k : Nat}
    {i : Instruction} (h : ofBlocks blocks stem = .ok g) (hi : g.InstrAt v k i)
    (hn : i.NamesVariable) : (g.node? v).any (·.synthetic) = false := by
  by_cases hzero : v = 0
  · subst hzero
    obtain ⟨first, rest, front, rfl, hfront, hnodes⟩ := nodes_of_ofBlocks h
    obtain ⟨b, hb, hi⟩ := hi
    rw [← getElem?_nodes, hnodes]
    cases hfront with
    | none => rfl
    | jump name =>
      rw [FlowGraph.blocks, hnodes] at hb
      obtain rfl : Block.labeled name [.jump first.name] = b := by simpa using hb
      have hmem := List.mem_of_getElem? hi
      rw [Block.labeled, List.mem_cons, List.mem_singleton] at hmem
      rcases hmem with rfl | rfl <;> simp [Instruction.NamesVariable, Instruction.atLabel,
        Instruction.jump] at hn
  · exact synthetic_eq_false h hzero

def keptAt (taken : List Site) (v : Nat) (instrs : List Instruction) : List (Instruction × Nat) :=
  instrs.zipIdx.filter fun (_, index) => !taken.any fun s => s.node == v && s.index == index

section KeptAt

variable {taken : List Site} {v j j' k k' : Nat} {instrs : List Instruction} {i i' : Instruction}

theorem mem_keptAt : (i, k) ∈ keptAt taken v instrs ↔
    instrs[k]? = some i ∧ ∀ s ∈ taken, s.node = v → s.index ≠ k := by
  rw [keptAt, List.mem_filter, List.mem_zipIdx_iff_getElem?]
  simp

theorem pairwise_keptAt (taken : List Site) (v : Nat) (instrs : List Instruction) :
    (keptAt taken v instrs).Pairwise (·.2 < ·.2) := by
  apply List.Pairwise.filter
  rw [← List.pairwise_map, List.zipIdx_map_snd]
  exact List.pairwise_lt_range'

theorem keptAt_lt (hj : (keptAt taken v instrs)[j]? = some (i, k))
    (hj' : (keptAt taken v instrs)[j']? = some (i', k')) (h : j < j') : k < k' := by
  obtain ⟨hlt, hget⟩ := List.getElem?_eq_some_iff.1 hj
  obtain ⟨hlt', hget'⟩ := List.getElem?_eq_some_iff.1 hj'
  have hpair := List.pairwise_iff_getElem.1 (pairwise_keptAt taken v instrs) j j' hlt hlt' h
  rwa [hget, hget'] at hpair

/-- What is kept keeps its order. -/
theorem keptAt_lt_iff (hj : (keptAt taken v instrs)[j]? = some (i, k))
    (hj' : (keptAt taken v instrs)[j']? = some (i', k')) : j < j' ↔ k < k' := by
  refine ⟨keptAt_lt hj hj', fun hk => ?_⟩
  rcases lt_trichotomy j j' with h | rfl | h
  · exact h
  · obtain ⟨-, rfl⟩ := Prod.mk.inj (Option.some.inj (hj.symm.trans hj'))
    exact absurd hk (lt_irrefl k)
  · exact absurd hk (keptAt_lt hj' hj h).asymm

theorem keptAt_inj (hj : (keptAt taken v instrs)[j]? = some (i, k))
    (hj' : (keptAt taken v instrs)[j']? = some (i', k)) : j = j' := by
  have hlt := keptAt_lt_iff hj hj'
  have hgt := keptAt_lt_iff hj' hj
  omega

end KeptAt

/-- Where a site of moved code was: in the block that its block comes from, or in the loop of its
preheader. -/
inductive ComesFrom (planned : List PlannedLoop) (moves : List Move) (g g' : FlowGraph)
    (s' s : Site) : Prop
  | kept {b : Block} (hb : g.blocks[s.node]? = some b)
      (hown : (g.node? s.node).any (·.synthetic) = false)
      (hnode : s'.node = g.placeIn g' s.node)
      (hindex : (keptAt (takenBy planned) s.node b.instrs)[s'.index]? = some (s.instr, s.index))
      (hinstr : s'.instr = HoistPlan.redirectAll moves b.name s.instr)
  | taken {e : PlannedLoop} {j : Nat} (he : e ∈ planned) (hnode : PreheaderOf moves g' e.2 s'.node)
      (hindex : s'.index = j + 1) (hsite : e.2.sites[j]? = some s) (hinstr : s'.instr = s.instr)

/-- What names a variable in a preheader was put there by its plan. -/
theorem HoistPlan.exists_site {p : HoistPlan} {name : String} {n : Nat} {i : Instruction}
    (hi : (p.preheaderBlock name).instrs[n]? = some i) (hn : i.NamesVariable) :
    ∃ j s, n = j + 1 ∧ p.sites[j]? = some s ∧ i = s.instr := by
  cases n with
  | zero =>
    obtain rfl : Instruction.atLabel name = i := by
      simpa [HoistPlan.preheaderBlock, Block.labeled] using hi
    simp [Instruction.NamesVariable, Instruction.atLabel] at hn
  | succ j =>
    change (p.sites.map (·.instr) ++ [.jump p.header])[j]? = some i at hi
    rw [List.getElem?_append] at hi
    split at hi
    · rw [List.getElem?_map, Option.map_eq_some_iff] at hi
      obtain ⟨s, hs, rfl⟩ := hi
      exact ⟨j, s, rfl, hs, rfl⟩
    · obtain rfl := List.mem_singleton.1 (List.mem_of_getElem? hi)
      simp [Instruction.NamesVariable, Instruction.jump] at hn

namespace ComesFrom

variable {planned : List PlannedLoop} {moves : List Move} {g g' : FlowGraph} {s s' : Site}

theorem dest_eq (h : ComesFrom planned moves g g' s' s) : s'.instr.dest = s.instr.dest := by
  cases h with
  | kept _ _ _ _ hinstr => rw [hinstr, dest_redirectAll]
  | taken _ _ _ _ hinstr => rw [hinstr]

theorem args_eq (h : ComesFrom planned moves g g' s' s) : s'.instr.args = s.instr.args := by
  cases h with
  | kept _ _ _ _ hinstr => rw [hinstr, HoistPlan.redirectAll_eq]
  | taken _ _ _ _ hinstr => rw [hinstr]

theorem isMovable_eq (h : ComesFrom planned moves g g' s' s) :
    s'.instr.isMovable = s.instr.isMovable := by
  cases h with
  | kept _ _ _ _ hinstr =>
    rw [hinstr, HoistPlan.redirectAll_eq]
    rfl
  | taken _ _ _ _ hinstr => rw [hinstr]

end ComesFrom

namespace Rearranged

variable {stem stem' : String} {blocks blocks' : List Block} {g g' : FlowGraph} {live : Results}
  {planned : List PlannedLoop} {moves : List Move} {b : Block} {e e' : PlannedLoop}
  {s s' t t' : Site} {d d' v : Nat}
  (h : Rearranged stem blocks g live planned moves blocks')
  (hg' : FlowGraph.ofBlocks blocks' stem' = .ok g')
include h

theorem preheaderAt_iff (he : e ∈ planned) :
    PreheaderAt planned moves g' e.1.header d ↔ d ≠ 0 ∧ PreheaderOf moves g' e.2 d := by
  rw [preheaderAt_iff_exists]
  refine and_congr_right fun _ => ⟨?_, fun hd => ⟨e, he, rfl, hd⟩⟩
  rintro ⟨e', he', heq, hd⟩
  rwa [← h.header_inj he' he heq]

theorem nodup_planSites (he : e ∈ planned) : e.2.sites.Nodup := by
  have hmarks := NaturalLoop.marks_invariants g e.1 (g.liveAtHeader live e.1)
  refine (hmarks.pairwise.sublist (h.isPlanned.sublist_invariants he)).imp fun hst heq => ?_
  exact hst.2 (congrArg (·.instr.dest) heq)

include hg'

/-- What names a variable in moved code comes from the code. -/
theorem exists_origin (hi : g'.HasSite s') (hn : s'.instr.NamesVariable) :
    ∃ s, ComesFrom planned moves g g' s' s ∧ g.HasSite s := by
  have hown' := FlowGraph.own_of_instrAt hg' hi hn
  obtain ⟨c, hc, hi⟩ := hi
  rcases h.mem_blocks.1 ((FlowGraph.mem_iff_own hg').2 ⟨_, hc, hown'⟩) with
    ⟨v, b, hv, hown, rfl⟩ | ⟨m, hm, rfl⟩
  · have hnode := (FlowGraph.WellFormed.of_ofBlocks hg').eq_of_name_eq hc
      (h.getElem?_placeIn hg' hv hown) rfl
    rw [movedBlock, ← kept_eq, List.map_map, List.getElem?_map, Option.map_eq_some_iff] at hi
    obtain ⟨⟨i, k⟩, hk, hinstr⟩ := hi
    exact ⟨⟨v, k, i⟩, .kept hv hown hnode hk hinstr.symm,
      b, hv, (mem_keptAt.1 (List.mem_of_getElem? hk)).1⟩
  · obtain ⟨e, he, hme⟩ := h.exists_loop hm
    obtain ⟨j, s, hindex, hs, hinstr⟩ := HoistPlan.exists_site hi hn
    have hsite : e.2.sites[j]? = some s := hme ▸ hs
    exact ⟨s, .taken he ⟨m, hm, hme, hc⟩ hindex hsite hinstr,
      (h.contains_site he (List.mem_of_getElem? hsite)).2⟩

theorem comesFrom_unique (hs : ComesFrom planned moves g g' s' s)
    (ht : ComesFrom planned moves g g' s' t) : s = t := by
  cases hs with
  | @kept b hb hown hnode hindex hinstr =>
    cases ht with
    | @kept c hc hown' hnode' hindex' hinstr' =>
      have hsame := h.placeIn_inj hg' (FlowGraph.lt_size_iff.2 ⟨b, hb⟩)
        (FlowGraph.lt_size_iff.2 ⟨c, hc⟩) (hnode.symm.trans hnode')
      rw [← hsame, hb] at hc
      obtain rfl := Option.some.inj hc
      rw [← hsame, hindex] at hindex'
      obtain ⟨hi, hk⟩ := Prod.mk.inj (Option.some.inj hindex')
      cases s
      cases t
      rw [Site.mk.injEq]
      exact ⟨hsame, hk, hi⟩
    | taken he hnode' => exact absurd hnode (h.preheaderOf_ne_placeIn hg' hnode' hb hown)
  | @taken e j he hnode hindex hsite hinstr =>
    cases ht with
    | @kept c hc hown' hnode' hindex' hinstr' =>
      exact absurd hnode' (h.preheaderOf_ne_placeIn hg' hnode hc hown')
    | @taken e' j' he' hnode' hindex' hsite' hinstr' =>
      obtain rfl := h.eq_of_preheaderOf he he' hnode hnode'
      obtain rfl : j = j' := by omega
      exact Option.some.inj (hsite.symm.trans hsite')

theorem comesFrom_inj (hs : ComesFrom planned moves g g' s' s)
    (ht : ComesFrom planned moves g g' t' s) : s' = t' := by
  have hkept : ∀ {b : Block} {j : Nat} {e : PlannedLoop},
      (keptAt (takenBy planned) s.node b.instrs)[j]? = some (s.instr, s.index) →
      e ∈ planned → s ∉ e.2.sites := by
    intro b j e hj he hs
    exact (mem_keptAt.1 (List.mem_of_getElem? hj)).2 s (mem_takenBy.2 ⟨e, he, hs⟩) rfl rfl
  cases s'
  cases t'
  cases hs with
  | @kept b hb _ hnode hindex hinstr =>
    cases ht with
    | @kept c hc _ hnode' hindex' hinstr' =>
      rw [hb] at hc
      obtain rfl := Option.some.inj hc
      rw [Site.mk.injEq]
      exact ⟨hnode.trans hnode'.symm, keptAt_inj hindex hindex', hinstr.trans hinstr'.symm⟩
    | taken he _ _ hsite => exact absurd (List.mem_of_getElem? hsite) (hkept hindex he)
  | @taken e j he hnode hindex hsite hinstr =>
    have hse := List.mem_of_getElem? hsite
    cases ht with
    | kept _ _ _ hindex' => exact absurd hse (hkept hindex' he)
    | @taken e' j' he' hnode' hindex' hsite' hinstr' =>
      obtain rfl := h.isPlanned.eq_of_mem_sites he he' hse (List.mem_of_getElem? hsite')
      have hj := (List.getElem?_inj (List.getElem?_eq_some_iff.1 hsite).1
        (h.nodup_planSites he)).1 (hsite.trans hsite'.symm)
      rw [Site.mk.injEq]
      exact ⟨h.preheaderOf_unique hg' hnode hnode', hindex.trans (hj ▸ hindex'.symm),
        hinstr.trans hinstr'.symm⟩

end Rearranged

end FlowOpt
