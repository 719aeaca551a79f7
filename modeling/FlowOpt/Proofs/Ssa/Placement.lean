import FlowOpt.Proofs.Graph.Frontier
import FlowOpt.Proofs.Ssa.Renaming

/-!
# Where phis are placed

A variable has a phi at the nodes of the iterated frontier of those that assign it, and nowhere
else. So wherever the frontier of a node leads that assigns the variable or has a phi for it, there
is a phi for it too.
-/

namespace FlowOpt.Ssa

open FlowOpt.Digraph

def Defines (g : FlowGraph) (v : Nat) (x : String) : Prop :=
  ∃ b, g.blocks[v]? = some b ∧ x ∈ b.destinations

def sitesOf (sites : NameMap (List Nat × Option Ty)) (x : String) : List Nat :=
  ((sites.get? x).map (·.1)).getD []

def addSite (sites : NameMap (List Nat × Option Ty)) (e : String × Nat × Option Ty) :
    NameMap (List Nat × Option Ty) :=
  match sites.get? e.1 with
  | none => sites.insert e.1 ([e.2.1], e.2.2)
  | some (nodes, old) =>
    sites.insert e.1 (if nodes.contains e.2.1 then nodes else nodes ++ [e.2.1], old.or e.2.2)

variable {g : FlowGraph} {d : Dominance} {u v w : Nat} {x y : String} {ty : Option Ty}

theorem mem_sitesOf_addSite (sites : NameMap (List Nat × Option Ty))
    (e : String × Nat × Option Ty) :
    v ∈ sitesOf (addSite sites e) x ↔ v ∈ sitesOf sites x ∨ (e.1 = x ∧ e.2.1 = v) := by
  obtain ⟨y, w, ty⟩ := e
  unfold addSite sitesOf
  cases hy : sites.get? y with
  | none =>
    by_cases hx : x = y
    · subst hx
      simp [hy, eq_comm]
    · simp [hx, Ne.symm hx]
  | some old =>
    obtain ⟨nodes, ty'⟩ := old
    by_cases hx : x = y
    · subst hx
      by_cases hw : w ∈ nodes
      · have hv : w = v → v ∈ nodes := fun h => h ▸ hw
        simpa [hy, hw] using hv
      · simp [hy, hw, eq_comm]
    · simp [hx, Ne.symm hx]

theorem mem_sitesOf_foldl (defs : List (String × Nat × Option Ty))
    (sites : NameMap (List Nat × Option Ty)) :
    v ∈ sitesOf (defs.foldl addSite sites) x ↔
      v ∈ sitesOf sites x ∨ ∃ ty, (x, v, ty) ∈ defs := by
  induction defs generalizing sites with
  | nil => simp
  | cons e defs ih =>
    rw [List.foldl_cons, ih, mem_sitesOf_addSite, or_assoc]
    refine or_congr_right ?_
    obtain ⟨y, w, ty⟩ := e
    simp only [List.mem_cons, Prod.mk.injEq]
    constructor
    · rintro (⟨rfl, rfl⟩ | ⟨ty', h⟩)
      · exact ⟨ty, .inl ⟨rfl, rfl, rfl⟩⟩
      · exact ⟨ty', .inr h⟩
    · rintro ⟨ty', ⟨rfl, rfl, rfl⟩ | h⟩
      · exact .inl ⟨rfl, rfl⟩
      · exact .inr ⟨ty', h⟩

theorem mem_definitionSites : v ∈ sitesOf (definitionSites g) x ↔ Defines g v x := by
  have hfold : definitionSites g = (g.nodes.zipIdx.flatMap fun e =>
      e.1.block.instrs.filterMap fun i => i.dest.map fun x => (x, e.2, i.ty)).foldl addSite {} := rfl
  rw [hfold, mem_sitesOf_foldl]
  simp only [List.mem_flatMap, List.mem_filterMap, Option.map_eq_some_iff, Prod.exists,
    List.mem_zipIdx_iff_getElem?, Prod.mk.injEq]
  unfold Defines
  have hblock : ∀ b, g.blocks[v]? = some b ↔ ∃ n, g.nodes[v]? = some n ∧ n.block = b := fun b => by
    simp [FlowGraph.blocks, Option.map_eq_some_iff]
  constructor
  · rintro (h | ⟨ty, n, w, hn, i, hi, y, hy, rfl, rfl, rfl⟩)
    · simp [sitesOf] at h
    · exact ⟨n.block, (hblock _).2 ⟨n, hn, rfl⟩, List.mem_filterMap.2 ⟨i, hi, hy⟩⟩
  · rintro ⟨b, hb, hx⟩
    obtain ⟨n, hn, rfl⟩ := (hblock b).1 hb
    obtain ⟨i, hi, hd⟩ := List.mem_filterMap.1 hx
    exact .inr ⟨i.ty, n, v, hn, i, hi, x, hd, rfl, rfl, rfl⟩

def placeAt (x : String) (ty : Option Ty) (phis : Array (NameMap Phi)) (nodes : List Nat) :
    Array (NameMap Phi) :=
  nodes.foldl (fun phis v => phis.modify v (·.insert x { source := x, ty })) phis

theorem size_placeAt (phis : Array (NameMap Phi)) (nodes : List Nat) :
    (placeAt x ty phis nodes).size = phis.size := by
  unfold placeAt
  induction nodes generalizing phis with
  | nil => rfl
  | cons v nodes ih => rw [List.foldl_cons, ih, Array.size_modify]

theorem phiAt_placeAt {phis : Array (NameMap Phi)} {nodes : List Nat}
    (hn : ∀ v ∈ nodes, v < phis.size) : phiAt (placeAt x ty phis nodes) u y =
      if u ∈ nodes ∧ y = x then some { source := x, ty } else phiAt phis u y := by
  unfold placeAt
  induction nodes generalizing phis with
  | nil => simp
  | cons v nodes ih =>
    rw [List.foldl_cons, ih fun w hw => by
      rw [Array.size_modify]
      exact hn w (List.mem_cons_of_mem _ hw), phiAt_modify (hn v List.mem_cons_self)]
    by_cases hu : u ∈ nodes ∧ y = x
    · rw [if_pos hu, if_pos ⟨List.mem_cons_of_mem _ hu.1, hu.2⟩]
    · rw [if_neg hu]
      refine if_congr ⟨fun h => ⟨List.mem_cons.2 (.inl h.1), h.2⟩, fun h => ⟨?_, h.2⟩⟩ rfl rfl
      exact (List.mem_cons.1 h.1).resolve_right fun hm => hu ⟨hm, h.2⟩

def Blank (p : Phi) : Prop := p.dest = none ∧ p.operands = []

section Placement

variable (hg : g.WellFormed)
include hg

theorem lt_of_mem_iteratedFrontier {nodes : List Nat}
    (hv : v ∈ (Dominance.ofGraph g.graph 0).iteratedFrontier nodes) : v < g.size := by
  obtain ⟨u, -, hu⟩ := Dominance.exists_of_mem_iteratedFrontier hg.graph.symmetric hv
  exact hu.reachable.lt

theorem placePhis_fold (entries : List (String × List Nat × Option Ty))
    (phis : Array (NameMap Phi)) (hs : phis.size = g.size) :
    let out := entries.foldl (fun phis e => placeAt e.1 e.2.2 phis
      ((Dominance.ofGraph g.graph 0).iteratedFrontier e.2.1).members) phis
    out.size = g.size ∧
      (∀ v x, (phiAt out v x).isSome = true ↔ (phiAt phis v x).isSome = true ∨
        ∃ nodes ty, (x, nodes, ty) ∈ entries ∧
          v ∈ (Dominance.ofGraph g.graph 0).iteratedFrontier nodes) ∧
      ((∀ v x p, phiAt phis v x = some p → Blank p) →
        ∀ v x p, phiAt out v x = some p → Blank p) := by
  induction entries generalizing phis with
  | nil => exact ⟨hs, by simp, id⟩
  | cons e entries ih =>
    obtain ⟨y, nodes, ty⟩ := e
    have hlt : ∀ v ∈ ((Dominance.ofGraph g.graph 0).iteratedFrontier nodes).members,
        v < phis.size := fun v hv =>
      hs.symm ▸ lt_of_mem_iteratedFrontier hg (Dominance.tidy_iteratedFrontier.mem_members.1 hv)
    obtain ⟨hsize, hsome, hblank⟩ := ih (placeAt y ty phis
      ((Dominance.ofGraph g.graph 0).iteratedFrontier nodes).members)
      ((size_placeAt _ _).trans hs)
    refine ⟨hsize, fun v x => ?_, fun hold => hblank fun v x p hp => ?_⟩
    · refine (hsome v x).trans ?_
      rw [phiAt_placeAt hlt]
      constructor
      · rintro (h | ⟨nodes', ty', he, hv⟩)
        · split at h
          · next hc =>
            obtain ⟨hv, rfl⟩ := hc
            exact .inr ⟨nodes, ty, List.mem_cons_self,
              Dominance.tidy_iteratedFrontier.mem_members.1 hv⟩
          · exact .inl h
        · exact .inr ⟨nodes', ty', List.mem_cons_of_mem _ he, hv⟩
      · rintro (h | ⟨nodes', ty', he, hv⟩)
        · left
          split
          · rfl
          · exact h
        · rcases List.mem_cons.1 he with heq | he
          · simp only [Prod.mk.injEq] at heq
            obtain ⟨rfl, rfl, rfl⟩ := heq
            rw [if_pos ⟨Dominance.tidy_iteratedFrontier.mem_members.2 hv, rfl⟩]
            exact .inl rfl
          · exact .inr ⟨nodes', ty', he, hv⟩
    · rw [phiAt_placeAt hlt] at hp
      split at hp
      · obtain rfl := Option.some.inj hp
        exact ⟨rfl, rfl⟩
      · exact hold v x p hp

/-- What is placed: blank phis, for each variable where assignments of it may meet. -/
theorem placePhis_spec :
    (placePhis g (.ofGraph g.graph 0)).size = g.size ∧
      (∀ v x, (phiAt (placePhis g (.ofGraph g.graph 0)) v x).isSome = true ↔
        v ∈ (Dominance.ofGraph g.graph 0).iteratedFrontier (sitesOf (definitionSites g) x)) ∧
      ∀ v x p, phiAt (placePhis g (.ofGraph g.graph 0)) v x = some p → Blank p := by
  have hempty : ∀ v x, phiAt (Array.replicate g.size {}) v x = none := fun v x => by
    unfold phiAt
    rw [Array.getElem?_replicate]
    split <;> rfl
  obtain ⟨hsize, hsome, hblank⟩ := placePhis_fold hg (definitionSites g).entries
    (Array.replicate g.size {}) Array.size_replicate
  refine ⟨hsize, fun v x => (hsome v x).trans ?_, hblank fun v x p hp => ?_⟩
  · rw [hempty]
    constructor
    · rintro (h | ⟨nodes, ty, he, hv⟩)
      · cases h
      · rwa [sitesOf, NameMap.mem_entries_iff.1 he]
    · intro h
      right
      cases hx : (definitionSites g).get? x with
      | some e => exact ⟨e.1, e.2, NameMap.mem_entries_iff.2 hx, by simpa [sitesOf, hx] using h⟩
      | none =>
        rw [sitesOf, hx, Option.map_none, Option.getD_none, Dominance.iteratedFrontier_nil] at h
        exact absurd h (BitSet.not_mem_empty _ _)
  · exact absurd hp (by simp [hempty])

end Placement

end FlowOpt.Ssa
