import FlowOpt.Proofs.Ssa.Placement
import FlowOpt.Proofs.Ssa.Walk
import FlowOpt.Ssa.Form

/-!
# The names behind a form

Every form comes from one assignment of names to the reachable nodes: a node is entered with the
names its closest strict dominator was left with, its phis assign new ones, and each phi has one
operand for every reachable predecessor. Along an edge a variable keeps its name unless the node
entered has a phi for it.
-/

namespace FlowOpt

namespace Ssa

open FlowOpt.Digraph

def paramEnv (params : List String) : Env := .ofList (params.map fun x => (x, x))

def startWalk (g : FlowGraph) : Walk :=
  ⟨{}, 0, 0, placePhis g (.ofGraph g.graph 0), Array.replicate g.size none⟩

/-- Names of the reachable nodes, and the phis and the code that go with them. -/
structure Naming (g : FlowGraph) (params : List String) (undefined : String)
    (names : Nat → NodeNames) (s : Walk) : Prop where
  entry : (names 0).entering = paramEnv params
  below : ∀ u v, g.graph.Reachable 0 v → g.graph.ImmediateDominator 0 u v →
    (names v).entering = (names u).leaving
  placed : ∀ v x, (s.phi? v x).isSome = true ↔
    v ∈ (Dominance.ofGraph g.graph 0).iteratedFrontier (sitesOf (definitionSites g) x)
  phi : ∀ v x p, g.graph.Reachable 0 v → s.phi? v x = some p →
    ∃ n, p.dest = some (FlowGraph.numbered x n) ∧
      (names v).inside.get? x = some (FlowGraph.numbered x n)
  no_phi : ∀ v x, g.graph.Reachable 0 v → s.phi? v x = none →
    (names v).inside.get? x = (names v).entering.get? x
  operands_nodup : ∀ v x p, s.phi? v x = some p → (p.operands.map (·.predecessor)).Nodup
  operands : ∀ v x p, s.phi? v x = some p → ∀ o, o ∈ p.operands ↔
    ∃ u, g.graph.Reachable 0 u ∧ v ∈ g.graph.succs u ∧
      o = ⟨called undefined (names u).leaving x, g.nameOf u⟩
  code : ∀ v b, g.graph.Reachable 0 v → g.blocks[v]? = some b → ∃ instrs,
    s.code? v = some instrs ∧ Renamed undefined (names v).inside b.instrs instrs (names v).leaving ∧
    (instrs.filterMap (·.dest)).Nodup ∧
    ∀ x p, s.phi? v x = some p → p.target ∉ instrs.filterMap (·.dest)
  disjoint : ∀ u v d, g.graph.Reachable 0 u → g.graph.Reachable 0 v →
    s.Assigns u d → s.Assigns v d → u = v

variable {g : FlowGraph} {params : List String} {undefined : String} {form : SsaForm}
  {u v w : Nat} {x : String} {b : Block} {names : Nat → NodeNames} {s : Walk}

theorem walked_start (hg : g.WellFormed) (params : Env) (undefined : String) :
    Walked g undefined params (startWalk g) (fun _ => none) (startWalk g) := by
  obtain ⟨hsize, -, hblank⟩ := placePhis_spec hg
  refine ⟨hsize, Array.size_replicate, fun _ _ => rfl, by simp, by simp, by simp, by simp,
    fun v x p hp => ?_, fun v x p hp o => ?_, by simp, by simp, by simp⟩
  · simp [(hblank v x p hp).2]
  · simp [(hblank v x p hp).2]

/-- Over edges that are not turned there always is a form. -/
theorem ofGraph_isOk (hg : g.WellFormed) (params : List String) (undefined : String) :
    ∃ form, SsaForm.ofGraph g params undefined = .ok form := by
  unfold SsaForm.ofGraph
  rw [if_neg (by simp [hg.forward])]
  exact ⟨_, rfl⟩

theorem eq_ofWalk (hg : g.WellFormed) (h : SsaForm.ofGraph g params undefined = .ok form) :
    form = SsaForm.ofWalk g (rename g (.ofGraph g.graph 0) undefined g.size 0 (paramEnv params)
      (startWalk g)) := by
  have hgraph : g.dominance = .ofGraph g.graph 0 := by
    simp [FlowGraph.dominance, FlowGraph.forward, FlowGraph.entry, hg.forward]
  rw [SsaForm.ofGraph, if_neg (by simp [hg.forward]), hgraph] at h
  exact (Except.ok.inj h).symm

theorem exists_naming (hg : g.WellFormed) (h : SsaForm.ofGraph g params undefined = .ok form) :
    ∃ names s, Naming g params undefined names s ∧ form = SsaForm.ofWalk g s := by
  have hform := eq_ofWalk hg h
  have h0 : g.graph.Reachable 0 0 := .of_lt hg.nonempty
  obtain ⟨T, hw, -, hT⟩ := Walked.rename hg g.size (walked_start hg (paramEnv params) undefined)
    ⟨h0, fun _ _ => rfl, .inl ⟨rfl, rfl⟩⟩
    (Nat.lt_add_of_pos_right (Dominance.dominatorCount_pos hg.graph.symmetric h0))
  have hnamed : ∀ v, g.graph.Reachable 0 v → ∃ t, T v = some t := fun v hv =>
    Option.ne_none_iff_exists'.1 ((hT v).2 (.inr ⟨.of_entry v, hv⟩))
  have hsome : ∀ v, g.graph.Reachable 0 v → T v = some ((T v).getD ⟨{}, {}, {}⟩) := fun v hv => by
    obtain ⟨t, ht⟩ := hnamed v hv
    rw [ht, Option.getD_some]
  refine ⟨fun v => (T v).getD ⟨{}, {}, {}⟩, _, ?_, hform⟩
  constructor
  case entry =>
    rcases hw.entering 0 _ (hsome 0 h0) with ⟨-, he⟩ | ⟨u, tu, hi, -, -⟩
    · exact he
    · exact absurd (hi.1.1.antisymm (.of_entry u) h0) hi.1.2
  case below =>
    intro u v hv hi
    rcases hw.entering v _ (hsome v hv) with ⟨rfl, -⟩ | ⟨u', tu, hi', hu', he⟩
    · exact absurd (hi.1.1.antisymm (.of_entry u) h0) hi.1.2
    · obtain rfl := hi.unique hi' hv
      rw [he, hu', Option.getD_some]
  case placed =>
    intro v x
    rw [hw.placed]
    exact (placePhis_spec hg).2.1 v x
  case phi => exact fun v x p hv hp => hw.phi v _ x p (hsome v hv) hp
  case no_phi => exact fun v x hv hp => hw.no_phi v _ x (hsome v hv) hp
  case operands_nodup => exact hw.operands_nodup
  case operands =>
    intro v x p hp o
    rw [hw.operands v x p hp o]
    constructor
    · rintro ⟨u, t, hu, hs, rfl⟩
      exact ⟨u, hw.reachable u t hu, hs, by rw [hu, Option.getD_some]⟩
    · rintro ⟨u, hu, hs, rfl⟩
      exact ⟨u, _, hsome u hu, hs, rfl⟩
  case code =>
    intro v b hv hb
    obtain ⟨b', instrs, hb', hcode⟩ := hw.code v _ (hsome v hv)
    obtain rfl := Option.some.inj (hb.symm.trans hb')
    exact ⟨instrs, hcode⟩
  case disjoint =>
    exact fun u v d hu hv hdu hdv => hw.disjoint u v _ _ d (hsome u hu) (hsome v hv) hdu hdv

theorem Renamed.get?_eq {env env' : Env} {instrs instrs' : List Instruction}
    (h : Renamed undefined env instrs instrs' env') (hx : x ∉ instrs.filterMap (·.dest)) :
    env'.get? x = env.get? x := by
  induction h with
  | nil => rfl
  | effect hi _ ih =>
    simp only [List.filterMap_cons, hi] at hx
    exact ih hx
  | assign hi _ ih =>
    simp only [List.filterMap_cons, hi, List.mem_cons, not_or] at hx
    rw [ih hx.2, NameMap.get?_insert, if_neg hx.1]

section Naming

variable (h : Naming g params undefined names s) (hg : g.WellFormed)
include h hg

/-- Where the frontier of a node leads that gives a variable a new name, it has a phi. -/
theorem Naming.phi_of_frontier (hv : Defines g v x ∨ (s.phi? v x).isSome = true)
    (hw : g.graph.InFrontier 0 v w) : (s.phi? w x).isSome = true := by
  rw [h.placed]
  refine Dominance.mem_iteratedFrontier hg.graph.symmetric ?_ hw
  exact hv.imp mem_definitionSites.2 (h.placed v x).1

/-- Phis are at reachable nodes that something leads to. -/
theorem Naming.reachable_of_phi (hv : (s.phi? v x).isSome = true) :
    g.graph.Reachable 0 v ∧ v ≠ 0 := by
  obtain ⟨u, -, hu⟩ := Dominance.exists_of_mem_iteratedFrontier hg.graph.symmetric
    ((h.placed v x).1 hv)
  obtain ⟨a, -, ha⟩ := hu.exists_pred
  refine ⟨hu.reachable, ?_⟩
  rintro rfl
  exact hg.entry_not_succ a ha

omit hg in
/-- A node that neither assigns a variable nor has a phi for it leaves it its name. -/
theorem Naming.leaving_eq (hv : g.graph.Reachable 0 v) (hd : ¬ Defines g v x)
    (hp : ¬ (s.phi? v x).isSome = true) :
    (names v).leaving.get? x = (names v).entering.get? x := by
  obtain ⟨b, hb⟩ : ∃ b, g.blocks[v]? = some b := by
    have hlt : v < g.blocks.length := FlowGraph.size_eq_length g ▸ hv.lt
    exact ⟨_, List.getElem?_eq_getElem hlt⟩
  obtain ⟨instrs, -, hren, -⟩ := h.code v b hv hb
  rw [hren.get?_eq fun hx => hd ⟨b, hb, hx⟩, h.no_phi v x hv (by simpa using hp)]

/-- Along an edge a variable keeps its name if the node entered has no phi for it. The nodes
between the closest strict dominator and the one left have the node entered in their frontier, so
none of them gives the variable a name. -/
theorem Naming.entering_eq (hu : g.graph.Reachable 0 u) (hv : v ∈ g.graph.succs u)
    (hp : s.phi? v x = none) :
    (names v).entering.get? x = (names u).leaving.get? x := by
  have hlt := (hg.graph.succs_lt u v hv).2
  have hvr := hu.step hv hlt
  have hv0 : v ≠ 0 := by
    rintro rfl
    exact hg.entry_not_succ u hv
  obtain ⟨t, -, hi⟩ := Dominance.exists_idom? hg.graph.symmetric hvr hv0
  have htu := hi.dominates_pred hv hlt
  rw [h.below t v hvr hi]
  refine (Dominance.chain_induction hg.graph.symmetric (P := fun n =>
    (names n).leaving.get? x = (names t).leaving.get? x) htu hu rfl
    fun m n hmn htm hnu ih => ?_).symm
  have hn := hnu.reachable hu
  have htn := htm.trans hmn.1.1
  have hne : n ≠ t := by
    rintro rfl
    exact hmn.1.2 (hmn.1.1.antisymm htm hn)
  have hfront := hi.inFrontier hu hv hlt htn hne hnu
  have hnone : ¬ (Defines g n x ∨ (s.phi? n x).isSome = true) := fun hd => by
    have hsome := h.phi_of_frontier hg hd hfront
    simp [hp] at hsome
  rw [not_or] at hnone
  rw [h.leaving_eq hn hnone.1 hnone.2, h.below m n hn hmn, ih]

end Naming

end Ssa

end FlowOpt
