import FlowOpt.Proofs.Graph.DominatorTree
import FlowOpt.Proofs.Ssa.Renaming

/-!
# The walk over the dominator tree

For every node that was visited there are three mappings: what variables are called when it is
entered, behind its phis, and at its end. A node is entered with the names that its closest strict
dominator was left with, and each phi has the operand of every predecessor that was visited, and no
other. The walk visits every reachable node once.
-/

namespace FlowOpt.Ssa

open FlowOpt.Digraph

structure NodeNames where
  entering : Env
  /-- Behind the phis. -/
  inside : Env
  leaving : Env

variable {g : FlowGraph} {undefined : String} {u v w n : Nat} {node : FlowNode} {b : Block}
  {env : Env} {s s' : Walk} {t t' : NodeNames} {x y d : String} {p : Phi}

variable (g undefined) in
/-- The visit of a node without those below it: what variables are called at its end, and the new
state. -/
def visit (v : Nat) (b : Block) (env : Env) (s : Walk) : Env × Walk :=
  let named := namePhis v (s.phis[v]?.getD {}).entries env s
  let code := renameInstrs undefined b.instrs named.1 named.2
  (code.2.1, (g.graph.succs v).foldl (feedPhis undefined b.name code.2.1)
    { code.2.2 with renamed := code.2.2.renamed.setIfInBounds v (some code.1) })

theorem rename_succ {d : Dominance} (hn : g.node? v = some node) (fuel : Nat) (env : Env)
    (s : Walk) : rename g d undefined (fuel + 1) v env s =
      (let out := visit g undefined v node.block env s
       ((d.children v).mergeSort fun a b => g.nameOf a ≤ g.nameOf b).foldl
        (fun s c => rename g d undefined fuel c out.1 s) out.2) := by
  simp only [rename, hn, visit]

variable (g undefined) in
structure Visit (v : Nat) (b : Block) (s : Walk) (t : NodeNames) (s' : Walk) : Prop where
  phi : ∀ x p, s.phi? v x = some p →
    t.inside.get? x = some (FlowGraph.numbered x (s.count x)) ∧ s.count x < s'.count x
  no_phi : ∀ x, s.phi? v x = none → t.inside.get? x = t.entering.get? x
  code : ∃ instrs, s'.code? v = some instrs ∧
    Renamed undefined t.inside b.instrs instrs t.leaving ∧ (instrs.filterMap (·.dest)).Nodup ∧
    ∀ d ∈ instrs.filterMap (·.dest), ∃ x n, d = FlowGraph.numbered x n ∧ s.count x ≤ n ∧
      n < s'.count x ∧ ∀ p, s.phi? v x = some p → n ≠ s.count x
  code_elsewhere : ∀ u, u ≠ v → s'.code? u = s.code? u
  phis : ∀ u x, s'.phi? u x = (s.phi? u x).map fun p =>
    let p := if u = v then { p with dest := t.inside.get? x } else p
    if u ∈ g.graph.succs v then p.addOperand b.name (called undefined t.leaving x) else p
  le : ∀ x, s.count x ≤ s'.count x
  phis_size : s'.phis.size = s.phis.size
  renamed_size : s'.renamed.size = s.renamed.size

theorem code?_setIfInBounds (hv : v < s.renamed.size) (code : List Instruction) :
    Walk.code? { s with renamed := s.renamed.setIfInBounds v (some code) } u =
      if u = v then some code else s.code? u := by
  unfold Walk.code?
  rw [Array.getElem?_setIfInBounds]
  by_cases h : v = u
  · subst h
    simp [hv]
  · rw [if_neg h, if_neg (Ne.symm h)]

theorem visit_spec (undefined : String) (hg : g.WellFormed) (hphis : s.phis.size = g.size)
    (hren : s.renamed.size = g.size) (hv : v < g.size) (b : Block) (env : Env) :
    ∃ t : NodeNames, t.entering = env ∧ t.leaving = (visit g undefined v b env s).1 ∧
      Visit g undefined v b s t (visit g undefined v b env s).2 := by
  have hnamed := nodeNamed (hphis.symm ▸ hv) env
  simp only [visit]
  generalize namePhis v (s.phis[v]?.getD {}).entries env s = named at hnamed ⊢
  obtain ⟨inside, s1⟩ := named
  have hcode := renameInstrs_spec undefined b.instrs inside s1
  generalize renameInstrs undefined b.instrs inside s1 = code at hcode ⊢
  obtain ⟨instrs, leaving, s2⟩ := code
  have hphis2 : s2.phis = s1.phis := hcode.phis
  have hren2 : s2.renamed = s.renamed := hcode.renamed.trans hnamed.renamed
  have hsize2 : s2.phis.size = s.phis.size := (congrArg Array.size hphis2).trans hnamed.size_eq
  have hsuccs : ∀ u ∈ g.graph.succs v, u < s2.phis.size := by
    intro u hu
    rw [hsize2, hphis]
    exact (hg.graph.succs_lt v u hu).2
  have hfed := foldl_feedPhis_spec (w := { s2 with
    renamed := s2.renamed.setIfInBounds v (some instrs) }) (hg.graph.succs_nodup v) hsuccs undefined
      b.name leaving
  generalize (g.graph.succs v).foldl _ _ = s3 at hfed ⊢
  have hcount : ∀ x, s3.count x = s2.count x := fun x => by
    simp only [Walk.count, hfed.counters]
  have hcode3 : ∀ u, s3.code? u = if u = v then some instrs else s.code? u := by
    intro u
    have hv2 : v < s2.renamed.size := by
      rw [hren2, hren]
      exact hv
    have h := code?_setIfInBounds (u := u) hv2 instrs
    simp only [Walk.code?, hfed.renamed, hren2] at h ⊢
    exact h
  refine ⟨⟨env, inside, leaving⟩, rfl, rfl, fun x p hx => ?_, fun x hx => (hnamed.other x hx).1, ?_,
    fun u hu => (hcode3 u).trans (if_neg hu), fun u x => ?_, fun x => ?_, ?_, ?_⟩
  · obtain ⟨hname, hc⟩ := hnamed.named x p hx
    refine ⟨hname, ?_⟩
    rw [hcount]
    exact Nat.lt_of_lt_of_le (hc.symm ▸ Nat.lt_succ_self _) (hcode.issued.le x)
  · refine ⟨instrs, (hcode3 v).trans (if_pos rfl), hcode.renamed_to, hcode.issued.nodup,
      fun d hd => ?_⟩
    obtain ⟨x, n, rfl, hl, hr⟩ := hcode.issued.between d hd
    refine ⟨x, n, rfl, (hnamed.le x).trans hl, (hcount x).symm ▸ hr, fun p hp hn => ?_⟩
    have hc : s1.count x = s.count x + 1 := (hnamed.named x p hp).2
    omega
  · have hs2 : Walk.phi? { s2 with renamed := s2.renamed.setIfInBounds v (some instrs) } u x =
        s1.phi? u x := by simp only [Walk.phi?, hphis2]
    rw [hfed.phi, hs2, hnamed.phi]
    by_cases hu : u ∈ g.graph.succs v
    · simp [hu, Function.comp_def]
    · simp [hu]
  · rw [hcount]
    exact (hnamed.le x).trans (hcode.issued.le x)
  · exact hfed.size_eq.trans hsize2
  · simp [hfed.renamed, hren2]

theorem Visit.phi?_here (h : Visit g undefined v b s t s') {p' : Phi}
    (hp : s'.phi? v x = some p') : p'.dest = some (FlowGraph.numbered x (s.count x)) ∧
      t.inside.get? x = some (FlowGraph.numbered x (s.count x)) ∧ s.count x < s'.count x ∧
      ∃ p, s.phi? v x = some p := by
  rw [h.phis, Option.map_eq_some_iff] at hp
  obtain ⟨p, hp, rfl⟩ := hp
  obtain ⟨hname, hlt⟩ := h.phi x p hp
  refine ⟨?_, hname, hlt, p, hp⟩
  simp only [if_true]
  split
  · exact hname
  · exact hname

theorem Visit.phi?_elsewhere (h : Visit g undefined v b s t s') (hu : u ≠ v) {p' : Phi}
    (hp : s'.phi? u x = some p') : ∃ p, s.phi? u x = some p ∧ p'.dest = p.dest ∧
      p'.target = p.target := by
  rw [h.phis, Option.map_eq_some_iff] at hp
  obtain ⟨p, hp, rfl⟩ := hp
  refine ⟨p, hp, ?_⟩
  simp only [if_neg hu]
  split
  · exact ⟨rfl, rfl⟩
  · exact ⟨rfl, rfl⟩

theorem Visit.assigns_elsewhere (h : Visit g undefined v b s t s') (hu : u ≠ v)
    (hd : s'.Assigns u d) : s.Assigns u d := by
  rcases hd with ⟨x, p', hp, rfl⟩ | ⟨instrs, hi, hd⟩
  · obtain ⟨p, hp, -, htarget⟩ := h.phi?_elsewhere hu hp
    exact .inl ⟨x, p, hp, htarget.symm⟩
  · exact .inr ⟨instrs, (h.code_elsewhere u hu).symm.trans hi, hd⟩

theorem Visit.assigns_here (h : Visit g undefined v b s t s') (hd : s'.Assigns v d) :
    ∃ x n, d = FlowGraph.numbered x n ∧ s.count x ≤ n ∧ n < s'.count x := by
  rcases hd with ⟨x, p', hp, rfl⟩ | ⟨instrs, hi, hd⟩
  · obtain ⟨hdest, -, hlt, -⟩ := h.phi?_here hp
    exact ⟨x, s.count x, by simp [Phi.target, hdest], le_rfl, hlt⟩
  · obtain ⟨instrs', hi', -, -, hissued⟩ := h.code
    obtain rfl : instrs = instrs' := Option.some.inj (hi.symm.trans hi')
    obtain ⟨x, n, rfl, hl, hr, -⟩ := hissued d hd
    exact ⟨x, n, rfl, hl, hr⟩

variable (g undefined) in
/-- What holds when the nodes with names in `T` have been visited, from the state `start` on. -/
structure Walked (params : Env) (start : Walk) (T : Nat → Option NodeNames) (s : Walk) :
    Prop where
  phis_size : s.phis.size = g.size
  renamed_size : s.renamed.size = g.size
  placed : ∀ v x, (s.phi? v x).isSome = (start.phi? v x).isSome
  reachable : ∀ v t, T v = some t → g.graph.Reachable 0 v
  entering : ∀ v t, T v = some t → (v = 0 ∧ t.entering = params) ∨
    ∃ u tu, g.graph.ImmediateDominator 0 u v ∧ T u = some tu ∧ t.entering = tu.leaving
  phi : ∀ v t x p, T v = some t → s.phi? v x = some p →
    ∃ n, p.dest = some (FlowGraph.numbered x n) ∧
      t.inside.get? x = some (FlowGraph.numbered x n)
  no_phi : ∀ v t x, T v = some t → s.phi? v x = none → t.inside.get? x = t.entering.get? x
  operands_nodup : ∀ v x p, s.phi? v x = some p → (p.operands.map (·.predecessor)).Nodup
  operands : ∀ v x p, s.phi? v x = some p → ∀ o, o ∈ p.operands ↔
    ∃ u t, T u = some t ∧ v ∈ g.graph.succs u ∧
      o = ⟨called undefined t.leaving x, g.nameOf u⟩
  code : ∀ v t, T v = some t → ∃ b instrs, g.blocks[v]? = some b ∧ s.code? v = some instrs ∧
    Renamed undefined t.inside b.instrs instrs t.leaving ∧ (instrs.filterMap (·.dest)).Nodup ∧
    ∀ x p, s.phi? v x = some p → p.target ∉ instrs.filterMap (·.dest)
  issued : ∀ v t d, T v = some t → s.Assigns v d →
    ∃ x n, d = FlowGraph.numbered x n ∧ n < s.count x
  disjoint : ∀ u v t t' d, T u = some t → T v = some t' → s.Assigns u d → s.Assigns v d → u = v

variable {params : Env} {start : Walk} {T T' : Nat → Option NodeNames}

theorem Visit.operands (h : Visit g undefined v b s t s') {p' : Phi}
    (hp' : s'.phi? u x = some p') : ∃ p, s.phi? u x = some p ∧ p'.operands =
      if u ∈ g.graph.succs v then
        Phi.setOperand b.name (called undefined t.leaving x) p.operands
      else p.operands := by
  rw [h.phis, Option.map_eq_some_iff] at hp'
  obtain ⟨p, hp, rfl⟩ := hp'
  refine ⟨p, hp, ?_⟩
  split <;> split <;> rfl

/-- After its visit, the code of a node and its phis assign different versions. -/
theorem Visit.code_here (h : Visit g undefined v b s t s') : ∃ instrs, s'.code? v = some instrs ∧
    Renamed undefined t.inside b.instrs instrs t.leaving ∧ (instrs.filterMap (·.dest)).Nodup ∧
    ∀ x p, s'.phi? v x = some p → p.target ∉ instrs.filterMap (·.dest) := by
  obtain ⟨instrs, hi, hrenamed, hnodup, hissued⟩ := h.code
  refine ⟨instrs, hi, hrenamed, hnodup, fun x p hp hm => ?_⟩
  obtain ⟨hdest, -, -, q, hq⟩ := h.phi?_here hp
  obtain ⟨y, n, hd, -, -, hnot⟩ := hissued _ hm
  rw [Phi.target, hdest, Option.getD_some, FlowGraph.numbered_inj] at hd
  obtain ⟨rfl, rfl⟩ := hd
  exact hnot q hq rfl

theorem update_eq_some (hu : Function.update T v (some t) u = some t') :
    (u = v ∧ t' = t) ∨ (u ≠ v ∧ T u = some t') := by
  by_cases huv : u = v
  · subst huv
    rw [Function.update_self] at hu
    exact .inl ⟨rfl, (Option.some.inj hu).symm⟩
  · rw [Function.update_of_ne huv] at hu
    exact .inr ⟨huv, hu⟩

theorem ne_of_unvisited (hnew : T v = none) (hu : T u = some t) : u ≠ v := by
  rintro rfl
  exact Option.some_ne_none t (hu.symm.trans hnew)

theorem update_of_visited (hnew : T v = none) (t : NodeNames) (hu : T u = some t') :
    Function.update T v (some t) u = some t' :=
  (Function.update_of_ne (ne_of_unvisited hnew hu) _ _).trans hu

section Visit

variable (h : Walked g undefined params start T s) (hg : g.WellFormed) (hnew : T v = none)
  (hb : g.blocks[v]? = some b) (hvisit : Visit g undefined v b s t s')

include h hg hnew hb

theorem Walked.not_fed (hp : s.phi? u x = some p) : b.name ∉ p.operands.map (·.predecessor) := by
  intro hm
  obtain ⟨o, ho, hname⟩ := List.mem_map.1 hm
  obtain ⟨a, ta, hta, -, rfl⟩ := (h.operands u x p hp o).1 ho
  have hlt : a < g.blocks.length := FlowGraph.size_eq_length g ▸ (h.reachable a ta hta).lt
  have hc := List.getElem?_eq_getElem hlt
  rw [FlowGraph.nameOf_eq hc] at hname
  exact ne_of_unvisited hnew hta (hg.eq_of_name_eq hc hb hname)

include hvisit

theorem Walked.nodup_operands_visit (hp : s'.phi? u x = some p) :
    (p.operands.map (·.predecessor)).Nodup := by
  obtain ⟨q, hq, hops⟩ := hvisit.operands hp
  have hn := h.operands_nodup u x q hq
  have hunfed := h.not_fed hg hnew hb hq
  rw [hops]
  split
  · rw [Phi.setOperand_of_not_mem hunfed, List.map_append]
    exact hn.append (List.nodup_singleton _) (by simpa using hunfed)
  · exact hn

theorem Walked.mem_operands_visit (hp : s'.phi? u x = some p) (o : PhiOperand) :
    o ∈ p.operands ↔ ∃ a ta, Function.update T v (some t) a = some ta ∧ u ∈ g.graph.succs a ∧
      o = ⟨called undefined ta.leaving x, g.nameOf a⟩ := by
  obtain ⟨q, hq, hops⟩ := hvisit.operands hp
  have hfeed : o ∈ p.operands ↔ o ∈ q.operands ∨
      (u ∈ g.graph.succs v ∧ o = ⟨called undefined t.leaving x, b.name⟩) := by
    rw [hops]
    split
    · next hu =>
      rw [Phi.setOperand_of_not_mem (h.not_fed hg hnew hb hq), List.mem_append, List.mem_singleton]
      simp [hu]
    · next hu => simp [hu]
  rw [hfeed, h.operands u x q hq o]
  constructor
  · rintro (⟨a, ta, ha, hs, rfl⟩ | ⟨hs, rfl⟩)
    · exact ⟨a, ta, update_of_visited hnew t ha, hs, rfl⟩
    · exact ⟨v, t, Function.update_self _ _ _, hs, by rw [FlowGraph.nameOf_eq hb]⟩
  · rintro ⟨a, ta, ha, hs, rfl⟩
    rcases update_eq_some ha with ⟨rfl, rfl⟩ | ⟨-, ha⟩
    · exact .inr ⟨hs, by rw [FlowGraph.nameOf_eq hb]⟩
    · exact .inl ⟨a, ta, ha, hs, rfl⟩

omit hg hb

/-- Versions issued by a visit have numbers that the earlier ones do not reach. -/
theorem Walked.not_assigns_visit (hu : T u = some t') (hd : s'.Assigns u d) :
    ¬ s'.Assigns v d := by
  intro hd'
  obtain ⟨x, n, rfl, hlt⟩ :=
    h.issued u t' d hu (hvisit.assigns_elsewhere (ne_of_unvisited hnew hu) hd)
  obtain ⟨y, m, heq, hle, -⟩ := hvisit.assigns_here hd'
  obtain ⟨rfl, rfl⟩ := FlowGraph.numbered_inj.1 heq
  omega

theorem Walked.disjoint_visit {tu tw : NodeNames} (hu : Function.update T v (some t) u = some tu)
    (hw : Function.update T v (some t) w = some tw) (hdu : s'.Assigns u d)
    (hdw : s'.Assigns w d) : u = w := by
  rcases update_eq_some hu with ⟨rfl, rfl⟩ | ⟨huv, hu'⟩
  · rcases update_eq_some hw with ⟨rfl, rfl⟩ | ⟨hwv, hw'⟩
    · rfl
    · exact absurd hdu (h.not_assigns_visit hnew hvisit hw' hdw)
  · rcases update_eq_some hw with ⟨rfl, rfl⟩ | ⟨hwv, hw'⟩
    · exact absurd hdw (h.not_assigns_visit hnew hvisit hu' hdu)
    · exact h.disjoint u w tu tw d hu' hw' (hvisit.assigns_elsewhere huv hdu)
        (hvisit.assigns_elsewhere hwv hdw)

end Visit

theorem Walked.visit (h : Walked g undefined params start T s) (hg : g.WellFormed)
    (hv : g.graph.Reachable 0 v) (hnew : T v = none) (hb : g.blocks[v]? = some b)
    (ht : (v = 0 ∧ t.entering = params) ∨
      ∃ u tu, g.graph.ImmediateDominator 0 u v ∧ T u = some tu ∧ t.entering = tu.leaving)
    (hvisit : Visit g undefined v b s t s') :
    Walked g undefined params start (Function.update T v (some t)) s' := by
  constructor
  case phis_size => exact hvisit.phis_size.trans h.phis_size
  case renamed_size => exact hvisit.renamed_size.trans h.renamed_size
  case placed =>
    intro u x
    rw [hvisit.phis, Option.isSome_map]
    exact h.placed u x
  case reachable =>
    intro u tu hu
    rcases update_eq_some hu with ⟨rfl, -⟩ | ⟨-, hu⟩
    · exact hv
    · exact h.reachable u tu hu
  case entering =>
    intro u tu hu
    have hentering : (u = 0 ∧ tu.entering = params) ∨ ∃ a ta,
        g.graph.ImmediateDominator 0 a u ∧ T a = some ta ∧ tu.entering = ta.leaving := by
      rcases update_eq_some hu with ⟨rfl, rfl⟩ | ⟨-, hu⟩
      · exact ht
      · exact h.entering u tu hu
    refine hentering.imp_right fun hstrict => ?_
    obtain ⟨a, ta, hi, ha, he⟩ := hstrict
    exact ⟨a, ta, hi, update_of_visited hnew t ha, he⟩
  case phi =>
    intro u tu x p hu hp
    rcases update_eq_some hu with ⟨rfl, rfl⟩ | ⟨huv, hu⟩
    · obtain ⟨hdest, hname, -, -⟩ := hvisit.phi?_here hp
      exact ⟨_, hdest, hname⟩
    · obtain ⟨q, hq, hdest, -⟩ := hvisit.phi?_elsewhere huv hp
      rw [hdest]
      exact h.phi u tu x q hu hq
  case no_phi =>
    intro u tu x hu hp
    rw [hvisit.phis, Option.map_eq_none_iff] at hp
    rcases update_eq_some hu with ⟨rfl, rfl⟩ | ⟨-, hu⟩
    · exact hvisit.no_phi x hp
    · exact h.no_phi u tu x hu hp
  case operands_nodup => exact fun u x p hp => h.nodup_operands_visit hg hnew hb hvisit hp
  case operands => exact fun u x p hp => h.mem_operands_visit hg hnew hb hvisit hp
  case code =>
    intro u tu hu
    rcases update_eq_some hu with ⟨rfl, rfl⟩ | ⟨huv, hu⟩
    · obtain ⟨instrs, hcode⟩ := hvisit.code_here
      exact ⟨b, instrs, hb, hcode⟩
    · obtain ⟨c, instrs, hc, hi, hrenamed, hnodup, hapart⟩ := h.code u tu hu
      refine ⟨c, instrs, hc, (hvisit.code_elsewhere u huv).trans hi, hrenamed, hnodup,
        fun x p hp => ?_⟩
      obtain ⟨q, hq, -, htarget⟩ := hvisit.phi?_elsewhere huv hp
      exact htarget ▸ hapart x q hq
  case issued =>
    intro u tu d hu hd
    rcases update_eq_some hu with ⟨rfl, rfl⟩ | ⟨huv, hu⟩
    · obtain ⟨x, n, rfl, -, hlt⟩ := hvisit.assigns_here hd
      exact ⟨x, n, rfl, hlt⟩
    · obtain ⟨x, n, rfl, hlt⟩ := h.issued u tu d hu (hvisit.assigns_elsewhere huv hd)
      exact ⟨x, n, rfl, hlt.trans_le (hvisit.le x)⟩
  case disjoint =>
    exact fun u w tu tw d hu hw hdu hdw => h.disjoint_visit hnew hvisit hu hw hdu hdw

def Extends (T T' : Nat → Option NodeNames) (P : Nat → Prop) : Prop :=
  (∀ u t, T u = some t → T' u = some t) ∧ ∀ u, T' u ≠ none ↔ T u ≠ none ∨ P u

theorem Extends.keeps {P : Nat → Prop} (h : Extends T T' P) (hu : T u = some t) :
    T' u = some t := h.1 u t hu

theorem Extends.eq_none {P : Nat → Prop} (h : Extends T T' P) (hu : T u = none) (hn : ¬ P u) :
    T' u = none := by
  by_contra hne
  exact ((h.2 u).1 hne).elim (fun h => h hu) hn

theorem Extends.update (T : Nat → Option NodeNames) (hv : T v = none) (t : NodeNames) :
    Extends T (Function.update T v (some t)) (· = v) := by
  refine ⟨fun u tu hu => ?_, fun u => ?_⟩
  · exact update_of_visited hv t hu
  · by_cases hu : u = v
    · subst hu
      simp
    · simp [hu]

theorem Extends.trans {T'' : Nat → Option NodeNames} {P Q : Nat → Prop} (h : Extends T T' P)
    (h' : Extends T' T'' Q) : Extends T T'' fun u => P u ∨ Q u := by
  refine ⟨fun u t hu => h'.1 u t (h.1 u t hu), fun u => ?_⟩
  rw [h'.2, h.2, or_assoc]

def Below (g : FlowGraph) (v u : Nat) : Prop := g.graph.Dominates 0 v u ∧ g.graph.Reachable 0 u

theorem Below.of_child {c : Nat} (hi : g.graph.ImmediateDominator 0 v c) (h : Below g c u) :
    Below g v u ∧ u ≠ v := by
  refine ⟨⟨hi.1.1.trans h.1, h.2⟩, ?_⟩
  rintro rfl
  exact hi.1.2 (hi.1.1.antisymm h.1 (h.1.reachable h.2))

theorem below_iff_children (hg : g.WellFormed) (hv : g.graph.Reachable 0 v) :
    Below g v u ↔ u = v ∨ ∃ c ∈ (Dominance.ofGraph g.graph 0).children v, Below g c u := by
  have hsym := hg.graph.symmetric
  constructor
  · intro hu
    by_cases hne : u = v
    · exact .inl hne
    · obtain ⟨c, hi, hcu⟩ := Dominance.exists_child hsym hu.2 hu.1 hne
      have hc : g.graph.Reachable 0 c := hcu.reachable hu.2
      have hc0 : c ≠ 0 := by
        rintro rfl
        exact hi.1.2 (hi.1.1.antisymm (.of_entry v) hc)
      exact .inr ⟨c, (Dominance.mem_children hsym).2 ⟨hc, hc0, hi⟩, hcu, hu.2⟩
  · rintro (rfl | ⟨c, hc, hcu⟩)
    · exact ⟨.refl u, hv⟩
    · exact (hcu.of_child ((Dominance.mem_children hsym).1 hc).2.2).1

variable (g undefined) in
/-- A node that can be visited next: it is called so by the node above it, and nothing below it has
been visited. -/
structure Ready (params : Env) (T : Nat → Option NodeNames) (v : Nat) (env : Env) : Prop where
  reachable : g.graph.Reachable 0 v
  unvisited : ∀ u, Below g v u → T u = none
  entering : (v = 0 ∧ env = params) ∨
    ∃ u t, g.graph.ImmediateDominator 0 u v ∧ T u = some t ∧ env = t.leaving

theorem Ready.self (h : Ready g params T v env) : T v = none :=
  h.unvisited v ⟨.refl v, h.reachable⟩

theorem exists_block (hv : g.graph.Reachable 0 v) :
    ∃ node b, g.node? v = some node ∧ node.block = b ∧ g.blocks[v]? = some b := by
  have hlt : v < g.blocks.length := FlowGraph.size_eq_length g ▸ hv.lt
  obtain ⟨node, hnode, hb⟩ := Option.map_eq_some_iff.1
    ((FlowGraph.map_block_node? g v).trans (List.getElem?_eq_getElem hlt))
  exact ⟨node, _, hnode, hb, List.getElem?_eq_getElem hlt⟩

theorem Walked.children (fuel : Nat) {v : Nat} {children : List Nat}
    (ih : ∀ c s T, Walked g undefined params start T s → Ready g params T c env →
      g.graph.ImmediateDominator 0 v c → ∃ T',
        Walked g undefined params start T' (rename g (.ofGraph g.graph 0) undefined fuel c env s) ∧
          Extends T T' (Below g c))
    (h : Walked g undefined params start T s) (hv : T v = some t) (henv : env = t.leaving)
    (hn : children.Nodup) (hc : ∀ c ∈ children, g.graph.Reachable 0 c ∧
      g.graph.ImmediateDominator 0 v c ∧ ∀ u, Below g c u → T u = none) :
    ∃ T', Walked g undefined params start T'
        (children.foldl (fun s c => rename g (.ofGraph g.graph 0) undefined fuel c env s) s) ∧
      Extends T T' fun u => ∃ c ∈ children, Below g c u := by
  induction children generalizing s T with
  | nil => exact ⟨T, h, fun _ _ hu => hu, by simp⟩
  | cons c children ihc =>
    obtain ⟨hcn, hn⟩ := List.nodup_cons.1 hn
    obtain ⟨hreach, hi, hnew⟩ := hc c List.mem_cons_self
    obtain ⟨T1, h1, he1⟩ := ih c s T h ⟨hreach, hnew, .inr ⟨v, t, hi, hv, henv⟩⟩ hi
    -- The subtrees are apart, so the other children still wait behind the first one.
    have hrest : ∀ e ∈ children, g.graph.Reachable 0 e ∧ g.graph.ImmediateDominator 0 v e ∧
        ∀ u, Below g e u → T1 u = none := fun e he => by
      obtain ⟨hereach, hei, henew⟩ := hc e (List.mem_cons_of_mem _ he)
      refine ⟨hereach, hei, fun u hu => he1.eq_none (henew u hu) fun hcu => hcn ?_⟩
      rwa [hi.eq_of_dominates hei hcu.1 hu.1 hu.2]
    obtain ⟨T2, h2, he2⟩ := ihc h1 (he1.keeps hv) hn hrest
    refine ⟨T2, h2, (he1.trans he2).1, fun u => ?_⟩
    rw [(he1.trans he2).2]
    simp

/-- The walk from a node on visits the node and what is below it. -/
theorem Walked.rename (hg : g.WellFormed) (fuel : Nat) (h : Walked g undefined params start T s)
    (hv : Ready g params T v env) (hf : g.size < fuel + g.graph.dominatorCount 0 v) :
    ∃ T', Walked g undefined params start T'
        (rename g (.ofGraph g.graph 0) undefined fuel v env s) ∧
      Extends T T' (Below g v) := by
  have hsym := hg.graph.symmetric
  -- By induction on the fuel: what it loses on the way down the node gains in depth.
  induction fuel generalizing v env s T with
  | zero =>
    have hle := Dominance.dominatorCount_le hsym 0 v
    have hsize : g.graph.size = g.size := rfl
    omega
  | succ fuel ih =>
    obtain ⟨node, b, hnode, rfl, hb⟩ := exists_block hv.reachable
    obtain ⟨t, hent, hleave, hvisit⟩ := visit_spec undefined hg h.phis_size
      h.renamed_size hv.reachable.lt node.block env
    have h1 := h.visit hg hv.reachable hv.self hb (hent ▸ hv.entering) hvisit
    have he1 := Extends.update T hv.self t
    rw [rename_succ hnode]
    have hperm := List.mergeSort_perm ((Dominance.ofGraph g.graph 0).children v)
      fun a b => g.nameOf a ≤ g.nameOf b
    obtain ⟨T', h', he'⟩ := Walked.children fuel
      (fun c s T hs hc hi => by
        have hlt := Dominance.dominatorCount_lt hsym hi.1.1 hi.1.2 hc.reachable
        exact ih hs hc (by omega)) h1
      (Function.update_self _ _ _) hleave.symm (hperm.nodup_iff.2 Dominance.children_nodup)
      (fun c hc => by
        obtain ⟨hc, -, hi⟩ := (Dominance.mem_children hsym).1 (hperm.mem_iff.1 hc)
        refine ⟨hc, hi, fun u hu => ?_⟩
        obtain ⟨hbelow, huv⟩ := hu.of_child hi
        rw [Function.update_of_ne huv]
        exact hv.unvisited u hbelow)
    refine ⟨T', h', (he1.trans he').1, fun u => ?_⟩
    rw [(he1.trans he').2, below_iff_children hg hv.reachable]
    simp only [hperm.mem_iff]

end FlowOpt.Ssa
