import FlowOpt.Proofs.Except
import FlowOpt.Proofs.Ssa.Strict

/-!
# What is read before it is assigned

A variable that has no name where a node is entered was assigned on none of the paths there: along
an edge it keeps having no name, as nodes with a phi for it give it one, and a node that assigns it
is left with a name. So where every path assigns what is read, instructions of the code read names
of assignments, and only phis read the name for what is undefined, from predecessors where the
variable is not read any more.
-/

namespace FlowOpt

/-- On every path to an instruction each variable that it reads was assigned, if it is no
parameter. -/
def FlowGraph.AssignedBeforeUse (g : FlowGraph) (params : List String) : Prop :=
  ∀ v b p, g.blocks[v]? = some b → g.graph.Path 0 v p →
    ∀ (k : Nat) (i : Instruction), b.instrs[k]? = some i → ∀ x ∈ i.args,
      x ∈ params ∨ x ∈ (b.instrs.take k).filterMap (·.dest) ∨
        ∃ u ∈ p.dropLast, Ssa.Defines g u x

namespace Ssa

open FlowOpt.Digraph

variable {g : FlowGraph} {params : List String} {undefined : String} {v : Nat} {d x : String}
  {p : List Nat} {names : Nat → NodeNames} {s : Walk} {env env' : Env} {i' : Instruction}
  {instrs instrs' : List Instruction}

/-- Sets of variables show that what is read was assigned: none at the entry, and along an edge only
what the block that is left adds. -/
theorem assignedBeforeUse_of_sets (sets : Nat → List String) (hentry : sets 0 = [])
    (hedge : ∀ u v, v ∈ g.graph.succs u → ∀ x ∈ sets v, x ∈ sets u ∨ Defines g u x)
    (huse : ∀ e ∈ g.blocks.zipIdx, ∀ j ∈ e.1.instrs.zipIdx, ∀ x ∈ j.1.args,
      x ∈ params ∨ x ∈ (e.1.instrs.take j.2).filterMap (·.dest) ∨ x ∈ sets e.2) :
    g.AssignedBeforeUse params := by
  have hpath : ∀ v p, g.graph.Path 0 v p → ∀ x ∈ sets v, ∃ u ∈ p.dropLast, Defines g u x := by
    intro v p hp
    induction hp with
    | start _ => simp [hentry]
    | @step u w q hq hw _ ih =>
      intro x hx
      rw [List.dropLast_concat, ← hq.dropLast_concat]
      rcases hedge u w hw x hx with hx | hx
      · obtain ⟨n, hn, hdef⟩ := ih x hx
        exact ⟨n, List.mem_append_left _ hn, hdef⟩
      · exact ⟨u, by simp, hx⟩
  intro v b p hb hp k i hi x hx
  exact (huse (b, v) (List.mem_zipIdx_iff_getElem?.2 hb) (i, k)
    (List.mem_zipIdx_iff_getElem?.2 hi) x hx).imp_right (Or.imp_right (hpath v p hp x))

theorem Renamed.get?_eq_none (h : Renamed undefined env instrs instrs' env')
    (hx : env'.get? x = none) : env.get? x = none ∧ x ∉ instrs.filterMap (·.dest) := by
  induction h with
  | nil => exact ⟨hx, List.not_mem_nil⟩
  | effect hi _ ih =>
    simp only [List.filterMap_cons, hi]
    exact ih hx
  | @assign _ _ _ _ _ y n hi _ ih =>
    obtain ⟨hget, hnot⟩ := ih hx
    rw [NameMap.get?_insert] at hget
    split at hget
    · cases hget
    · next hxy =>
      simp only [List.filterMap_cons, hi, List.mem_cons, not_or]
      exact ⟨hget, hxy, hnot⟩

theorem Renamed.exists_isVersion (h : Renamed undefined env instrs instrs' env')
    (hd : d ∈ instrs'.filterMap (·.dest)) : ∃ x, IsVersion x d := by
  induction h with
  | nil => cases hd
  | effect hi _ ih =>
    simp only [List.filterMap_cons, hi] at hd
    exact ih hd
  | @assign _ _ _ _ _ y n _ _ ih =>
    simp only [List.filterMap_cons, List.mem_cons] at hd
    rcases hd with rfl | hd
    · exact ⟨y, n, rfl⟩
    · exact ih hd

theorem exists_unnamed_of_called (henv : ∀ x, env.get? x ≠ some undefined) {args : List String}
    (h : undefined ∈ args.map (called undefined env)) : ∃ x ∈ args, env.get? x = none := by
  obtain ⟨x, hx, heq⟩ := List.mem_map.1 h
  refine ⟨x, hx, ?_⟩
  cases hget : env.get? x with
  | none => rfl
  | some d =>
    rw [called, hget] at heq
    exact absurd (heq ▸ hget) (henv x)

/-- An instruction that reads the name for what is undefined read a variable that had no name before
the code and is not assigned in front of the instruction. -/
theorem Renamed.exists_unnamed (h : Renamed undefined env instrs instrs' env')
    (henv : ∀ x, env.get? x ≠ some undefined) (hnew : ∀ x n, FlowGraph.numbered x n ≠ undefined)
    {k : Nat} (hk : instrs'[k]? = some i') (hi : undefined ∈ i'.args) :
    ∃ i x, instrs[k]? = some i ∧ x ∈ i.args ∧ env.get? x = none ∧
      x ∉ (instrs.take k).filterMap (·.dest) := by
  obtain ⟨i, env₁, hget, heq, hren⟩ := h.take hk
  rw [heq] at hi
  have henv₁ : ∀ x, env₁.get? x ≠ some undefined := by
    intro x hx
    rcases hren.origin hx with hx | ⟨⟨n, hn⟩, -⟩
    · exact henv x hx
    · exact hnew x n hn.symm
  obtain ⟨x, hx, hnone⟩ := exists_unnamed_of_called henv₁ hi
  obtain ⟨hbefore, hnot⟩ := hren.get?_eq_none hnone
  exact ⟨i, x, hget, hx, hbefore, hnot⟩

section Naming

variable (h : Naming g params undefined names s) (hg : g.WellFormed)
include h

theorem Naming.phi?_eq_none (hv : g.graph.Reachable 0 v) (hx : (names v).inside.get? x = none) :
    s.phi? v x = none := by
  cases hp : s.phi? v x with
  | none => rfl
  | some p =>
    obtain ⟨n, -, hin⟩ := h.phi v x p hv hp
    cases hx.symm.trans hin

include hg

/-- A variable without a name behind the phis of a node is assigned on no path to it. -/
theorem Naming.unassigned_of_unnamed (hp : g.graph.Path 0 v p)
    (hx : (names v).inside.get? x = none) :
    x ∉ params ∧ ∀ u ∈ p.dropLast, ¬ Defines g u x := by
  induction hp with
  | start hlt =>
    have hentering := h.no_phi 0 x (.of_lt hlt) (h.phi?_eq_none (.of_lt hlt) hx)
    rw [hx, h.entry] at hentering
    refine ⟨fun hparam => ?_, by simp⟩
    cases hentering.trans (paramEnv_get? hparam)
  | @step u w q hq hw hlt ih =>
    have hu : g.graph.Reachable 0 u := ⟨q, hq⟩
    have hwr := hu.step hw hlt
    have hphi := h.phi?_eq_none hwr hx
    have hleaving : (names u).leaving.get? x = none := by
      rw [← h.entering_eq hg hu hw hphi, ← h.no_phi w x hwr hphi, hx]
    obtain ⟨b, hb⟩ := exists_getElem?_blocks hu
    obtain ⟨instrs, -, hren, -⟩ := h.code u b hu hb
    obtain ⟨hinside, hnot⟩ := hren.get?_eq_none hleaving
    obtain ⟨hparam, hfree⟩ := ih hinside
    refine ⟨hparam, fun n hn hdef => ?_⟩
    rw [List.dropLast_concat, ← hq.dropLast_concat] at hn
    rcases List.mem_append.1 hn with hn | hn
    · exact hfree n hn hdef
    · obtain rfl := List.mem_singleton.1 hn
      obtain ⟨b', hb', hd⟩ := hdef
      exact hnot (Option.some.inj (hb.symm.trans hb') ▸ hd)

end Naming

end Ssa

namespace SsaForm

open FlowOpt.Ssa FlowOpt.Digraph

theorem numbered_ne_defaultUndefined (x : String) (n : Nat) :
    FlowGraph.numbered x n ≠ defaultUndefined := by
  intro h
  have hdot : '.' ∈ (FlowGraph.numbered x n).toList := by
    simp [FlowGraph.numbered, String.toList_append]
  rw [h] at hdot
  exact absurd hdot (by decide)

/-- At the reachable nodes the code of the graph never reads the name for what is undefined, and
whatever reads it is a phi that was put in. Nothing assigns it. -/
structure UndefinedInPhis (g : FlowGraph) (params : List String) (undefined : String)
    (form : SsaForm) : Prop where
  original : ∀ (v : Nat) (b : Block), g.graph.Reachable 0 v → g.blocks[v]? = some b →
    ∃ (b' : Block) (kept : List Instruction), form.blocks[v]? = some b' ∧ b'.name = b.name ∧
      WithPhis b.name ((form.insertedPhis b.name).map (·.toInstruction)) kept b'.instrs ∧
      List.Forall₂ (VersionOf params undefined) kept b.instrs ∧ ∀ i ∈ kept, undefined ∉ i.args
  reads : ∀ (v : Nat) (b' : Block), g.graph.Reachable 0 v → form.blocks[v]? = some b' →
    ∀ i ∈ b'.instrs, undefined ∈ i.args → ∃ p ∈ form.insertedPhis b'.name, i = p.toInstruction
  assigns : ∀ (v : Nat) (b' : Block), g.graph.Reachable 0 v → form.blocks[v]? = some b' →
    undefined ∉ b'.destinations

variable {g : FlowGraph} {params : List String} {undefined : String} {form : SsaForm} {v : Nat}
  {b : Block} {names : Nat → NodeNames} {s : Walk} {instrs : List Instruction}

section Naming

variable (h : Naming g params undefined names s) (hg : g.WellFormed)
  (hnew : ∀ x n, FlowGraph.numbered x n ≠ undefined)
include h hg hnew

/-- The code of a node reads the name for what is undefined nowhere, if paths to it assign what it
reads. -/
theorem not_mem_args_of_assigned (hparam : undefined ∉ params)
    (hassigned : g.AssignedBeforeUse params) (hv : g.graph.Reachable 0 v)
    (hb : g.blocks[v]? = some b)
    (hren : Renamed undefined (names v).inside b.instrs instrs (names v).leaving) :
    ∀ i ∈ instrs, undefined ∉ i.args := by
  have henv : ∀ x, (names v).inside.get? x ≠ some undefined := by
    intro x hx
    rcases h.inside_versions hg hv x undefined hx with ⟨rfl, hmem⟩ | ⟨n, hn⟩
    · exact hparam hmem
    · exact hnew x n hn.symm
  intro i' hi' hund
  obtain ⟨k, hk⟩ := List.mem_iff_getElem?.1 hi'
  obtain ⟨i, x, hi, hx, hget, hnot⟩ := hren.exists_unnamed henv hnew hk hund
  obtain ⟨p, hp⟩ := hv
  obtain ⟨hxparam, hfree⟩ := h.unassigned_of_unnamed hg hp hget
  rcases hassigned v b p hb hp k i hi x hx with hx | hx | ⟨u, hu, hdef⟩
  · exact hxparam hx
  · exact hnot hx
  · exact hfree u hu hdef

omit hg in
theorem not_assigns_undefined (hv : g.graph.Reachable 0 v) : ¬ s.Assigns v undefined := by
  rintro (⟨x, p, hp, htarget⟩ | ⟨instrs, hcode, hd⟩)
  · obtain ⟨n, hdest, -⟩ := h.phi v x p hv hp
    rw [Phi.target, hdest] at htarget
    exact hnew x n htarget
  · obtain ⟨b, hb⟩ := exists_getElem?_blocks hv
    obtain ⟨instrs', hcode', hren, -⟩ := h.code v b hv hb
    obtain rfl := Option.some.inj (hcode.symm.trans hcode')
    obtain ⟨x, n, hn⟩ := hren.exists_isVersion hd
    exact hnew x n hn.symm

end Naming

theorem undefinedInPhis_ofGraph (hg : g.WellFormed) (h : ofGraph g params undefined = .ok form)
    (hparam : undefined ∉ params) (hnew : ∀ x n, FlowGraph.numbered x n ≠ undefined)
    (hassigned : g.AssignedBeforeUse params) : form.UndefinedInPhis g params undefined := by
  obtain ⟨names, s, hnaming, rfl⟩ := exists_naming hg h
  have horiginal : ∀ (v : Nat) (b : Block), g.graph.Reachable 0 v → g.blocks[v]? = some b →
      ∃ (b' : Block) (kept : List Instruction), (ofWalk g s).blocks[v]? = some b' ∧
        b'.name = b.name ∧ WithPhis b.name
          (((ofWalk g s).insertedPhis b.name).map (·.toInstruction)) kept b'.instrs ∧
        List.Forall₂ (VersionOf params undefined) kept b.instrs ∧
        ∀ i ∈ kept, undefined ∉ i.args := by
    intro v b hv hb
    obtain ⟨b', hb', hname, hlay⟩ := exists_block_ofWalk hg s hb
    obtain ⟨instrs, hcode, hren, -⟩ := hnaming.code v b hv hb
    rw [hcode, Option.getD_some] at hlay
    exact ⟨b', instrs, hb', hname, hlay, hren.versions (hnaming.inside_versions hg hv),
      not_mem_args_of_assigned hnaming hg hnew hparam hassigned hv hb hren⟩
  refine ⟨horiginal, fun v b' hv hb' i hi hund => ?_, fun v b' hv hb' hd => ?_⟩
  · obtain ⟨b, hb⟩ := exists_getElem?_blocks hv
    obtain ⟨b'', kept, hb'', hname, hlay, -, hnone⟩ := horiginal v b hv hb
    obtain rfl := Option.some.inj (hb'.symm.trans hb'')
    by_contra hnot
    have hi' : i ∉ ((ofWalk g s).insertedPhis b.name).map (·.toInstruction) := fun hmem => by
      obtain ⟨p, hp, heq⟩ := List.mem_map.1 hmem
      exact hnot ⟨p, hname ▸ hp, heq.symm⟩
    obtain ⟨before, after, hsplit⟩ := List.append_of_mem hi
    rcases hlay.exists_kept hsplit hi' with rfl | ⟨l, r, rfl, -⟩
    · simp [Instruction.atLabel] at hund
    · exact hnone i (by simp) hund
  · exact not_assigns_undefined hnaming hnew hv ((hnaming.mem_destinations hg rfl hv hb').1 hd)

end SsaForm

namespace Function

open FlowOpt.Ssa

/-- If on every path what is read is a parameter or was assigned, and no parameter is called like
what is undefined, only the inserted phis of a form read that. -/
theorem toSsa_undefined_in_phis (f : Function) (form : SsaForm) (h : f.toSsa = .ok form)
    (hparam : SsaForm.defaultUndefined ∉ f.paramNames) :
    ∃ g, f.explicitGraph FlowGraph.defaultEntryPrefix = .ok g ∧
      (g.AssignedBeforeUse f.paramNames →
        form.UndefinedInPhis g f.paramNames SsaForm.defaultUndefined) := by
  obtain ⟨split, g, hs, hg, hform⟩ := toSsa_ok h
  refine ⟨g, ?_, SsaForm.undefinedInPhis_ofGraph (.of_ofBlocks hg) hform hparam
    SsaForm.numbered_ne_defaultUndefined⟩
  rw [explicitGraph, hs]
  exact hg

def doubling : Function where
  name := "f"
  params := [⟨"c", .named "bool"⟩]
  instrs := [.branch "c" "left" "right", .atLabel "left", .constant "x" (.named "int") (.int 1),
    .jump "join", .atLabel "right", .constant "t" (.named "int") (.int 2),
    .compute "add" "x" (.named "int") ["t", "t"], .jump "join", .atLabel "join",
    .effect "print" ["x"], .ret []]

def doublingBlocks : List Block :=
  [⟨"b0", [.branch "c" "left" "right"]⟩,
    ⟨"left", [.atLabel "left", .constant "x" (.named "int") (.int 1), .jump "join"]⟩,
    ⟨"right", [.atLabel "right", .constant "t" (.named "int") (.int 2),
      .compute "add" "x" (.named "int") ["t", "t"], .jump "join"]⟩,
    ⟨"join", [.atLabel "join", .effect "print" ["x"], .ret []]⟩]

theorem doubling_undefined_in_phis : ∃ form g, doubling.toSsa = .ok form ∧
    doubling.explicitGraph FlowGraph.defaultEntryPrefix = .ok g ∧
    SsaForm.defaultUndefined ∉ doubling.paramNames ∧
    g.AssignedBeforeUse doubling.paramNames ∧
    form.UndefinedInPhis g doubling.paramNames SsaForm.defaultUndefined ∧
    form.insertedPhis "join" =
      [⟨"t", some "t.0", some (.named "int"), [⟨"__undefined", "left"⟩, ⟨"t.1", "right"⟩]⟩,
        ⟨"x", some "x.0", some (.named "int"), [⟨"x.1", "left"⟩, ⟨"x.2", "right"⟩]⟩] := by
  have hphis : doubling.toSsa.toOption.map (·.insertedPhis "join") = some
      [⟨"t", some "t.0", some (.named "int"), [⟨"__undefined", "left"⟩, ⟨"t.1", "right"⟩]⟩,
        ⟨"x", some "x.0", some (.named "int"), [⟨"x.1", "left"⟩, ⟨"x.2", "right"⟩]⟩] := by
    cbv
  have hgraph : (doubling.explicitGraph FlowGraph.defaultEntryPrefix).toOption.any (fun g =>
      g.blocks = doublingBlocks && g.graph.outgoing = #[[1, 2], [3], [3], []]) = true := by
    decide +kernel
  obtain ⟨form, hform, hphis⟩ := exists_of_toOption_map hphis
  obtain ⟨g, hg, hshape⟩ := exists_of_toOption_any hgraph
  simp only [Bool.and_eq_true, decide_eq_true_eq] at hshape
  obtain ⟨hblocks, houtgoing⟩ := hshape
  have hfree : SsaForm.defaultUndefined ∉ doubling.paramNames := by decide
  have hassigned : g.AssignedBeforeUse doubling.paramNames := by
    refine assignedBeforeUse_of_sets (fun v => if v = 3 then ["x"] else []) rfl
      (fun u v hv x hx => .inr ?_) (by rw [hblocks]; decide)
    obtain ⟨rfl, rfl⟩ : v = 3 ∧ x = "x" := by simpa using hx
    unfold Defines
    rw [hblocks]
    rcases u with _ | _ | _ | u
    · simp [Digraph.succs, houtgoing] at hv
    · exact ⟨doublingBlocks[1], rfl, by decide⟩
    · exact ⟨doublingBlocks[2], rfl, by decide⟩
    · rcases u with _ | u <;> simp [Digraph.succs, houtgoing] at hv
  obtain ⟨g', hg', hundef⟩ := toSsa_undefined_in_phis doubling form hform hfree
  obtain rfl := Except.ok.inj (hg.symm.trans hg')
  exact ⟨form, g, hform, hg, hfree, hassigned, hundef hassigned, hphis⟩

end Function

end FlowOpt
