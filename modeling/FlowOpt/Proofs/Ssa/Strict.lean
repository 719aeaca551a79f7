import FlowOpt.Proofs.Except
import FlowOpt.Proofs.Ssa.Form
import FlowOpt.Proofs.Ssa.Layout

/-!
# Single assignment, and definitions that dominate their uses

In a form every destination is assigned once, and what an instruction reads was assigned before it,
in its own block or in one that strictly dominates it. A phi reads, for each reachable predecessor,
what was assigned on the way to the end of that one. Apart from the inserted phis and labels the
code is the original one with versions for variables.

A label record may have arguments of its own. They are named like those of any other instruction,
after the phis of the block have their versions, but the phis stand behind the label.
-/

namespace FlowOpt

namespace Ssa

open FlowOpt.Digraph

def IsVersion (x d : String) : Prop := ∃ n, d = FlowGraph.numbered x n

/-- A name that a variable has: the variable itself if it is a parameter, or a version of it that
is assigned at a node of which `P` holds. -/
def Origin (params : List String) (s : Walk) (P : Nat → Prop) (x d : String) : Prop :=
  (d = x ∧ x ∈ params) ∨ (IsVersion x d ∧ ∃ u, P u ∧ s.Assigns u d)

variable {g : FlowGraph} {params : List String} {undefined : String} {form : SsaForm}
  {u v w : Nat} {x a d : String} {b b' : Block} {names : Nat → NodeNames} {s : Walk}
  {env env' : Env} {i i' : Instruction} {instrs instrs' : List Instruction}

theorem Origin.mono {P Q : Nat → Prop} (h : Origin params s P x d) (hpq : ∀ u, P u → Q u) :
    Origin params s Q x d :=
  h.imp_right fun ⟨hv, u, hu, hd⟩ => ⟨hv, u, hpq u hu, hd⟩

theorem eq_of_paramEnv (h : (paramEnv params).get? x = some d) : d = x ∧ x ∈ params := by
  obtain ⟨y, hy, heq⟩ := List.mem_map.1 (NameMap.mem_of_get?_ofList h)
  obtain ⟨rfl, rfl⟩ := Prod.mk.inj heq
  exact ⟨rfl, hy⟩

theorem paramEnv_get? (hx : x ∈ params) : (paramEnv params).get? x = some x := by
  have hcontains : (paramEnv params).contains x = true := by
    rw [paramEnv, NameMap.ofList, NameMap.contains_insertAll]
    right
    simpa using hx
  obtain ⟨d, hd⟩ := NameMap.contains_iff.1 hcontains
  rw [hd, (eq_of_paramEnv hd).1]

/-- At the end of the code a variable has the name it had before, or one that the code assigns. -/
theorem Renamed.origin (h : Renamed undefined env instrs instrs' env')
    (hx : env'.get? x = some d) :
    env.get? x = some d ∨ (IsVersion x d ∧ d ∈ instrs'.filterMap (·.dest)) := by
  induction h with
  | nil => exact .inl hx
  | effect hi _ ih =>
    simp only [List.filterMap_cons, hi]
    exact ih hx
  | @assign _ _ _ _ _ y n hi _ ih =>
    simp only [List.filterMap_cons, List.mem_cons]
    rcases ih hx with h | ⟨hv, hd⟩
    · rw [NameMap.get?_insert] at h
      split at h
      · next hxy =>
        obtain rfl := Option.some.inj h
        exact .inr ⟨⟨n, hxy ▸ rfl⟩, .inl rfl⟩
      · exact .inl h
    · exact .inr ⟨hv, .inr hd⟩

section Naming

variable (h : Naming g params undefined names s) (hg : g.WellFormed)
include h hg

omit hg in
theorem Naming.inside_origin (hv : g.graph.Reachable 0 v) (hx : (names v).inside.get? x = some d) :
    (names v).entering.get? x = some d ∨
      (IsVersion x d ∧ ∃ p, s.phi? v x = some p ∧ p.dest = some d) := by
  cases hp : s.phi? v x with
  | none => exact .inl ((h.no_phi v x hv hp).symm.trans hx)
  | some p =>
    obtain ⟨n, hdest, hin⟩ := h.phi v x p hv hp
    obtain rfl := Option.some.inj (hx.symm.trans hin)
    exact .inr ⟨⟨n, rfl⟩, p, rfl, hdest⟩

omit h hg in
theorem exists_getElem?_blocks (hv : g.graph.Reachable 0 v) : ∃ b, g.blocks[v]? = some b := by
  have hlt : v < g.blocks.length := FlowGraph.size_eq_length g ▸ hv.lt
  exact ⟨_, List.getElem?_eq_getElem hlt⟩

/-- A block of the form comes from a block of the graph: its renamed code, laid out with the phis
placed there. -/
theorem Naming.exists_source (hv : g.graph.Reachable 0 v)
    (hb : (SsaForm.ofWalk g s).blocks[v]? = some b') :
    ∃ b instrs, g.blocks[v]? = some b ∧ b'.name = b.name ∧
      (SsaForm.ofWalk g s).insertedPhis b'.name = s.phisOf v ∧
      WithPhis b.name ((s.phisOf v).map (·.toInstruction)) instrs b'.instrs ∧
      s.code? v = some instrs ∧
      Renamed undefined (names v).inside b.instrs instrs (names v).leaving ∧
      (instrs.filterMap (·.dest)).Nodup ∧
      ∀ x p, s.phi? v x = some p → p.target ∉ instrs.filterMap (·.dest) := by
  obtain ⟨b, hgb⟩ := exists_getElem?_blocks hv
  obtain ⟨b'', hb'', hname, hlay⟩ := SsaForm.exists_block_ofWalk hg s hgb
  obtain rfl : b' = b'' := Option.some.inj (hb.symm.trans hb'')
  obtain ⟨instrs, hi, hcode⟩ := h.code v b hv hgb
  have hphis := SsaForm.insertedPhis_ofWalk hg s hgb
  rw [hphis, hi, Option.getD_some] at hlay
  exact ⟨b, instrs, hgb, hname, hname ▸ hphis, hlay, hi, hcode⟩

theorem Naming.leaving_origin (hv : g.graph.Reachable 0 v) :
    ∀ x d, (names v).leaving.get? x = some d → Origin params s (g.graph.Dominates 0 · v) x d := by
  -- What one node adds to the names it is entered with.
  have hnode : ∀ v, g.graph.Reachable 0 v → (∀ x d, (names v).entering.get? x = some d →
      Origin params s (g.graph.Dominates 0 · v) x d) → ∀ x d,
      (names v).leaving.get? x = some d → Origin params s (g.graph.Dominates 0 · v) x d := by
    intro v hv hent x d hx
    obtain ⟨b, hb⟩ := exists_getElem?_blocks hv
    obtain ⟨instrs, hi, hren, -⟩ := h.code v b hv hb
    rcases hren.origin hx with hx | ⟨hver, hd⟩
    · rcases h.inside_origin hv hx with hx | ⟨hver, p, hp, hdest⟩
      · exact hent x d hx
      · exact .inr ⟨hver, v, .refl v, .inl ⟨x, p, hp, by simp [Phi.target, hdest]⟩⟩
    · exact .inr ⟨hver, v, .refl v, .inr ⟨instrs, hi, hd⟩⟩
  refine Dominance.tree_induction hg.graph.symmetric (P := fun v => ∀ x d,
    (names v).leaving.get? x = some d → Origin params s (g.graph.Dominates 0 · v) x d)
    ?_ (fun u v hv _ hi ih => ?_) hv
  · refine hnode 0 (.of_lt hg.nonempty) fun x d hx => .inl ?_
    exact eq_of_paramEnv (h.entry ▸ hx)
  · refine hnode v hv fun x d hx => ?_
    exact (ih x d (h.below u v hv hi ▸ hx)).mono fun a ha => ha.trans hi.1.1

/-- What a node is entered with was assigned strictly above it. -/
theorem Naming.entering_origin (hv : g.graph.Reachable 0 v)
    (hx : (names v).entering.get? x = some d) :
    Origin params s (fun u => g.graph.Dominates 0 u v ∧ u ≠ v) x d := by
  by_cases hv0 : v = 0
  · subst hv0
    exact .inl (eq_of_paramEnv (h.entry ▸ hx))
  · obtain ⟨u, -, hi⟩ := Dominance.exists_idom? hg.graph.symmetric hv hv0
    rw [h.below u v hv hi] at hx
    refine (h.leaving_origin hg (hi.1.1.reachable hv) x d hx).mono fun a ha => ?_
    refine ⟨ha.trans hi.1.1, ?_⟩
    rintro rfl
    exact hi.1.2 (hi.1.1.antisymm ha hv)

end Naming

theorem Renamed.take (h : Renamed undefined env instrs instrs' env') {k : Nat}
    (hk : instrs'[k]? = some i') : ∃ i env₁, instrs[k]? = some i ∧
      i' = { i with args := i.args.map (called undefined env₁), dest := i'.dest } ∧
      Renamed undefined env (instrs.take k) (instrs'.take k) env₁ := by
  induction h generalizing k with
  | nil => cases hk
  | @effect env _ i _ _ hi _ ih =>
    cases k with
    | zero =>
      obtain rfl := Option.some.inj hk
      exact ⟨i, env, rfl, rfl, .nil env⟩
    | succ k =>
      obtain ⟨j, env₁, hj, heq, hren⟩ := ih hk
      exact ⟨j, env₁, hj, heq, .effect hi hren⟩
  | @assign env _ i _ _ _ _ hi _ ih =>
    cases k with
    | zero =>
      obtain rfl := Option.some.inj hk
      exact ⟨i, env, rfl, rfl, .nil env⟩
    | succ k =>
      obtain ⟨j, env₁, hj, heq, hren⟩ := ih hk
      exact ⟨j, env₁, hj, heq, .assign hi hren⟩

theorem Renamed.arg_origin (h : Renamed undefined env instrs instrs' env')
    {before after : List Instruction} (hi : instrs' = before ++ i :: after) (ha : a ∈ i.args) :
    a = undefined ∨ (∃ x, env.get? x = some a) ∨ a ∈ before.filterMap (·.dest) := by
  have hk : instrs'[before.length]? = some i := by simp [hi]
  obtain ⟨j, env₁, -, heq, hren⟩ := h.take hk
  have hbefore : instrs'.take before.length = before := by simp [hi]
  rw [hbefore] at hren
  rw [heq] at ha
  obtain ⟨x, -, rfl⟩ := List.mem_map.1 ha
  cases hx : env₁.get? x with
  | none => exact .inl (by rw [called, hx, Option.getD_none])
  | some d =>
    rw [called, hx, Option.getD_some]
    rcases hren.origin hx with hx | ⟨-, hd⟩
    · exact .inr (.inl ⟨x, hx⟩)
    · exact .inr (.inr hd)

/-- An instruction with versions for variables: the destination is one of the original
destination, and each argument is one of the original argument, or that argument if it is a
parameter, or the name for what is undefined. -/
structure VersionOf (params : List String) (undefined : String) (i' i : Instruction) : Prop where
  same : i' = { i with dest := i'.dest, args := i'.args }
  dest : i'.dest.map FlowGraph.stem = i.dest
  dest_version : ∀ d, i'.dest = some d → IsVersion (FlowGraph.stem d) d
  args : List.Forall₂ (fun a' a => IsVersion a a' ∨ (a' = a ∧ a ∈ params) ∨ a' = undefined)
    i'.args i.args

def NamesVersions (params : List String) (env : Env) : Prop :=
  ∀ x d, env.get? x = some d → (d = x ∧ x ∈ params) ∨ IsVersion x d

theorem NamesVersions.args (h : NamesVersions params env) (undefined : String)
    (args : List String) :
    List.Forall₂ (fun a' a => IsVersion a a' ∨ (a' = a ∧ a ∈ params) ∨ a' = undefined)
      (args.map (called undefined env)) args := by
  rw [List.forall₂_map_left_iff, List.forall₂_same]
  intro x _
  unfold called
  cases hx : env.get? x with
  | none => exact .inr (.inr rfl)
  | some d =>
    rcases h x d hx with h | h
    · exact .inr (.inl h)
    · exact .inl h

theorem NamesVersions.insert (h : NamesVersions params env) (x : String) (n : Nat) :
    NamesVersions params (env.insert x (FlowGraph.numbered x n)) := by
  intro y d hy
  rw [NameMap.get?_insert] at hy
  split at hy
  · next hyx =>
    obtain rfl := Option.some.inj hy
    exact .inr ⟨n, hyx ▸ rfl⟩
  · exact h y d hy

theorem Renamed.versions (h : Renamed undefined env instrs instrs' env')
    (henv : NamesVersions params env) :
    List.Forall₂ (VersionOf params undefined) instrs' instrs := by
  induction h with
  | nil => exact .nil
  | effect hi _ ih =>
    refine .cons ⟨rfl, ?_, ?_, henv.args _ _⟩ (ih henv)
    · simp [hi]
    · intro d hd
      cases hi.symm.trans hd
  | @assign _ _ _ _ _ y n hi _ ih =>
    refine .cons ⟨rfl, ?_, ?_, henv.args _ _⟩ (ih (henv.insert y n))
    · simp [hi]
    · intro d hd
      obtain rfl := Option.some.inj hd
      exact ⟨n, by rw [FlowGraph.stem_numbered]⟩

section Form

variable (h : Naming g params undefined names s) (hg : g.WellFormed)
  (hform : form = SsaForm.ofWalk g s)
include h hg

theorem Naming.inside_versions (hv : g.graph.Reachable 0 v) :
    NamesVersions params (names v).inside := by
  intro x d hx
  rcases h.inside_origin hv hx with hx | ⟨hver, -⟩
  · rcases h.entering_origin hg hv hx with horig | ⟨hver, -⟩
    · exact .inl horig
    · exact .inr hver
  · exact .inr hver

include hform

/-- What the block of a reachable node assigns in the form. -/
theorem Naming.mem_destinations (hv : g.graph.Reachable 0 v) (hb : form.blocks[v]? = some b') :
    d ∈ b'.destinations ↔ s.Assigns v d := by
  obtain ⟨b, instrs, -, -, -, hlay, hi, -⟩ := h.exists_source hg hv (hform ▸ hb)
  rw [Block.destinations, hlay.destinations_perm.mem_iff, List.mem_append]
  refine or_congr ?_ ?_
  · simp only [List.filterMap_map, List.mem_filterMap, mem_phisOf]
    constructor
    · rintro ⟨p, ⟨x, hp⟩, hd⟩
      exact ⟨x, p, hp, Option.some.inj hd⟩
    · rintro ⟨x, p, hp, rfl⟩
      exact ⟨p, ⟨x, hp⟩, rfl⟩
  · constructor
    · exact fun hd => ⟨instrs, hi, hd⟩
    · rintro ⟨instrs', hi', hd⟩
      rwa [Option.some.inj (hi.symm.trans hi')]

omit hg hform in
/-- The stem of what a phi assigns is its variable, and the variables of phis differ. -/
theorem Naming.nodup_targets (hv : g.graph.Reachable 0 v) :
    ((s.phisOf v).map (·.target)).Nodup := by
  have hstems : ((s.phisOf v).map (·.target)).map FlowGraph.stem =
      (s.phis[v]?.getD {}).keys := by
    rw [Walk.phisOf, List.map_map, List.map_map, NameMap.keys]
    refine List.map_congr_left fun e he => ?_
    obtain ⟨n, hdest, -⟩ := h.phi v e.1 e.2 hv (NameMap.mem_entries_iff.1 he)
    simp [Phi.target, hdest]
  exact List.Nodup.of_map FlowGraph.stem (hstems ▸ NameMap.nodup_keys _)

theorem Naming.nodup_destinations (hv : g.graph.Reachable 0 v)
    (hb : form.blocks[v]? = some b') : b'.destinations.Nodup := by
  obtain ⟨b, instrs, -, -, -, hlay, -, -, hnodup, hapart⟩ := h.exists_source hg hv (hform ▸ hb)
  have hphis : ((s.phisOf v).map (·.toInstruction)).filterMap (·.dest) =
      (s.phisOf v).map (·.target) := by
    rw [List.filterMap_map, ← List.filterMap_eq_map]
    rfl
  have htargets := h.nodup_targets hv
  rw [Block.destinations, hlay.destinations_perm.nodup_iff, hphis]
  refine htargets.append hnodup fun d hd hd' => ?_
  obtain ⟨p, hp, rfl⟩ := List.mem_map.1 hd
  obtain ⟨x, hp⟩ := mem_phisOf.1 hp
  exact hapart x p hp hd'

end Form

end Ssa

namespace SsaForm

open FlowOpt.Ssa FlowOpt.Digraph

def DefinedIn (form : SsaForm) (P : Nat → Prop) (d : String) : Prop :=
  ∃ u b, P u ∧ form.blocks[u]? = some b ∧ d ∈ b.destinations

/-- Single assignment over the reachable nodes of the graph `g`, with definitions that dominate
their uses. Only what a label record reads may also be a phi of its block, behind the label. -/
structure Strict (g : FlowGraph) (params : List String) (undefined : String) (form : SsaForm) :
    Prop where
  blocks : ∀ (v : Nat) (b : Block), g.blocks[v]? = some b →
    ∃ b' : Block, form.blocks[v]? = some b' ∧ b'.name = b.name
  once_in_block : ∀ (v : Nat) (b : Block), g.graph.Reachable 0 v → form.blocks[v]? = some b → b.destinations.Nodup
  once : ∀ (u v : Nat) (b c : Block) (d : String), g.graph.Reachable 0 u → g.graph.Reachable 0 v →
    form.blocks[u]? = some b → form.blocks[v]? = some c →
    d ∈ b.destinations → d ∈ c.destinations → u = v
  uses : ∀ (v : Nat) (b : Block), g.graph.Reachable 0 v → form.blocks[v]? = some b →
    ∀ before i after, b.instrs = before ++ i :: after →
      i ∉ (form.insertedPhis b.name).map (·.toInstruction) → ∀ a ∈ i.args,
      a ∈ params ∨ a = undefined ∨ a ∈ before.filterMap (·.dest) ∨
        form.DefinedIn (fun u => g.graph.Dominates 0 u v ∧ u ≠ v) a ∨
        (i.isLabel = true ∧ ∃ p ∈ form.insertedPhis b.name, p.dest = some a)
  phi_sources : ∀ (v : Nat) (b : Block), g.graph.Reachable 0 v → form.blocks[v]? = some b →
    ∀ p ∈ form.insertedPhis b.name, (p.operands.map (·.predecessor)).Nodup ∧
      ∀ name, name ∈ p.operands.map (·.predecessor) ↔
        ∃ u, g.graph.Reachable 0 u ∧ v ∈ g.graph.succs u ∧ g.nameOf u = name
  phi_uses : ∀ (v : Nat) (b : Block), g.graph.Reachable 0 v → form.blocks[v]? = some b →
    ∀ p ∈ form.insertedPhis b.name, ∀ o ∈ p.operands, ∀ u, g.graph.Reachable 0 u →
      g.nameOf u = o.predecessor → o.value ∈ params ∨ o.value = undefined ∨
        form.DefinedIn (fun w => g.graph.Dominates 0 w u) o.value
  original : ∀ (v : Nat) (b b' : Block), g.graph.Reachable 0 v → g.blocks[v]? = some b →
    form.blocks[v]? = some b' → ∃ kept,
      WithPhis b.name ((form.insertedPhis b.name).map (·.toInstruction)) kept b'.instrs ∧
      List.Forall₂ (VersionOf params undefined) kept b.instrs

variable {g : FlowGraph} {params : List String} {undefined : String} {form : SsaForm}
  {u v : Nat} {x d : String} {b b' : Block} {names : Nat → NodeNames} {s : Walk}

section Form

variable (h : Naming g params undefined names s) (hg : g.WellFormed)
include h hg

theorem definedIn_of_origin {P : Nat → Prop} (hP : ∀ u, P u → g.graph.Reachable 0 u)
    (ho : Origin params s P x d) : d ∈ params ∨ (ofWalk g s).DefinedIn P d := by
  rcases ho with ⟨rfl, hd⟩ | ⟨-, u, hu, hd⟩
  · exact .inl hd
  · obtain ⟨b, hb⟩ := exists_getElem?_blocks (hP u hu)
    obtain ⟨b', hb', -, -⟩ := exists_block_ofWalk hg s hb
    exact .inr ⟨u, b', hu, hb', (h.mem_destinations hg rfl (hP u hu) hb').2 hd⟩

theorem uses_ofWalk (hv : g.graph.Reachable 0 v) (hb' : (ofWalk g s).blocks[v]? = some b')
    {before after : List Instruction} {i : Instruction} (hi : b'.instrs = before ++ i :: after)
    (hnew : i ∉ ((ofWalk g s).insertedPhis b'.name).map (·.toInstruction)) {a : String}
    (ha : a ∈ i.args) : a ∈ params ∨ a = undefined ∨ a ∈ before.filterMap (·.dest) ∨
      (ofWalk g s).DefinedIn (fun u => g.graph.Dominates 0 u v ∧ u ≠ v) a ∨
      (i.isLabel = true ∧ ∃ p ∈ (ofWalk g s).insertedPhis b'.name, p.dest = some a) := by
  obtain ⟨b, instrs, -, -, hphis, hlay, -, hren, -⟩ := h.exists_source hg hv hb'
  rw [hphis] at hnew ⊢
  rcases hlay.exists_kept hi hnew with rfl | ⟨l, r, hkept, hl, hplaced⟩
  · simp [Instruction.atLabel] at ha
  rcases hren.arg_origin hkept ha with rfl | ⟨x, hx⟩ | ha
  · exact .inr (.inl rfl)
  · rcases h.inside_origin hv hx with hx | ⟨-, p, hp, hdest⟩
    · rcases definedIn_of_origin h hg (fun u hu => hu.1.reachable hv)
        (h.entering_origin hg hv hx) with ha | ha
      · exact .inl ha
      · exact .inr (.inr (.inr (.inl ha)))
    · have hmem : p ∈ s.phisOf v := mem_phisOf.2 ⟨x, hp⟩
      rcases hplaced with hlabel | hplaced
      · exact .inr (.inr (.inr (.inr ⟨hlabel, p, hmem, hdest⟩)))
      · refine .inr (.inr (.inl (List.mem_filterMap.2 ⟨p.toInstruction, ?_, ?_⟩)))
        · exact hplaced _ (List.mem_map.2 ⟨p, hmem, rfl⟩)
        · simp [Phi.toInstruction, Instruction.phi, Phi.target, hdest]
  · obtain ⟨j, hj, hd⟩ := List.mem_filterMap.1 ha
    exact .inr (.inr (.inl (List.mem_filterMap.2 ⟨j, hl j hj, hd⟩)))

theorem strict_ofWalk : (ofWalk g s).Strict g params undefined := by
  constructor
  case blocks =>
    intro v b hb
    obtain ⟨b', hb', hname, -⟩ := exists_block_ofWalk hg s hb
    exact ⟨b', hb', hname⟩
  case once_in_block => exact fun v b hv hb => h.nodup_destinations hg rfl hv hb
  case once =>
    intro u v b c d hu hv hb hc hdb hdc
    exact h.disjoint u v d hu hv ((h.mem_destinations hg rfl hu hb).1 hdb)
      ((h.mem_destinations hg rfl hv hc).1 hdc)
  case uses => exact fun v b hv hb before i after hi hnew a ha => uses_ofWalk h hg hv hb hi hnew ha
  case phi_sources =>
    intro v b' hv hb' p hp
    obtain ⟨-, -, -, -, hphis, -⟩ := h.exists_source hg hv hb'
    obtain ⟨x, hp⟩ := mem_phisOf.1 (hphis ▸ hp)
    refine ⟨h.operands_nodup v x p hp, fun name => ?_⟩
    rw [List.mem_map]
    constructor
    · rintro ⟨o, ho, rfl⟩
      obtain ⟨u, hu, hs, rfl⟩ := (h.operands v x p hp o).1 ho
      exact ⟨u, hu, hs, rfl⟩
    · rintro ⟨u, hu, hs, rfl⟩
      exact ⟨_, (h.operands v x p hp _).2 ⟨u, hu, hs, rfl⟩, rfl⟩
  case phi_uses =>
    intro v b' hv hb' p hp o ho u hu hname
    obtain ⟨-, -, -, -, hphis, -⟩ := h.exists_source hg hv hb'
    obtain ⟨x, hp⟩ := mem_phisOf.1 (hphis ▸ hp)
    obtain ⟨w, hw, -, rfl⟩ := (h.operands v x p hp o).1 ho
    obtain ⟨b, hb⟩ := exists_getElem?_blocks hu
    obtain ⟨c, hc⟩ := exists_getElem?_blocks hw
    rw [FlowGraph.nameOf_eq hb, FlowGraph.nameOf_eq hc] at hname
    obtain rfl := hg.eq_of_name_eq hb hc hname
    simp only [called]
    cases hx : (names u).leaving.get? x with
    | none => exact .inr (.inl rfl)
    | some d =>
      exact (definedIn_of_origin h hg (fun a ha => ha.reachable hu)
        (h.leaving_origin hg hu x d hx)).imp_right .inr
  case original =>
    intro v b b' hv hb hb'
    obtain ⟨c, instrs, hc, hname, hphis, hlay, -, hren, -⟩ := h.exists_source hg hv hb'
    obtain rfl : b = c := Option.some.inj (hb.symm.trans hc)
    rw [← hname, hphis]
    exact ⟨instrs, hname ▸ hlay, hren.versions (h.inside_versions hg hv)⟩

end Form

theorem ofGraph_strict (hg : g.WellFormed) (h : ofGraph g params undefined = .ok form) :
    form.Strict g params undefined := by
  obtain ⟨names, s, hnaming, rfl⟩ := exists_naming hg h
  exact strict_ofWalk hnaming hg

end SsaForm

namespace Function

theorem toSsa_ok {f : Function} {form : SsaForm} (h : f.toSsa = .ok form) :
    ∃ split g, Block.split f.instrs = .ok split ∧
      FlowGraph.ofBlocks (Block.addTerminators split) FlowGraph.defaultEntryPrefix = .ok g ∧
      SsaForm.ofGraph g f.paramNames SsaForm.defaultUndefined = .ok form := by
  unfold toSsa explicitGraph at h
  split at h
  · cases h
  · cases hs : Block.split f.instrs with
    | error e =>
      rw [hs] at h
      cases h
    | ok split =>
      cases hg : FlowGraph.ofBlocks (Block.addTerminators split) FlowGraph.defaultEntryPrefix with
      | error e =>
        simp only [hs, bind, Except.bind, hg] at h
        cases h
      | ok g =>
        simp only [hs, bind, Except.bind, hg] at h
        exact ⟨split, g, rfl, hg, h⟩

/-- What `toSsa` gives back is in strict single assignment form, over the graph of the function. -/
theorem toSsa_strict (f : Function) (form : SsaForm) (h : f.toSsa = .ok form) :
    ∃ g, f.explicitGraph FlowGraph.defaultEntryPrefix = .ok g ∧
      form.Strict g f.paramNames SsaForm.defaultUndefined := by
  obtain ⟨split, g, hs, hg, hform⟩ := toSsa_ok h
  refine ⟨g, ?_, SsaForm.ofGraph_strict (.of_ofBlocks hg) hform⟩
  rw [explicitGraph, hs]
  exact hg

/-- The label of the join reads a variable that is assigned on one of two ways to it. -/
def labelReading : Function where
  name := "f"
  params := [⟨"c", .named "bool"⟩, ⟨"x", .named "int"⟩]
  instrs := [.branch "c" "left" "join", .atLabel "left", .constant "x" (.named "int") (.int 1),
    .jump "join", { label := some "join", op := some "print", args := ["x"] }, .ret []]

theorem labelReading_graph :
    (labelReading.explicitGraph FlowGraph.defaultEntryPrefix).toOption.map
      (fun g => (g.graph.outgoing, g.graph.size)) = some (#[[1, 2], [2], []], 3) := by
  decide +kernel

theorem labelReading_form :
    labelReading.toSsa.toOption.map (fun form => (form.blocks, form.insertedPhis "join")) =
      some ([⟨"b0", [.atLabel "b0", .branch "c" "left" "join"]⟩,
        ⟨"left", [.atLabel "left", .constant "x.1" (.named "int") (.int 1), .jump "join"]⟩,
        ⟨"join", [{ label := some "join", op := some "print", args := ["x.0"] },
          .phi "x.0" (some (.named "int")) ["x", "x.1"] ["b0", "left"], .ret []]⟩],
        [⟨"x", some "x.0", some (.named "int"), [⟨"x", "b0"⟩, ⟨"x.1", "left"⟩]⟩]) := by
  cbv

theorem labelReading_strict : ∃ form, labelReading.toSsa = .ok form ∧
    ∃ g, labelReading.explicitGraph FlowGraph.defaultEntryPrefix = .ok g ∧
      form.Strict g labelReading.paramNames SsaForm.defaultUndefined := by
  obtain ⟨form, hform, -⟩ := exists_of_toOption_map labelReading_form
  exact ⟨form, hform, toSsa_strict labelReading form hform⟩

/-- There the label reads the phi behind it, which no earlier instruction of its block and no block
that strictly dominates it assigns. -/
theorem label_reads_later_phi : ∃ form g, labelReading.toSsa = .ok form ∧
    labelReading.explicitGraph FlowGraph.defaultEntryPrefix = .ok g ∧
    ¬ ∀ (v : Nat) (b : Block), g.graph.Reachable 0 v → form.blocks[v]? = some b →
      ∀ before i after, b.instrs = before ++ i :: after →
        i ∉ (form.insertedPhis b.name).map (·.toInstruction) → ∀ a ∈ i.args,
        a ∈ labelReading.paramNames ∨ a = SsaForm.defaultUndefined ∨
          a ∈ before.filterMap (·.dest) ∨
          form.DefinedIn (fun u => g.graph.Dominates 0 u v ∧ u ≠ v) a := by
  obtain ⟨form, hform, hparts⟩ := exists_of_toOption_map labelReading_form
  obtain ⟨hblocks, hphis⟩ := Prod.mk.inj hparts
  obtain ⟨g, hgraph, hparts⟩ := exists_of_toOption_map labelReading_graph
  obtain ⟨houtgoing, hsize⟩ := Prod.mk.inj hparts
  refine ⟨form, g, hform, hgraph, fun hall => ?_⟩
  have hreach : g.graph.Reachable 0 2 := by
    have h0 : g.graph.Reachable 0 0 := .of_lt (by omega)
    exact h0.step (by simp [Digraph.succs, houtgoing]) (by omega)
  rcases hall 2 _ hreach (by rw [hblocks]; rfl) [] _ _ rfl (by simp [hphis]; decide) "x.0"
    (by simp) with h | h | h | ⟨u, b, ⟨-, hu⟩, hb, hd⟩
  · simp [paramNames, labelReading] at h
  · simp [SsaForm.defaultUndefined] at h
  · simp at h
  · rw [hblocks] at hb
    rcases u with _ | _ | _ | u
    · obtain rfl := Option.some.inj hb
      simp [Block.destinations, Instruction.atLabel, Instruction.branch] at hd
    · obtain rfl := Option.some.inj hb
      simp [Block.destinations, Instruction.atLabel, Instruction.constant, Instruction.jump] at hd
    · exact hu rfl
    · simp at hb

end Function

end FlowOpt
