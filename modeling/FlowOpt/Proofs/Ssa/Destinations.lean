import FlowOpt.Proofs.Ssa.Simulation

/-!
# What a form assigns

At the nodes that are reachable every destination of a form is a version of a variable of the
function, and no two of them are the same. The walk does not come to the other nodes, so their
blocks keep the destinations they had, whatever these are called.
-/

namespace FlowOpt

namespace Block

def assignedAt (chosen : Nat → Bool) (blocks : List Block) : List String :=
  blocks.zipIdx.flatMap fun (b, v) => if chosen v then b.destinations else []

variable {blocks blocks' : List Block} {chosen : Nat → Bool} {d : String}

theorem assignedAt_congr (hlen : blocks.length = blocks'.length)
    (h : ∀ v b b', chosen v = true → blocks[v]? = some b → blocks'[v]? = some b' →
      b.destinations = b'.destinations) :
    assignedAt chosen blocks = assignedAt chosen blocks' := by
  have hmap : blocks.zipIdx.map (fun (b, v) => if chosen v then b.destinations else []) =
      blocks'.zipIdx.map fun (b, v) => if chosen v then b.destinations else [] := by
    apply List.ext_getElem (by simp [hlen])
    intro v hv hv'
    simp only [List.length_map, List.length_zipIdx] at hv hv'
    simp only [List.getElem_map, List.getElem_zipIdx, Nat.zero_add]
    split
    · next hc => exact h v _ _ hc (List.getElem?_eq_getElem hv) (List.getElem?_eq_getElem hv')
    · rfl
  rw [assignedAt, assignedAt, List.flatMap_def, List.flatMap_def, hmap]

theorem destinations_perm_assignedAt (chosen : Nat → Bool) (blocks : List Block) :
    ((flatten blocks).filterMap (·.dest)).Perm
      (assignedAt chosen blocks ++ assignedAt (!chosen ·) blocks) := by
  have hsplit : (flatten blocks).filterMap (·.dest) = blocks.zipIdx.flatMap fun (b, v) =>
      (if chosen v then b.destinations else []) ++ if !chosen v then b.destinations else [] := by
    have hboth : ∀ e ∈ blocks.zipIdx, ((if chosen e.2 then e.1.destinations else []) ++
        if !chosen e.2 then e.1.destinations else []) = e.1.destinations := by
      intro e _
      cases chosen e.2 <;> simp
    rw [List.flatMap_congr hboth, flatten, List.filterMap_flatMap,
      ← List.flatMap_map Prod.fst destinations, List.zipIdx_map_fst]
    rfl
  rw [hsplit]
  exact (List.flatMap_append_perm _ _ _).symm

end Block

theorem Function.isSsa_iff {f : Function} :
    f.isSsa = true ↔ (f.instrs.filterMap (·.dest)).Nodup := by
  rw [isSsa, Option.isNone_iff_eq_none, firstRepeat?_eq_none]
  simp

def FlowGraph.isReachable (g : FlowGraph) (v : Nat) : Bool := (g.graph.reachable g.entry).contains v

namespace Ssa

open FlowOpt.Digraph

variable {g : FlowGraph} {params : List String} {undefined d : String} {form : SsaForm}
  {u v : Nat} {b b' : Block} {s : Walk} {env : Env} {names : Nat → NodeNames}
  {kept written : List Instruction} {name : String}

theorem isReachable_iff : g.isReachable v = true ↔ g.graph.Reachable 0 v := by
  rw [FlowGraph.isReachable, ← BitSet.mem_iff_contains, mem_reachable, FlowGraph.entry]

structure Untouched (g : FlowGraph) (u : Nat) (s s' : Walk) : Prop where
  phis_size : s'.phis.size = g.size
  renamed_size : s'.renamed.size = g.size
  code : s'.code? u = s.code? u

/-- The walk from a reachable node stays at reachable nodes. -/
theorem untouched_rename (hg : g.WellFormed) (hu : ¬ g.graph.Reachable 0 u) (fuel : Nat)
    (hv : g.graph.Reachable 0 v) (hphis : s.phis.size = g.size) (hren : s.renamed.size = g.size)
    (env : Env) :
    Untouched g u s (rename g (.ofGraph g.graph 0) undefined fuel v env s) := by
  induction fuel generalizing v env s with
  | zero => exact ⟨hphis, hren, rfl⟩
  | succ fuel ih =>
    obtain ⟨node, b, hnode, rfl, hb⟩ := exists_block hv
    obtain ⟨t, -, -, hvisit⟩ := visit_spec undefined hg hphis hren hv.lt node.block env
    have huv : u ≠ v := by
      rintro rfl
      exact hu hv
    have hchildren : ∀ (env : Env) (children : List Nat) (s₁ : Walk), Untouched g u s s₁ →
        (∀ c ∈ children, g.graph.Reachable 0 c) → Untouched g u s (children.foldl
          (fun s c => rename g (.ofGraph g.graph 0) undefined fuel c env s) s₁) := by
      intro env children
      induction children with
      | nil => exact fun _ h _ => h
      | cons c children ihc =>
        intro s₁ h hc
        have hstep := ih (hc c List.mem_cons_self) h.phis_size h.renamed_size env
        exact ihc _ ⟨hstep.phis_size, hstep.renamed_size, hstep.code.trans h.code⟩
          fun c hm => hc c (List.mem_cons_of_mem _ hm)
    rw [rename_succ hnode]
    refine hchildren _ _ _ ⟨?_, ?_, hvisit.code_elsewhere u huv⟩ fun c hc => ?_
    · exact hvisit.phis_size.trans hphis
    · exact hvisit.renamed_size.trans hren
    · rw [List.mem_mergeSort, Dominance.mem_children hg.graph.symmetric] at hc
      exact hc.1

theorem WithPhis.destinations_of_nil (h : WithPhis name [] kept written) :
    written.filterMap (·.dest) = kept.filterMap (·.dest) := by
  cases h with
  | behindLabel _ => rfl
  | newLabel _ => rfl
  | inFront _ => rfl

/-- A block that is not reachable keeps its destinations in a form. -/
theorem destinations_of_not_reachable (hg : g.WellFormed)
    (h : SsaForm.ofGraph g params undefined = .ok form) (hv : ¬ g.graph.Reachable 0 v)
    (hb : g.blocks[v]? = some b) (hb' : form.blocks[v]? = some b') :
    b'.destinations = b.destinations := by
  obtain ⟨names, s, hnaming, hform⟩ := exists_naming hg h
  have hphis : form.insertedPhis b.name = [] := by
    rw [hform, SsaForm.insertedPhis_ofWalk hg s hb, List.eq_nil_iff_forall_not_mem]
    intro p hp
    obtain ⟨x, hx⟩ := mem_phisOf.1 hp
    exact hv (hnaming.reachable_of_phi hg (by rw [hx]; rfl)).1
  have huntouched : Untouched g v (startWalk g) (rename g (.ofGraph g.graph 0) undefined g.size 0
      (paramEnv params) (startWalk g)) :=
    untouched_rename hg hv g.size (.of_lt hg.nonempty) (placePhis_spec hg).1 Array.size_replicate _
  have hcode : (startWalk g).code? v = none := by
    rw [Walk.code?, startWalk, Array.getElem?_replicate]
    split <;> rfl
  have hwalk := eq_ofWalk hg h
  generalize rename g _ _ _ _ _ _ = s₀ at huntouched hwalk
  obtain ⟨b₁, hb₁, -, hlay⟩ := SsaForm.exists_block_ofWalk hg s₀ hb
  obtain rfl := Option.some.inj ((hwalk ▸ hb').symm.trans hb₁)
  rw [← hwalk, hphis, huntouched.code, hcode] at hlay
  exact hlay.destinations_of_nil

section Form

variable (h : Naming g params undefined names s) (hg : g.WellFormed)
  (hform : form = SsaForm.ofWalk g s)
include h hg hform

/-- No two destinations at reachable nodes are the same. -/
theorem Naming.nodup_assignedAt : (Block.assignedAt g.isReachable form.blocks).Nodup := by
  rw [Block.assignedAt, List.nodup_flatMap]
  constructor
  · rintro ⟨b, v⟩ hb
    have hb := List.mem_zipIdx_iff_getElem?.1 hb
    by_cases hv : g.isReachable v = true
    · simp only [if_pos hv]
      exact h.nodup_destinations hg hform (isReachable_iff.1 hv) hb
    · simp only [if_neg hv, List.nodup_nil]
  · rw [List.pairwise_iff_getElem]
    intro u v hu hv huv d hdu hdv
    simp only [List.getElem_zipIdx, Nat.zero_add] at hdu hdv
    rw [List.length_zipIdx] at hu hv
    split at hdu
    · next hru =>
      split at hdv
      · next hrv =>
        rw [isReachable_iff] at hru hrv
        rw [h.mem_destinations hg hform hru (List.getElem?_eq_getElem hu)] at hdu
        rw [h.mem_destinations hg hform hrv (List.getElem?_eq_getElem hv)] at hdv
        exact absurd (h.disjoint u v d hru hrv hdu hdv) (Nat.ne_of_lt huv)
      · simp at hdv
    · simp at hdu

theorem Naming.exists_version (hv : g.graph.Reachable 0 v) (hb : form.blocks[v]? = some b)
    (hd : d ∈ b.destinations) : ∃ x u, Defines g u x ∧ IsVersion x d := by
  rw [h.mem_destinations hg hform hv hb] at hd
  rcases hd with ⟨x, p, hp, rfl⟩ | ⟨instrs, hi, hd⟩
  · obtain ⟨n, hdest, -⟩ := h.phi v x p hv hp
    obtain ⟨u, hu⟩ := h.exists_defines hp
    exact ⟨x, u, hu, n, by simp [Phi.target, hdest]⟩
  · obtain ⟨c, hc⟩ := exists_getElem?_blocks hv
    obtain ⟨instrs', hi', hren, -⟩ := h.code v c hv hc
    obtain rfl := Option.some.inj (hi.symm.trans hi')
    have hvers := hren.versions (h.inside_versions hg hv)
    obtain ⟨i, hmem, hdi⟩ := List.mem_filterMap.1 hd
    obtain ⟨k, hk, rfl⟩ := List.mem_iff_getElem.1 hmem
    have hlen := hvers.length_eq
    have hver := (List.forall₂_iff_get.1 hvers).2 k hk (hlen ▸ hk)
    rw [List.get_eq_getElem, List.get_eq_getElem] at hver
    have hdest : c.instrs[k].dest = some (FlowGraph.stem d) := by
      rw [← hver.dest, hdi, Option.map_some]
    exact ⟨FlowGraph.stem d, v, ⟨c, hc, List.mem_filterMap.2 ⟨_, List.getElem_mem _, hdest⟩⟩,
      hver.dest_version d hdi⟩

end Form

end Ssa

namespace Function

open FlowOpt.Ssa

variable {f : Function} {form : SsaForm} {g : FlowGraph} {x : String}

theorem mem_destinations_of_defines {split : List Block} {stem : String} {v : Nat}
    (hs : Block.split f.instrs = .ok split)
    (hg : FlowGraph.ofBlocks (Block.addTerminators split) stem = .ok g) (hx : Defines g v x) :
    x ∈ f.instrs.filterMap (·.dest) := by
  obtain ⟨b, hb, hx⟩ := hx
  obtain ⟨i, hi, hd⟩ := List.mem_filterMap.1 hx
  rcases FlowGraph.mem_blocks_cases hg (List.mem_of_getElem? hb) with hmem | ⟨name, target, rfl⟩
  · rcases Block.mem_instrs_addTerminators hmem hi with ⟨c, hc, hi⟩ | ⟨l, rfl⟩ | ⟨l, rfl⟩
    · exact List.mem_filterMap.2 ⟨i, Block.mem_of_mem_split hs hc hi, hd⟩
    · simp [Instruction.atLabel] at hd
    · simp [Instruction.jump] at hd
  · simp at hx

/-- In a form no variable is assigned twice at reachable nodes, and the other blocks keep their
destinations. So the whole is in single assignment form just if these are different from each other
and from what is assigned at reachable nodes. -/
theorem toSsa_isSsa (f : Function) (form : SsaForm) (h : f.toSsa = .ok form) :
    ∃ g, f.explicitGraph FlowGraph.defaultEntryPrefix = .ok g ∧
      (Block.assignedAt g.isReachable form.blocks).Nodup ∧
      Block.assignedAt (!g.isReachable ·) form.blocks =
        Block.assignedAt (!g.isReachable ·) g.blocks ∧
      (({ f with instrs := form.instrs } : Function).isSsa = true ↔
        (Block.assignedAt (!g.isReachable ·) g.blocks).Nodup ∧
          ∀ d ∈ Block.assignedAt (!g.isReachable ·) g.blocks,
            d ∉ Block.assignedAt g.isReachable form.blocks) := by
  obtain ⟨split, g, hs, hgraph, hform⟩ := toSsa_ok h
  have hg := FlowGraph.WellFormed.of_ofBlocks hgraph
  obtain ⟨names, s, hnaming, hwalk⟩ := exists_naming hg hform
  have hreach := hnaming.nodup_assignedAt hg hwalk
  have hkept : Block.assignedAt (!g.isReachable ·) form.blocks =
      Block.assignedAt (!g.isReachable ·) g.blocks := by
    refine Block.assignedAt_congr (hwalk ▸ SsaForm.length_blocks_ofWalk g s) ?_
    intro v b' b hv hb' hb
    refine destinations_of_not_reachable hg hform ?_ hb hb'
    rw [← isReachable_iff]
    simpa using hv
  refine ⟨g, ?_, hreach, hkept, ?_⟩
  · rw [explicitGraph, hs]
    exact hgraph
  · have hperm := Block.destinations_perm_assignedAt g.isReachable form.blocks
    rw [isSsa_iff, SsaForm.instrs, hperm.nodup_iff, hkept, List.nodup_append']
    constructor
    · rintro ⟨-, hdead, hdisjoint⟩
      exact ⟨hdead, fun d hd hd' => hdisjoint hd' hd⟩
    · rintro ⟨hdead, hdisjoint⟩
      exact ⟨hreach, hdead, fun d hd hd' => hdisjoint d hd' hd⟩

def skipping : Function where
  name := "f"
  instrs := [.constant "x" (.named "int") (.int 1), .jump "end", .atLabel "dead",
    .constant "y" (.named "int") (.int 2), .atLabel "end", .ret ["x"]]

theorem skipping_isSsa : ∃ form, skipping.toSsa = .ok form ∧
    ∃ g, skipping.explicitGraph FlowGraph.defaultEntryPrefix = .ok g ∧
      (Block.assignedAt g.isReachable form.blocks).Nodup ∧
      Block.assignedAt (!g.isReachable ·) form.blocks =
        Block.assignedAt (!g.isReachable ·) g.blocks ∧
      (({ skipping with instrs := form.instrs } : Function).isSsa = true ↔
        (Block.assignedAt (!g.isReachable ·) g.blocks).Nodup ∧
          ∀ d ∈ Block.assignedAt (!g.isReachable ·) g.blocks,
            d ∉ Block.assignedAt g.isReachable form.blocks) := by
  have hok : skipping.toSsa.toOption.isSome = true := by cbv
  obtain ⟨form, hform⟩ := exists_of_toOption_isSome hok
  exact ⟨form, hform, toSsa_isSsa skipping form hform⟩

/-- A block that nothing leads to assigns a variable twice. -/
def repeating : Function where
  name := "f"
  instrs := [.ret [], .atLabel "dead", .constant "x" (.named "int") (.int 1),
    .constant "x" (.named "int") (.int 2), .ret []]

/-- The form of that function is not in single assignment form. -/
theorem repeating_not_isSsa : ∃ form, repeating.toSsa = .ok form ∧
    ({ repeating with instrs := form.instrs } : Function).isSsa = false := by
  have hnot : repeating.toSsa.toOption.map (fun form =>
      ({ repeating with instrs := form.instrs } : Function).isSsa) = some false := by cbv
  exact exists_of_toOption_map hnot

/-- Where no parameter is spelled like a version of a variable that is assigned, no destination at
a reachable node is a parameter. -/
theorem toSsa_spares_parameters (f : Function) (form : SsaForm) (h : f.toSsa = .ok form)
    (hspelled : ∀ x ∈ f.instrs.filterMap (·.dest), ∀ n, FlowGraph.numbered x n ∉ f.paramNames) :
    ∃ g, f.explicitGraph FlowGraph.defaultEntryPrefix = .ok g ∧
      ∀ (v : Nat) (b : Block), g.graph.Reachable 0 v → form.blocks[v]? = some b →
        ∀ d ∈ b.destinations, d ∉ f.paramNames := by
  obtain ⟨split, g, hs, hgraph, hform⟩ := toSsa_ok h
  have hg := FlowGraph.WellFormed.of_ofBlocks hgraph
  obtain ⟨names, s, hnaming, hwalk⟩ := exists_naming hg hform
  refine ⟨g, ?_, fun v b hv hb d hd => ?_⟩
  · rw [explicitGraph, hs]
    exact hgraph
  · obtain ⟨x, u, hx, n, rfl⟩ := hnaming.exists_version hg hwalk hv hb hd
    exact hspelled x (mem_destinations_of_defines hs hgraph hx) n

def adding : Function where
  name := "f"
  params := [⟨"n", .named "int"⟩, ⟨"x", .named "int"⟩]
  instrs := [.compute "add" "x" (.named "int") ["x", "n"], .ret ["x"]]

theorem adding_spares_parameters :
    (∀ x ∈ adding.instrs.filterMap (·.dest), ∀ n, FlowGraph.numbered x n ∉ adding.paramNames) ∧
    ∃ form, adding.toSsa = .ok form ∧
      ∃ g, adding.explicitGraph FlowGraph.defaultEntryPrefix = .ok g ∧
        ∀ (v : Nat) (b : Block), g.graph.Reachable 0 v → form.blocks[v]? = some b →
          ∀ d ∈ b.destinations, d ∉ adding.paramNames := by
  have hspelled : ∀ x ∈ adding.instrs.filterMap (·.dest), ∀ n,
      FlowGraph.numbered x n ∉ adding.paramNames := by
    intro x hx n hmem
    have hstem : FlowGraph.stem (FlowGraph.numbered x n) ∈ adding.paramNames.map FlowGraph.stem :=
      List.mem_map_of_mem hmem
    obtain rfl : x = "x" := by
      fin_cases hx
      rfl
    rw [FlowGraph.stem_numbered] at hstem
    exact absurd hstem (by decide)
  refine ⟨hspelled, ?_⟩
  have hok : adding.toSsa.toOption.isSome = true := by cbv
  obtain ⟨form, hform⟩ := exists_of_toOption_isSome hok
  exact ⟨form, hform, toSsa_spares_parameters adding form hform hspelled⟩

/-- A parameter is spelled like the first version of a variable that is assigned. -/
def shadowing : Function where
  name := "f"
  params := [⟨"x.0", .named "int"⟩]
  instrs := [.constant "x" (.named "int") (.int 1), .effect "print" ["x.0"], .ret []]

set_option maxRecDepth 1024 in
/-- Its form assigns the parameter before it is printed. -/
theorem shadowing_assigns_parameter : ∃ form g b, shadowing.toSsa = .ok form ∧
    shadowing.explicitGraph FlowGraph.defaultEntryPrefix = .ok g ∧ g.graph.Reachable 0 0 ∧
    form.blocks[0]? = some b ∧ "x.0" ∈ b.destinations ∧ "x.0" ∈ shadowing.paramNames := by
  have hblocks : shadowing.toSsa.toOption.map (·.blocks) = some
      [⟨"b0", [.constant "x.0" (.named "int") (.int 1), .effect "print" ["x.0"], .ret []]⟩] := by
    cbv
  have hok : (shadowing.explicitGraph FlowGraph.defaultEntryPrefix).toOption.isSome = true := by
    cbv
  obtain ⟨g, hgraph⟩ := exists_of_toOption_isSome hok
  obtain ⟨form, hform, hblocks⟩ := exists_of_toOption_map hblocks
  obtain ⟨split, g', hs, hg, -⟩ := toSsa_ok hform
  have hgg : g' = g := by
    rw [explicitGraph, hs] at hgraph
    exact Except.ok.inj (hg.symm.trans hgraph)
  have hnonempty := (FlowGraph.WellFormed.of_ofBlocks (hgg ▸ hg)).nonempty
  exact ⟨form, g, _, hform, hgraph, .of_lt hnonempty, by rw [hblocks]; rfl, by decide, by decide⟩

end Function

end FlowOpt
