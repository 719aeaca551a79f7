import FlowOpt.Proofs.Dataflow.Settling
import FlowOpt.Proofs.Except

/-!
# Where versions come from

A version of a variable belongs to one block. Whatever version an analysis ends with was carried
along the edges from that block: a reaching version on a path on which no other block assigns the
variable, a defined one on any path. Which variables have a version is the same for both: those that
a block assigns from which one edge or more lead here.

Defined versions need not settle: two of them can chase each other round a loop. They settle where
each loop sees one block only that assigns the variable, and until then the versions that are known
come from blocks before all the same.
-/

namespace FlowOpt

namespace FlowGraph

variable {g : FlowGraph} {a : Analysis} {results : Results} {fuel v : Nat} {x : String}
  {keeps : Nat → String → Prop}

/-- What is known at the starts of the blocks. A variable is known where one edge or more lead from
a block that assigns it, and what is known of it is a version of one such block, from which there is
a way to the start of the block at hand. -/
structure Traced (g : FlowGraph) (way : String → Nat → Nat → Prop) (results : Results) : Prop where
  known : ∀ v b, g.blocks[v]? = some b → ∃ m, results.inputs.get? b.name = some m ∧
    ∀ x, NameMap.contains m x = true ↔ ∃ d, g.Assigns d x ∧ g.graph.LeadsTo d v
  origin : ∀ v b m x f, g.blocks[v]? = some b → results.inputs.get? b.name = some m →
    NameMap.get? m x = some f →
      ∃ k d, f = .version k ∧ g.Assigns d x ∧ (∀ w, g.Carries w x k ↔ w = d) ∧ way x d v

/-- What is known while the analysis runs, whether it ends or not. From some step on the variables
are known at the start of a block that are assigned where one edge or more lead from, and never
anything but versions from which there is a way there. -/
structure TracedThroughout (g : FlowGraph) (a : Analysis) (way : String → Nat → Nat → Prop) :
    Prop where
  known : ∀ v x d, g.Assigns d x → g.graph.LeadsTo d v → ∃ N, ∀ n ≥ N, ∀ st,
    Worklist.after a g.graph n (Worklist.start g.size) = some st →
      NameMap.contains (st.inputs[v]?.getD {}) x = true
  origin : ∀ n st, Worklist.after a g.graph n (Worklist.start g.size) = some st →
    ∀ (v : Nat) (x : String) (f : Fact), NameMap.get? (st.inputs[v]?.getD {}) x = some f →
      ∃ k d, f = .version k ∧ g.Assigns d x ∧ (∀ w, g.Carries w x k ↔ w = d) ∧ way x d v

section Run

variable {way : String → Nat → Nat → Prop} (ha : g.CarriesForward a keeps) (hg : g.Built)
  (hway : ∀ x d u v p, g.graph.Path d u p → (∀ w ∈ p.tail, keeps w x) →
    v ∈ g.graph.succs u → way x d v)
include ha hg hway

omit ha in
theorem Before.origin {f : Fact} (h : g.Before keeps v x f) :
    ∃ k d, f = .version k ∧ g.Assigns d x ∧ (∀ w, g.Carries w x k ↔ w = d) ∧ way x d v := by
  obtain ⟨u, hv, k, d, rfl, hd, p, hp, hpass⟩ := h
  refine ⟨k, d, rfl, (hg.carries_iff.1 hd).1, fun w => ?_, hway x d u v p hp hpass hv⟩
  exact ⟨fun hw => hg.carries_unique hw hd, fun hw => hw ▸ hd⟩

theorem CarriesForward.traced (h : g.solveWithin? fuel a = some results) : g.Traced way results := by
  obtain ⟨st, hrun, hsettled, hresults⟩ :=
    exists_run_of_forward hg.graph.symmetric hg.names_nodup ha.direction h
  obtain ⟨n, hafter⟩ := Worklist.exists_after_of_run hrun
  have hbefore : ∀ v x f, NameMap.get? (Worklist.incoming a g.graph st.outputs v) x = some f →
      g.Before keeps v x f := fun v x f =>
    ha.before_of_incoming hg fun u => (ha.carried hg hafter).outputs u x
  refine ⟨fun v b hb => ⟨_, (hresults v b hb).1, fun x => ⟨fun hx => ?_, ?_⟩⟩, ?_⟩
  · obtain ⟨f, hf⟩ := NameMap.contains_iff.1 hx
    obtain ⟨u, hv, k, d, -, hd, p, hp, -⟩ := hbefore v x f hf
    exact ⟨d, (hg.carries_iff.1 hd).1, u, ⟨p, hp⟩, hv⟩
  · rintro ⟨d, hd, u, hu, hv⟩
    exact (contains_incoming a ha.merge _ _ _).2
      ⟨u, (hg.graph.symmetric u v).1 hv, ha.contains_output hg hsettled hd hu⟩
  · intro v b m x f hb hm hf
    obtain rfl := Option.some.inj ((hresults v b hb).1.symm.trans hm)
    exact (hbefore v x f hf).origin hg hway

theorem CarriesForward.tracedThroughout : g.TracedThroughout a way where
  known v x d hd hv := by
    obtain ⟨u, hu, hv⟩ := hv
    obtain ⟨N, hN⟩ := ha.eventually_known hg hd hu
    obtain ⟨M, hM⟩ := ha.eventually_overtakes hg N (hg.graph.succs_lt u v hv).2
    refine ⟨M, fun n hn st' hst' => ?_⟩
    obtain ⟨st, hst, hovertakes⟩ := hM n hn st' hst'
    refine hovertakes.inputs x ((contains_incoming a ha.merge _ _ _).2 ?_)
    exact ⟨u, (hg.graph.symmetric u v).1 hv, hN N le_rfl st hst⟩
  origin n st hst v x f hf := ((ha.carried hg hst).inputs v x f hf).origin hg hway

end Run

/-- A path of one edge or more on which no block between the two ends assigns the variable. -/
def ClearWay (g : FlowGraph) (x : String) (d v : Nat) : Prop :=
  ∃ u p, g.graph.Path d u p ∧ v ∈ g.graph.succs u ∧ ∀ w ∈ p.tail, ¬ g.Assigns w x

/-- On a cycle at most one of the blocks that assign a variable leads to a block. -/
def Undisputed (g : FlowGraph) : Prop :=
  ∀ v x d d', g.graph.LeadsTo v v → g.Assigns d x → g.Assigns d' x → g.graph.Reachable d v →
    g.graph.Reachable d' v → d = d'

theorem assigns_iff_mem : g.Assigns v x ↔ x ∈ g.blocks[v]?.toList.flatMap (·.destinations) := by
  simp [Assigns]

theorem undisputed_iff : g.Undisputed ↔ ∀ v < g.size, g.graph.LeadsTo v v →
    ∀ d < g.size, g.graph.Reachable d v → ∀ d' < g.size, g.graph.Reachable d' v →
      ∀ x ∈ g.blocks[d]?.toList.flatMap (·.destinations),
        x ∈ g.blocks[d']?.toList.flatMap (·.destinations) → d = d' := by
  simp only [← assigns_iff_mem]
  constructor
  · exact fun h v _ hv d _ hd d' _ hd' x hx hx' => h v x d d' hv hx hx' hd hd'
  · intro h v x d d' hv hx hx' hd hd'
    obtain ⟨p, hp⟩ := id hd
    obtain ⟨p', hp'⟩ := id hd'
    exact h v hd.lt hv d hp.entry_lt hd d' hp'.entry_lt hd' x hx hx'

set_option synthInstance.maxSize 1000 in
instance (g : FlowGraph) : Decidable g.Undisputed := decidable_of_iff _ undisputed_iff.symm

theorem Undisputed.unique (h : g.Undisputed) (hg : g.Built) (hv : g.graph.LeadsTo v v)
    {f f' : Fact} (hf : g.Behind keeps v x f) (hf' : g.Behind keeps v x f') : f = f' := by
  obtain ⟨k, d, rfl, hd, p, hp, -⟩ := hf
  obtain ⟨k', d', rfl, hd', p', hp', -⟩ := hf'
  obtain ⟨hx, hk⟩ := hg.carries_iff.1 hd
  obtain ⟨hx', hk'⟩ := hg.carries_iff.1 hd'
  obtain rfl := h v x d d' hv hx hx' ⟨p, hp⟩ ⟨p', hp'⟩
  rw [← hk, ← hk']

/-- Whenever the analysis of reaching versions ends, it knows just the variables that are assigned
somewhere before, and each by a version from which there is a path that does not assign it again.
Whenever that of defined versions ends, it knows the same variables, each by a version of some block
before. It ends if there is no dispute; and in any case it comes to know those variables and keeps to
such versions. -/
theorem versions_traced (hg : g.Built) :
    (∀ fuel results, g.solveWithin? fuel reachingDefinitions = some results →
      g.Traced g.ClearWay results) ∧
    (∀ fuel results, g.solveWithin? fuel definedVariables = some results →
      g.Traced (fun _ => g.graph.LeadsTo) results) ∧
    (g.Undisputed → ∃ fuel results, g.solveWithin? fuel definedVariables = some results) ∧
    g.TracedThroughout definedVariables fun _ => g.graph.LeadsTo := by
  have hleads : ∀ (_ : String) d u v p, g.graph.Path d u p → (∀ w ∈ p.tail, True) →
      v ∈ g.graph.succs u → g.graph.LeadsTo d v := fun _ d u v p hp _ hv => ⟨u, ⟨p, hp⟩, hv⟩
  refine ⟨fun fuel results h => ?_, fun fuel results h => ?_, fun h => ?_, ?_⟩
  · exact hg.reachingDefinitions_carries.traced hg
      (fun x d u v p hp hpass hv => ⟨u, p, hp, hv, hpass⟩) h
  · exact hg.definedVariables_carries.traced hg hleads h
  · exact hg.definedVariables_carries.exists_results hg
      fun v hv x f f' hf hf' => h.unique hg hv hf hf'
  · exact hg.definedVariables_carries.tracedThroughout hg hleads

def squareAfterLoop : List Block :=
  [⟨"b0", [.constant "x" (.named "int") (.int 2), .jump "head"]⟩,
    ⟨"head", [.atLabel "head", .branch "c" "body" "done"]⟩,
    ⟨"body", [.atLabel "body", .compute "add" "y" (.named "int") ["x", "x"], .jump "head"]⟩,
    ⟨"done", [.atLabel "done", .compute "mul" "x" (.named "int") ["x", "x"], .ret ["x"]]⟩]

theorem squareAfterLoop_traced : ∃ g results results' fuel', ofBlocks squareAfterLoop "entry" = .ok g ∧
    g.solveWithin? 9 reachingDefinitions = some results ∧ g.Traced g.ClearWay results ∧
    g.Undisputed ∧ g.solveWithin? fuel' definedVariables = some results' ∧
    g.Traced (fun _ => g.graph.LeadsTo) results' ∧
    g.TracedThroughout definedVariables fun _ => g.graph.LeadsTo := by
  have hends : (ofBlocks squareAfterLoop "entry").toOption.any (fun g =>
      (g.solveWithin? 9 reachingDefinitions).isSome && decide g.Undisputed) = true := by
    decide +kernel
  obtain ⟨g, hg, hends⟩ := exists_of_toOption_any hends
  rw [Bool.and_eq_true, Option.isSome_iff_exists, decide_eq_true_eq] at hends
  obtain ⟨⟨results, h⟩, hundisputed⟩ := hends
  obtain ⟨hreaching, hdefined, hsettles, hthroughout⟩ := versions_traced (.ofBlocks hg)
  obtain ⟨fuel', results', h'⟩ := hsettles hundisputed
  exact ⟨g, results, results', fuel', hg, h, hreaching 9 results h, hundisputed, h',
    hdefined fuel' results' h', hthroughout⟩

/-- A loop that is entered at one of two blocks that assign the same variable. -/
def revolving : List Block :=
  [⟨"b0", [.jump "one"]⟩,
    ⟨"one", [.atLabel "one", .constant "x" (.named "int") (.int 1), .jump "three"]⟩,
    ⟨"two", [.atLabel "two", .constant "x" (.named "int") (.int 2), .jump "one"]⟩,
    ⟨"three", [.atLabel "three", .branch "c" "two" "done"]⟩,
    ⟨"done", [.atLabel "done", .ret []]⟩]

/-- Two defined versions chase each other round this loop for ever. Reaching versions settle. -/
theorem revolving_never_settles : ∃ g, ofBlocks revolving "entry" = .ok g ∧
    (∃ results, g.solve reachingDefinitions = .ok results) ∧
    ∀ fuel, g.solveWithin? fuel definedVariables = none := by
  have hrecurs : (ofBlocks revolving "entry").toOption.any (fun g =>
      (g.solve reachingDefinitions).toOption.isSome &&
        (Worklist.after definedVariables g.graph 7 (Worklist.start g.size)).any fun st =>
          (Worklist.after definedVariables g.graph 8 st).any fun again =>
            decide (again.queue = st.queue ∧ again.outputs = st.outputs)) = true := by
    decide +kernel
  obtain ⟨g, hg, hrecurs⟩ := exists_of_toOption_any hrecurs
  simp only [Bool.and_eq_true, Option.isSome_iff_exists, Option.any_eq_true,
    decide_eq_true_eq] at hrecurs
  obtain ⟨⟨results, hends⟩, st, hst, again, hagain, hq, ho⟩ := hrecurs
  refine ⟨g, hg, ⟨results, toOption_eq_some.1 hends⟩, fun fuel => ?_⟩
  have hnone := Worklist.run_eq_none_of_recurs hst hagain hq ho fuel
  simp only [solveWithin?, definedVariables] at hnone ⊢
  rw [hnone, Option.map_none]

end FlowGraph

end FlowOpt
