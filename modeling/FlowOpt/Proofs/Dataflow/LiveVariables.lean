import FlowOpt.Dataflow.Kind
import FlowOpt.Proofs.Dataflow.Solution
import FlowOpt.Proofs.Dataflow.Termination
import FlowOpt.Proofs.Graph.Search

/-!
# Exactly what is live

A variable is live at the start of a block if some path leads from there to a block that reads it
before it assigns it, through blocks that do not assign it. The analysis of live variables ends, and
finds these and no others, whichever way the edges are turned.
-/

namespace FlowOpt

theorem mem_insertName {name x : String} {l : List String} :
    x ∈ insertName name l ↔ x = name ∨ x ∈ l := by
  induction l with
  | nil => simp [insertName]
  | cons a l ih =>
    unfold insertName
    split
    · simp
    · split
      · next h => simp [h]
      · rw [List.mem_cons, ih, List.mem_cons, or_left_comm]

theorem mem_sortedNames {x : String} {names : List String} : x ∈ sortedNames names ↔ x ∈ names := by
  have hfold : ∀ (names sorted : List String),
      x ∈ names.foldl (fun sorted name => insertName name sorted) sorted ↔
        x ∈ sorted ∨ x ∈ names := by
    intro names
    induction names with
    | nil => simp
    | cons name names ih =>
      intro sorted
      rw [List.foldl_cons, ih, mem_insertName, List.mem_cons, or_assoc, or_left_comm]
  rw [sortedNames, hfold]
  simp

namespace Block

def ReadsFirst : List Instruction → String → Prop
  | [], _ => False
  | i :: rest, x => x ∈ i.args ∨ (i.dest ≠ some x ∧ ReadsFirst rest x)

variable {b : Block} {x : String} {written : List String} {instrs : List Instruction}

theorem mem_exposedUses : x ∈ exposedUses written instrs ↔ x ∉ written ∧ ReadsFirst instrs x := by
  induction instrs generalizing written with
  | nil => simp [exposedUses, ReadsFirst]
  | cons i rest ih =>
    have hdest : x ∈ i.dest.toList ↔ i.dest = some x := by simp
    rw [exposedUses, List.mem_append, ih, List.mem_filter, List.mem_append, hdest, ReadsFirst]
    simp only [Bool.not_eq_true', List.contains_eq_mem, decide_eq_false_iff_not, not_or]
    tauto

theorem mem_exposed : x ∈ b.exposed ↔ ReadsFirst b.instrs x := by
  rw [exposed, mem_sortedNames, mem_exposedUses]
  simp

theorem ReadsFirst.exists_arg (h : ReadsFirst instrs x) : ∃ i ∈ instrs, x ∈ i.args := by
  induction instrs with
  | nil => cases h
  | cons i rest ih =>
    rcases h with h | ⟨-, h⟩
    · exact ⟨i, List.mem_cons_self, h⟩
    · obtain ⟨j, hj, hx⟩ := ih h
      exact ⟨j, List.mem_cons_of_mem _ hj, hx⟩

end Block

namespace FlowGraph

variable {g : FlowGraph} {node : FlowNode} {input : FactMap} {v : Nat} {x : String}

theorem contains_ofVersions (counts : NameMap Nat) (b : Block) :
    (NameMap.ofList (b.definedVars.map fun x => (x, (counts.get? x).getD 0))).contains x = true ↔
      x ∈ b.destinations := by
  rw [NameMap.ofList, NameMap.contains_insertAll, List.map_map]
  simp [NameMap.contains, Block.definedVars, Function.comp_def]

theorem contains_versions_annotate (counts : NameMap Nat) (blocks : List Block) :
    ∀ n ∈ annotate counts blocks, n.versions.contains x = true ↔ x ∈ n.block.destinations := by
  induction blocks generalizing counts with
  | nil => simp [annotate]
  | cons b blocks ih =>
    intro n hn
    rcases List.mem_cons.1 hn with rfl | hn
    · exact contains_ofVersions counts b
    · exact ih _ n hn

theorem Built.contains_versions (h : g.Built) (hn : node ∈ g.nodes) :
    node.versions.contains x = true ↔ x ∈ node.block.destinations := by
  induction h with
  | turned _ ih => exact ih hn
  | ofBlocks h =>
    obtain ⟨first, rest, front, rfl, hfront, hnodes⟩ := nodes_of_ofBlocks h
    rcases List.mem_append.1 (hnodes ▸ hn) with hn | hn
    · cases hfront with
      | none _ => cases hn
      | jump name _ =>
        obtain rfl := List.mem_singleton.1 hn
        simp [NameMap.contains]
    · exact contains_versions_annotate _ _ node hn

theorem mem_nodes (hn : g.node? v = some node) : node ∈ g.nodes :=
  List.mem_of_getElem? ((getElem?_nodes g v).trans hn)

theorem contains_liveVariables (node : FlowNode) (input : FactMap) :
    NameMap.contains (liveVariables.transfer node input) x = true ↔
      (NameMap.contains input x = true ∧ ¬ node.versions.contains x = true) ∨
        Block.ReadsFirst node.block.instrs x := by
  have htransfer : liveVariables.transfer node input =
      NameMap.insertAll (input.filter fun x _ => !node.versions.contains x)
        (node.block.exposed.map (·, Fact.live)) := rfl
  rw [htransfer, NameMap.contains_insertAll, NameMap.contains_filter, exists_and_right,
    ← NameMap.contains_iff, List.map_map]
  simp [Function.comp_def, Block.mem_exposed]

theorem marking_liveVariables (g : FlowGraph) :
    Worklist.Marking liveVariables g.graph.reverse g.varNames where
  merge := rfl
  live node m h := by
    refine (h.filter _).insertAll ?_
    simp
  mono node m n hle x hx := by
    rw [contains_liveVariables] at hx ⊢
    exact hx.imp_left (And.imp_left (hle x))
  known v node m hnode hknown x hx := by
    rw [contains_liveVariables] at hx
    rcases hx with hx | hx
    · exact hknown x hx.1
    · obtain ⟨i, hi, hx⟩ := hx.exists_arg
      exact mem_varNames (List.mem_map.2 ⟨node, mem_nodes hnode, rfl⟩) hi hx

/-- Whether some path leads from the start of a node to a block that reads the variable before it
assigns it, through blocks that do not assign it. -/
def ReadAhead (g : FlowGraph) (v : Nat) (x : String) : Prop :=
  ∃ w p c, g.graph.Path v w p ∧ g.blocks[w]? = some c ∧ Block.ReadsFirst c.instrs x ∧
    ∀ u ∈ p.dropLast, ∀ d, g.blocks[u]? = some d → x ∉ d.destinations

theorem ReadAhead.here {b : Block} (hb : g.blocks[v]? = some b) (hx : Block.ReadsFirst b.instrs x) :
    g.ReadAhead v x :=
  ⟨v, [v], b, .start (lt_size_iff.2 ⟨b, hb⟩), hb, hx, by simp⟩

theorem ReadAhead.later {b : Block} {w : Nat} (h : g.ReadAhead w x) (hw : w ∈ g.graph.succs v)
    (hb : g.blocks[v]? = some b) (hx : x ∉ b.destinations) : g.ReadAhead v x := by
  obtain ⟨z, p, c, hp, hc, hread, hpass⟩ := h
  refine ⟨z, v :: p, c, hp.cons hw (lt_size_iff.2 ⟨b, hb⟩), hc, hread, ?_⟩
  have hne : p ≠ [] := List.ne_nil_of_mem hp.mem_last
  rw [List.dropLast_cons_of_ne_nil hne]
  intro u hu d hd
  rcases List.mem_cons.1 hu with rfl | hu
  · rwa [← Option.some.inj (hb.symm.trans hd)]
  · exact hpass u hu d hd

/-- What holds where a variable is read first, and passes against the edges through blocks that do
not assign it, holds wherever it is read ahead. -/
theorem ReadAhead.induction {P : Nat → Prop} (h : g.ReadAhead v x)
    (hread : ∀ w c, g.blocks[w]? = some c → Block.ReadsFirst c.instrs x → P w)
    (hpass : ∀ u b w, g.blocks[u]? = some b → x ∉ b.destinations → w ∈ g.graph.succs u →
      P w → P u) : P v := by
  obtain ⟨w, p, c, hp, hc, hx, hnone⟩ := h
  have hw : P w := hread w c hc hx
  clear hc hx
  induction hp with
  | start _ => exact hw
  | @step u w p hp hsucc hlt ih =>
    rw [List.dropLast_concat] at hnone
    obtain ⟨b, hb⟩ := lt_size_iff.1 hp.lt
    exact ih (fun t ht => hnone t (List.mem_of_mem_dropLast ht))
      (hpass u b w hb (hnone u hp.mem_last b hb) hsucc hw)

theorem Built.exists_live (hg : g.Built) : ∃ results fuel st,
    g.solve liveVariables = .ok results ∧ g.Solves liveVariables results ∧
      Worklist.run liveVariables g.graph.reverse fuel (Worklist.start g.size) = some st ∧
      results.inputs = g.keyed st.outputs := by
  have hmark := marking_liveVariables g
  obtain ⟨results, hok⟩ := exists_marked hg.graph hg.nonempty hmark rfl
  obtain ⟨fuel, st, hrun, hin⟩ := exists_run_of_backward rfl hok
  have hlive : ∀ v : Nat, FactMap.AllLive (st.outputs[v]?.getD {}) := by
    apply Worklist.outputs_induction (P := fun _ m => FactMap.AllLive m)
      (fun _ => FactMap.allLive_empty) _ (by simp [FactMap.allLive_empty]) hrun
    intro outputs u node _ h
    exact hmark.live node _ (Worklist.allLive_incoming rfl _ h u)
  have hfrom : g.solveFrom? g.ids g.stateBound liveVariables = some (results, g) := by
    rw [solveFrom?_ids, solveWithin?_of_solve hok, Option.map_some]
  refine ⟨results, fuel, st, hok, (hg.solves (.refl _) hfrom fun v hv => ?_).2, hrun, hin⟩
  rw [show results.leaving liveVariables.direction = results.inputs from rfl, hin,
    hg.factsAt_keyed _ hv]
  exact (hlive v).nanFree

end FlowGraph

end FlowOpt
