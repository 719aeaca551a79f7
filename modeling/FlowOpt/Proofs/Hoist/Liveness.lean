import FlowOpt.Hoist.EdgeLiveness
import FlowOpt.Proofs.Dataflow.Worklist

/-!
# What is live

A variable is live at a point of a block if it is read behind it before it is assigned, or not
assigned in the rest of the block and live at the end. What the analysis ends with contains, for the
start of every block, all that is live there.
-/

namespace FlowOpt

namespace NameMap

variable {β : Type} [BEq β] {m n : NameMap β} {x : String}

theorem map_fst_eq_of_beq {l l' : List (String × β)} (h : (l == l') = true) :
    l.map (·.1) = l'.map (·.1) := by
  induction l generalizing l' with
  | nil =>
    cases l' with
    | nil => rfl
    | cons e l' => cases h
  | cons e l ih =>
    cases l' with
    | nil => cases h
    | cons e' l' =>
      obtain ⟨hname, -, hl⟩ := cons_beq_cons_iff.1 h
      rw [List.map_cons, List.map_cons, hname, ih hl]

omit [BEq β] in
theorem contains_iff_mem_keys : m.contains x = true ↔ x ∈ m.keys := by
  rw [contains_iff, mem_keys_iff]

/-- Mappings that compare equal have the same names. -/
theorem contains_eq_of_beq (h : (m == n) = true) : m.contains x = true ↔ n.contains x = true := by
  have hkeys : m.keys = n.keys := map_fst_eq_of_beq h
  rw [contains_iff_mem_keys, contains_iff_mem_keys, hkeys]

end NameMap

theorem FactMap.contains_union {maps : List FactMap} {x : String} :
    NameMap.contains (FactMap.union maps) x = true ↔ ∃ m ∈ maps, NameMap.contains m x = true := by
  have hfold : ∀ (maps : List FactMap) (merged : FactMap),
      (maps.foldl (fun merged m => NameMap.insertAll merged m.entries) merged).contains x = true ↔
        merged.contains x = true ∨ ∃ m ∈ maps, NameMap.contains m x = true := by
    intro maps
    induction maps with
    | nil => simp
    | cons m maps ih =>
      intro merged
      have hkeys : x ∈ m.entries.map (·.1) ↔ NameMap.contains m x = true :=
        NameMap.contains_iff_mem_keys.symm
      rw [List.foldl_cons, ih, NameMap.contains_insertAll, hkeys, List.exists_mem_cons_iff,
        or_assoc]
  rw [FactMap.union, hfold]
  simp [NameMap.contains]

def LiveFrom (after : String → Prop) : List Instruction → String → Prop
  | [], x => after x
  | i :: rest, x => (LiveFrom after rest x ∧ i.dest ≠ some x) ∨ (i.isPhi = false ∧ x ∈ i.args)

variable {after : String → Prop} {x : String} {i : Instruction} {rest instrs : List Instruction}

theorem LiveFrom.of_cons (h : LiveFrom after rest x) (hd : i.dest ≠ some x) :
    LiveFrom after (i :: rest) x := .inl ⟨h, hd⟩

theorem LiveFrom.of_arg (hx : x ∈ i.args) (hp : i.isPhi = false) :
    LiveFrom after (i :: rest) x := .inr ⟨hp, hx⟩

theorem LiveFrom.of_append {before : List Instruction} (h : LiveFrom after rest x)
    (hd : ∀ i ∈ before, i.dest ≠ some x) : LiveFrom after (before ++ rest) x := by
  induction before with
  | nil => exact h
  | cons i before ih =>
    exact (ih fun j hj => hd j (List.mem_cons_of_mem _ hj)).of_cons (hd i List.mem_cons_self)

theorem LiveFrom.mono {after' : String → Prop} (h : LiveFrom after instrs x)
    (hle : ∀ x, after x → after' x) : LiveFrom after' instrs x := by
  induction instrs with
  | nil => exact hle x h
  | cons i instrs ih => exact h.imp_left fun h => ⟨ih h.1, h.2⟩

theorem LiveFrom.or {after' : String → Prop}
    (h : LiveFrom (fun x => after x ∨ after' x) instrs x) :
    LiveFrom after instrs x ∨ after' x := by
  induction instrs with
  | nil => exact h
  | cons i rest ih =>
    rcases h with ⟨h, hd⟩ | harg
    · exact (ih h).imp_left fun h => .inl ⟨h, hd⟩
    · exact .inl (.inr harg)

theorem liveFrom_map {f : Instruction → Instruction} (hd : ∀ i, (f i).dest = i.dest)
    (ha : ∀ i, (f i).args = i.args) (hp : ∀ i, (f i).isPhi = i.isPhi) :
    LiveFrom after (instrs.map f) x ↔ LiveFrom after instrs x := by
  induction instrs with
  | nil => rfl
  | cons i rest ih => simp only [List.map_cons, LiveFrom, hd, ha, hp, ih]

theorem LiveFrom.cases (h : LiveFrom after instrs x) : after x ∨ ∃ i ∈ instrs, x ∈ i.args := by
  induction instrs with
  | nil => exact .inl h
  | cons i instrs ih =>
    rcases h with ⟨h, -⟩ | ⟨-, hx⟩
    · exact (ih h).imp_right fun ⟨j, hj, hx⟩ => ⟨j, List.mem_cons_of_mem _ hj, hx⟩
    · exact .inr ⟨i, List.mem_cons_self, hx⟩

theorem contains_liveBefore (live : FactMap) : (i.liveBefore live).contains x = true ↔
    (NameMap.contains live x = true ∧ i.dest ≠ some x) ∨ (i.isPhi = false ∧ x ∈ i.args) := by
  have hfilter : (NameMap.filter (fun x _ => i.dest != some x) live).contains x = true ↔
      NameMap.contains live x = true ∧ i.dest ≠ some x := by
    rw [NameMap.contains_filter, NameMap.contains_iff]
    constructor
    · rintro ⟨a, ha, hd⟩
      exact ⟨⟨a, ha⟩, bne_iff_ne.1 hd⟩
    · rintro ⟨⟨a, ha⟩, hd⟩
      exact ⟨a, ha, bne_iff_ne.2 hd⟩
  unfold Instruction.liveBefore
  split
  · next hp => simp [hfilter, hp]
  · next hp =>
    rw [NameMap.contains_insertAll, hfilter, List.map_map]
    simp [hp, Function.comp_def]

theorem contains_foldr_liveBefore (instrs : List Instruction) (live : FactMap) :
    (instrs.foldr Instruction.liveBefore live).contains x = true ↔
      LiveFrom (fun x => NameMap.contains live x = true) instrs x := by
  induction instrs generalizing x with
  | nil => rfl
  | cons i instrs ih => rw [List.foldr_cons, contains_liveBefore, ih, LiveFrom]

theorem Worklist.Settled.contains_iff {a : Analysis} {graph : Digraph FlowNode}
    {outputs : Array FactMap} {v : Nat} {node : FlowNode} (h : Settled a graph outputs v)
    (hn : graph.node? v = some node) : NameMap.contains (outputs[v]?.getD {}) x = true ↔
      NameMap.contains (a.transfer node (incoming a graph outputs v)) x = true := by
  rcases h node hn with heq | heq
  · rw [heq, Option.getD_some]
  · cases ho : outputs[v]? with
    | none => simp [ho] at heq
    | some m =>
      rw [ho] at heq
      exact NameMap.contains_eq_of_beq heq

namespace FlowGraph

variable {g : FlowGraph} {live : Results} {v : Nat} {b : Block}

theorem mem_phiReads {name : String} (hb : b ∈ g.blocks) (hi : i ∈ b.instrs)
    (hl : i.isLabel = false) (hp : i.isPhi = true) (hx : (x, name) ∈ i.args.zip i.labels) :
    x ∈ g.phiReads name := by
  have hphi : i ∈ g.blocks.flatMap fun b => b.operations.filter (·.isPhi) := by
    refine List.mem_flatMap.2 ⟨b, hb, List.mem_filter.2 ⟨?_, hp⟩⟩
    exact List.mem_filter.2 ⟨hi, by simp [hl]⟩
  exact List.mem_filterMap.2 ⟨(x, name), List.mem_flatMap.2 ⟨i, hphi, hx⟩, if_pos rfl⟩

theorem exists_of_mem_phiReads {name : String} (hx : x ∈ g.phiReads name) :
    ∃ b ∈ g.blocks, ∃ i ∈ b.instrs, i.isPhi = true ∧ x ∈ i.args := by
  obtain ⟨⟨y, label⟩, hp, heq⟩ := List.mem_filterMap.1 hx
  obtain ⟨i, hi, hzip⟩ := List.mem_flatMap.1 hp
  obtain ⟨b, hb, hi⟩ := List.mem_flatMap.1 hi
  obtain ⟨hi, hphi⟩ := List.mem_filter.1 hi
  obtain ⟨-, rfl⟩ : label = name ∧ y = x := by simpa using heq
  exact ⟨b, hb, i, (List.mem_filter.1 hi).1, hphi, (List.of_mem_zip hzip).1⟩

theorem contains_edgeLiveness (node : FlowNode) (input : FactMap) :
    NameMap.contains ((edgeLiveness g).transfer node input) x = true ↔
      LiveFrom (fun x => NameMap.contains input x = true ∨ x ∈ g.phiReads node.block.name)
        node.block.instrs x := by
  have htransfer : (edgeLiveness g).transfer node input =
      node.block.instrs.foldr Instruction.liveBefore
        (NameMap.insertAll input ((g.phiReads node.block.name).map (·, Fact.live))) := rfl
  have hnames : ∀ y, NameMap.contains (NameMap.insertAll input
      ((g.phiReads node.block.name).map (·, Fact.live))) y = true ↔
      NameMap.contains input y = true ∨ y ∈ g.phiReads node.block.name := by
    intro y
    rw [NameMap.contains_insertAll, List.map_map]
    simp [Function.comp_def]
  rw [htransfer, contains_foldr_liveBefore]
  simp only [hnames]

def LiveIn (g : FlowGraph) (live : Results) (v : Nat) (x : String) : Prop :=
  NameMap.contains ((live.inputs.get? (g.nameOf v)).getD {}) x = true

/-- Whether a variable is live at the end of a node: at the start of a successor, or since a phi
reads it there. -/
def LiveOut (g : FlowGraph) (live : Results) (v : Nat) (x : String) : Prop :=
  (∃ w ∈ g.graph.succs v, g.LiveIn live w x) ∨ x ∈ g.phiReads (g.nameOf v)

theorem contains_incoming (a : Analysis) (ha : a.merge = .union) (graph : Digraph FlowNode)
    (outputs : Array FactMap) (v : Nat) :
    NameMap.contains (Worklist.incoming a graph outputs v) x = true ↔
      ∃ p ∈ graph.preds v, NameMap.contains (outputs[p]?.getD {}) x = true := by
  unfold Worklist.incoming
  split
  · next hp =>
    rw [ha, FactMap.contains_union, hp]
    simp [NameMap.contains]
  · rw [ha, FactMap.contains_union]
    simp

/-- The analysis leaves nothing out that is live at the start of a block. -/
theorem liveIn_of_liveFrom (hg : g.WellFormed) (h : g.solve (edgeLiveness g) = .ok live)
    (hb : g.blocks[v]? = some b) (hx : LiveFrom (g.LiveOut live v) b.instrs x) :
    g.LiveIn live v x := by
  obtain ⟨outputs, hsettled, hinputs⟩ := exists_outputs_of_backward hg rfl h
  have hlive : ∀ w ∈ g.graph.succs v, ∀ y, g.LiveIn live w y →
      NameMap.contains (outputs[w]?.getD {}) y = true := by
    intro w hw y hy
    obtain ⟨c, hc⟩ : ∃ c, g.blocks[w]? = some c := by
      obtain ⟨b, c, -, hc, -⟩ := (hg.mem_succs v w).1 hw
      exact ⟨c, hc⟩
    rwa [LiveIn, nameOf_eq hc, hinputs w c hc, Option.getD_some] at hy
  rw [LiveIn, nameOf_eq hb, hinputs v b hb, Option.getD_some]
  obtain ⟨node, hnode, rfl⟩ := Option.map_eq_some_iff.1 ((map_block_node? g v).trans hb)
  have hout : NameMap.contains ((edgeLiveness g).transfer node
      (Worklist.incoming (edgeLiveness g) g.graph.reverse outputs v)) x = true := by
    rw [contains_edgeLiveness]
    apply hx.mono
    rintro y (⟨w, hw, hy⟩ | hy)
    · exact .inl ((contains_incoming _ rfl _ _ _).2 ⟨w, hw, hlive w hw y hy⟩)
    · exact .inr (nameOf_eq hb ▸ hy)
  exact ((hsettled v).contains_iff hnode).2 hout

/-- What is live behind a block that does not assign it is live before it. -/
theorem LiveIn.of_succ {w : Nat} (hg : g.WellFormed) (h : g.solve (edgeLiveness g) = .ok live)
    (hw : w ∈ g.graph.succs v) (hb : g.blocks[v]? = some b)
    (hd : ∀ i ∈ b.instrs, i.dest ≠ some x) (hx : g.LiveIn live w x) : g.LiveIn live v x := by
  apply liveIn_of_liveFrom hg h hb
  have hend : LiveFrom (g.LiveOut live v) [] x := .inl ⟨w, hw, hx⟩
  exact List.append_nil b.instrs ▸ hend.of_append hd

/-- The analysis finds nothing but what is live: whatever passes from the start of a node to those
before it, and holds where a variable is read first, holds wherever a variable is live. -/
theorem LiveIn.induction (hg : g.WellFormed) (h : g.solve (edgeLiveness g) = .ok live)
    {P : Nat → String → Prop}
    (hstep : ∀ v b x, g.blocks[v]? = some b →
      LiveFrom (fun y => (∃ w ∈ g.graph.succs v, g.LiveIn live w y ∧ P w y) ∨
        y ∈ g.phiReads b.name) b.instrs x → P v x)
    (hb : g.blocks[v]? = some b) (hx : g.LiveIn live v x) : P v x := by
  obtain ⟨fuel, st, hrun, hinputs⟩ := exists_run_of_backward rfl h
  have hout := Worklist.outputs_induction
    (P := fun u m => ∀ x, NameMap.contains m x = true → g.LiveIn live u x ∧ P u x)
    (by simp [NameMap.contains]) ?_ (by simp [NameMap.contains]) hrun v
  · rw [LiveIn, nameOf_eq hb, hinputs, get?_keyed hg.names_nodup st.outputs hb,
      Option.getD_some] at hx
    exact (hout x hx).2
  · intro outputs u node hnode hP y hy
    have hu : g.blocks[u]? = some node.block := by
      rw [← map_block_node?]
      exact congrArg (Option.map (·.block)) hnode
    rw [contains_edgeLiveness] at hy
    have hfrom : LiveFrom (fun y => (∃ w ∈ g.graph.succs u, g.LiveIn live w y ∧ P w y) ∨
        y ∈ g.phiReads node.block.name) node.block.instrs y := by
      apply hy.mono
      intro z hz
      refine hz.imp_left fun hz => ?_
      obtain ⟨w, hw, hz⟩ := (contains_incoming _ rfl _ _ _).1 hz
      exact ⟨w, hw, hP w z hz⟩
    refine ⟨liveIn_of_liveFrom hg h hu (hfrom.mono fun z hz => ?_), hstep u _ y hu hfrom⟩
    rw [LiveOut, nameOf_eq hu]
    refine hz.imp_left fun hz => ?_
    obtain ⟨w, hw, hz, -⟩ := hz
    exact ⟨w, hw, hz⟩

end FlowGraph

end FlowOpt
