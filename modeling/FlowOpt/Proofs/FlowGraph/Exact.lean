import FlowOpt.Proofs.Except
import FlowOpt.Proofs.FlowGraph.Targets

/-!
# What becomes of blocks, exactly

Blocks are refused because there are none, for the first name that stands a second time, or for the
first target that is no name, in this order. All others make a graph, and which one is said down to
the name of a block in front and the versions of every variable.
-/

namespace FlowOpt

def FirstRepeat {α : Type} (l : List α) (a : α) : Prop :=
  ∃ front back, l = front ++ a :: back ∧ front.Nodup ∧ a ∈ front

theorem firstRepeat?_eq_some {α : Type} [BEq α] [LawfulBEq α] {a : α} {l seen : List α} :
    firstRepeat? seen l = some a ↔ ∃ front back, l = front ++ a :: back ∧ front.Nodup ∧
      (∀ b ∈ front, b ∉ seen) ∧ (a ∈ seen ∨ a ∈ front) := by
  induction l generalizing seen with
  | nil => simp [firstRepeat?]
  | cons b l ih =>
    by_cases hb : b ∈ seen
    · rw [firstRepeat?_cons_of_mem hb]
      constructor
      · intro h
        obtain rfl := Option.some.inj h
        exact ⟨[], l, rfl, List.nodup_nil, by simp, .inl hb⟩
      · rintro ⟨front, back, hl, -, hseen, -⟩
        cases front with
        | nil => rw [(List.cons.inj hl).1]
        | cons c front =>
          obtain rfl := (List.cons.inj hl).1
          exact absurd hb (hseen b List.mem_cons_self)
    · rw [firstRepeat?_cons_of_not_mem hb, ih]
      constructor
      · rintro ⟨front, back, rfl, hnodup, hseen, ha⟩
        have hbf : b ∉ front := fun h => hseen b h List.mem_cons_self
        refine ⟨b :: front, back, rfl, List.nodup_cons.2 ⟨hbf, hnodup⟩, ?_, ?_⟩
        · rw [List.forall_mem_cons]
          exact ⟨hb, fun c hc h => hseen c hc (List.mem_cons_of_mem _ h)⟩
        · rw [List.mem_cons, or_assoc] at ha
          rw [List.mem_cons]
          tauto
      · rintro ⟨front, back, hl, hnodup, hseen, ha⟩
        cases front with
        | nil =>
          obtain rfl := (List.cons.inj hl).1
          exact absurd (ha.resolve_right List.not_mem_nil) hb
        | cons c front =>
          obtain ⟨rfl, rfl⟩ := List.cons.inj hl
          obtain ⟨hbf, hnodup⟩ := List.nodup_cons.1 hnodup
          refine ⟨front, back, rfl, hnodup, fun c hc h => ?_, ?_⟩
          · rcases List.mem_cons.1 h with rfl | h
            · exact hbf hc
            · exact hseen c (List.mem_cons_of_mem _ hc) h
          · rw [List.mem_cons] at ha ⊢
            tauto

theorem firstRepeat_iff {α : Type} [BEq α] [LawfulBEq α] {a : α} {l : List α} :
    firstRepeat? [] l = some a ↔ FirstRepeat l a := by
  rw [firstRepeat?_eq_some, FirstRepeat]
  simp

theorem firstRepeat_cons_iff {α : Type} {a x : α} {l : List α} (h : x ∉ l) :
    FirstRepeat (x :: l) a ↔ FirstRepeat l a := by
  constructor
  · rintro ⟨_ | ⟨c, front⟩, back, hl, hnodup, ha⟩
    · cases ha
    · obtain ⟨rfl, rfl⟩ := List.cons.inj hl
      refine ⟨front, back, rfl, hnodup.of_cons, ?_⟩
      refine (List.mem_cons.1 ha).resolve_left ?_
      rintro rfl
      exact h (by simp)
  · rintro ⟨front, back, rfl, hnodup, ha⟩
    refine ⟨x :: front, back, rfl, List.nodup_cons.2 ⟨?_, hnodup⟩, List.mem_cons_of_mem _ ha⟩
    exact fun hx => h (List.mem_append_left _ hx)

namespace FlowGraph

variable {blocks : List Block} {stem : String} {first : Block} {rest : List Block} {g : FlowGraph}
  {v w : Nat} {n : FlowNode} {block label : String}

def FirstUnknown (blocks : List Block) (block label : String) : Prop :=
  ∃ front b back known more, blocks = front ++ b :: back ∧ b.name = block ∧
    b.targets = known ++ label :: more ∧ label ∉ blocks.map (·.name) ∧
    (∀ c ∈ front, ∀ t ∈ c.targets, t ∈ blocks.map (·.name)) ∧
    ∀ t ∈ known, t ∈ blocks.map (·.name)

theorem unknownTarget?_eq_some {e : Error} : unknownTarget? blocks = some e ↔
    ∃ block label, FirstUnknown blocks block label ∧ e = .unknownLabel block label := by
  have hnone : ∀ c : Block, (c.targets.find? (!(blocks.map (·.name)).contains ·)).map
      (Error.unknownLabel c.name) = none ↔ ∀ t ∈ c.targets, t ∈ blocks.map (·.name) := by
    intro c
    rw [Option.map_eq_none_iff, List.find?_eq_none]
    simp
  rw [unknownTarget?, List.findSome?_eq_some_iff]
  constructor
  · rintro ⟨front, b, back, hblocks, he, hfront⟩
    obtain ⟨label, hfind, rfl⟩ := Option.map_eq_some_iff.1 he
    obtain ⟨hlabel, known, more, htargets, hknown⟩ := List.find?_eq_some_iff_append.1 hfind
    refine ⟨b.name, label, ⟨front, b, back, known, more, hblocks, rfl, htargets, ?_, ?_, ?_⟩, rfl⟩
    · simpa using hlabel
    · exact fun c hc => (hnone c).1 (hfront c hc)
    · simpa using hknown
  · rintro ⟨-, label, ⟨front, b, back, known, more, hblocks, rfl, htargets, hlabel, hfront, hknown⟩,
      rfl⟩
    refine ⟨front, b, back, hblocks, ?_, fun c hc => (hnone c).2 (hfront c hc)⟩
    have hfind : b.targets.find? (!(blocks.map (·.name)).contains ·) = some label := by
      refine List.find?_eq_some_iff_append.2 ⟨by simpa using hlabel, known, more, htargets, ?_⟩
      simpa using hknown
    rw [hfind]
    rfl

/-- A variable's version in a block counts the blocks before it that assign the variable. -/
theorem get?_versions_annotate {counts : NameMap Nat} (h : (annotate counts blocks)[v]? = some n)
    (x : String) : n.versions.get? x =
      if x ∈ n.block.destinations then
        some ((counts.get? x).getD 0 + (blocks.take v).countP (x ∈ ·.destinations))
      else none := by
  induction blocks generalizing counts v with
  | nil => cases h
  | cons b blocks ih =>
    have hmem : ∀ y, y ∈ b.definedVars ↔ y ∈ b.destinations := fun y => mem_distinct
    cases v with
    | zero =>
      obtain rfl := Option.some.inj h
      have hversions := NameMap.get?_insertAll_map .empty b.definedVars
        (fun y => (counts.get? y).getD 0) x
      rw [NameMap.get?_empty] at hversions
      simpa [NameMap.ofList, hmem] using hversions
    | succ v =>
      -- The counts behind `b` are one higher for what it assigns.
      have hcounts := NameMap.get?_insertAll_map counts b.definedVars
        (fun y => (counts.get? y).getD 0 + 1) x
      have hrest : (annotate (counts.insertAll
          (b.definedVars.map fun y => (y, (counts.get? y).getD 0 + 1))) blocks)[v]? = some n := by
        simpa [annotate, Function.comp_def] using h
      rw [ih hrest, hcounts, List.take_succ_cons, List.countP_cons]
      by_cases hx : x ∈ b.destinations
      · simp [hmem, hx, Nat.add_assoc, Nat.add_comm 1]
      · simp [hmem, hx]

/-- The graph of blocks, with a block in front where the first one is a target. -/
structure Depicts (g : FlowGraph) (stem : String) (blocks : List Block) : Prop where
  forward : g.reversed = false
  /-- The block in front is there just if something leads to the first one. It jumps there, and has
  the least number that is free. -/
  front : ∃ first rest, blocks = first :: rest ∧
    (((∀ b ∈ blocks, first.name ∉ b.targets) ∧ g.blocks = blocks) ∨
      ((∃ b ∈ blocks, first.name ∈ b.targets) ∧
        ∃ k, numbered stem k ∉ blocks.map (·.name) ∧
          (∀ i < k, numbered stem i ∈ blocks.map (·.name)) ∧
          g.blocks = .labeled (numbered stem k) [.jump first.name] :: blocks))
  synthetic : ∀ v n, g.node? v = some n → (n.synthetic = true ↔ n.block ∉ blocks)
  edges : ∀ v w, w ∈ g.graph.succs v ↔
    ∃ b c, g.blocks[v]? = some b ∧ g.blocks[w]? = some c ∧ c.name ∈ b.targets
  mirrored : ∀ v w, v ∈ g.graph.preds w ↔ w ∈ g.graph.succs v
  once : ∀ v, (g.graph.succs v).Nodup ∧ (g.graph.preds v).Nodup
  entry : g.graph.preds g.entry = []
  /-- A name belongs to one node and a node has one name. -/
  ids : ∀ name v, g.id? name = some v ↔ v < g.size ∧ g.nameOf v = name
  /-- Over the blocks that assign a variable its versions are 0, 1, 2 and so on. -/
  versions : ∀ v n x, g.node? v = some n → n.versions.get? x =
    if x ∈ n.block.destinations then some ((g.blocks.take v).countP (x ∈ ·.destinations)) else none

theorem entryNode?_cases (stem : String) (blocks : List Block) (first : Block) :
    ((∀ b ∈ blocks, first.name ∉ b.targets) ∧ entryNode? stem blocks first = none) ∨
      ((∃ b ∈ blocks, first.name ∈ b.targets) ∧
        ∃ k, numbered stem k ∉ blocks.map (·.name) ∧
          (∀ i < k, numbered stem i ∈ blocks.map (·.name)) ∧
          entryNode? stem blocks first =
            some ⟨.labeled (numbered stem k) [.jump first.name], {}, true⟩) := by
  unfold entryNode?
  split
  · next h =>
    obtain ⟨b, hb, ht⟩ := List.any_eq_true.1 h
    obtain ⟨-, hfree, hleast⟩ :=
      freshIndex_least (numbered_injective stem) (blocks.map (·.name)) 0
    exact .inr ⟨⟨b, hb, List.contains_iff_mem.1 ht⟩, _, hfree,
      fun i hi => hleast i (Nat.zero_le i) hi, rfl⟩
  · next h =>
    refine .inl ⟨fun b hb ht => h ?_, rfl⟩
    exact List.any_eq_true.2 ⟨b, hb, List.contains_iff_mem.2 ht⟩

theorem id?_eq_some_iff (hn : g.names.Nodup) (name : String) (v : Nat) :
    g.id? name = some v ↔ v < g.size ∧ g.nameOf v = name := by
  have hname : ∀ u, g.names[u]? = some name ↔ u < g.size ∧ g.nameOf u = name := by
    intro u
    rw [names_eq, List.getElem?_map, Option.map_eq_some_iff]
    constructor
    · rintro ⟨b, hb, rfl⟩
      exact ⟨lt_size_iff.2 ⟨b, hb⟩, nameOf_eq hb⟩
    · rintro ⟨hu, rfl⟩
      obtain ⟨b, hb⟩ := lt_size_iff.1 hu
      exact ⟨b, hb, (nameOf_eq hb).symm⟩
  rw [← hname, id?, List.idxOf?_eq_some_iff]
  constructor
  · rintro ⟨hlt, heq, -⟩
    rw [List.getElem?_eq_getElem hlt, heq]
  · intro h
    obtain ⟨hlt, heq⟩ := List.getElem?_eq_some_iff.1 h
    refine ⟨hlt, heq, fun u hu hname => ?_⟩
    have hsame : g.names[u] = g.names[v] := hname.trans heq.symm
    exact Nat.ne_of_lt hu ((hn.getElem_inj_iff).1 hsame)

theorem mem_of_mem_annotate {counts : NameMap Nat} (h : n ∈ annotate counts blocks) :
    n.block ∈ blocks := by
  rw [← map_block_annotate counts blocks]
  exact List.mem_map_of_mem h

theorem depicts_of_ofBlocks (h : ofBlocks blocks stem = .ok g) : g.Depicts stem blocks := by
  have hg := WellFormed.of_ofBlocks h
  obtain ⟨first, rest, hfirst, -, -, -, hgraph⟩ := ofBlocks_eq_ok h
  have hnodes := nodes_of_ofEdges hgraph
  have hblocks : g.blocks = (entryNode? stem blocks first).toList.map (·.block) ++ blocks := by
    rw [FlowGraph.blocks, hnodes, List.map_append, map_block_annotate]
  have hget : ∀ v n, g.node? v = some n →
      ((entryNode? stem blocks first).toList ++ annotate {} blocks)[v]? = some n := by
    intro v n hn
    rw [← hnodes, getElem?_nodes, hn]
  refine
    { forward := hg.forward
      front := ⟨first, rest, hfirst, ?_⟩
      synthetic := fun v n hn => ?_
      edges := hg.mem_succs
      mirrored := fun v w => (hg.graph.symmetric v w).symm
      once := fun v => ⟨hg.graph.succs_nodup v, hg.graph.preds_nodup v⟩
      entry := ?_
      ids := id?_eq_some_iff hg.names_nodup
      versions := fun v n x hn => ?_ }
  · rcases entryNode?_cases stem blocks first with
      ⟨hnot, hnone⟩ | ⟨htarget, k, hfree, hleast, hsome⟩
    · exact .inl ⟨hnot, by simp [hblocks, hnone]⟩
    · exact .inr ⟨htarget, k, hfree, hleast, by simp [hblocks, hsome]⟩
  · rcases List.mem_append.1 (List.mem_of_getElem? (hget v n hn)) with hmem | hmem
    · rcases entryNode?_cases stem blocks first with ⟨-, hnone⟩ | ⟨-, k, hfree, -, hsome⟩
      · simp [hnone] at hmem
      · obtain rfl : n = ⟨.labeled (numbered stem k) [.jump first.name], {}, true⟩ := by
          simpa [hsome] using hmem
        refine iff_of_true rfl fun hb => hfree ?_
        exact List.mem_map_of_mem (f := (·.name)) hb
    · refine iff_of_false ?_ fun hnot => hnot (mem_of_mem_annotate hmem)
      rw [synthetic_annotate {} blocks n hmem]
      exact Bool.false_ne_true
  · rw [List.eq_nil_iff_forall_not_mem]
    exact fun v hv => hg.entry_not_succ v ((hg.graph.symmetric v _).2 hv)
  · have hn' := hget v n hn
    rcases entryNode?_cases stem blocks first with ⟨-, hnone⟩ | ⟨-, k, -, -, hsome⟩
    · rw [hnone] at hn' hblocks
      rw [get?_versions_annotate hn', hblocks]
      simp [NameMap.get?_default]
    · rw [hsome] at hn' hblocks
      cases v with
      | zero =>
        obtain rfl := Option.some.inj hn'
        simp
      | succ v =>
        rw [get?_versions_annotate (v := v) hn', hblocks]
        simp

theorem ofBlocks_of_repeat {name : String} (h : FirstRepeat (blocks.map (·.name)) name) :
    ofBlocks blocks stem = .error (.duplicateBlock name) := by
  cases blocks with
  | nil =>
    obtain ⟨front, back, hnil, -⟩ := h
    simp at hnil
  | cons first rest =>
    have hrepeat : firstRepeat? [] ((first :: rest).map (·.name)) = some name := firstRepeat_iff.2 h
    unfold ofBlocks
    simp only [hrepeat]
    rfl

theorem ofBlocks_of_unknown (hn : (blocks.map (·.name)).Nodup)
    (h : FirstUnknown blocks block label) :
    ofBlocks blocks stem = .error (.unknownLabel block label) := by
  cases blocks with
  | nil =>
    obtain ⟨front, b, back, -, -, hnil, -⟩ := h
    simp at hnil
  | cons first rest =>
    rw [ofBlocks_cons hn, unknownTarget?_eq_some.2 ⟨block, label, h, rfl⟩]

/-- What comes of blocks: one of three refusals, each with its reason, or their graph. -/
inductive Construction (stem : String) (blocks : List Block) : Except Error FlowGraph → Prop
  | empty (h : blocks = []) : Construction stem blocks (.error .noBlocks)
  | repeated {name : String} (h : FirstRepeat (blocks.map (·.name)) name) :
      Construction stem blocks (.error (.duplicateBlock name))
  | unknown {block label : String} (hn : (blocks.map (·.name)).Nodup)
      (h : FirstUnknown blocks block label) :
      Construction stem blocks (.error (.unknownLabel block label))
  | made {g : FlowGraph} (hne : blocks ≠ []) (hn : (blocks.map (·.name)).Nodup)
      (ht : ∀ b ∈ blocks, ∀ t ∈ b.targets, t ∈ blocks.map (·.name))
      (hg : g.Depicts stem blocks) : Construction stem blocks (.ok g)

theorem construction (stem : String) (blocks : List Block) :
    Construction stem blocks (ofBlocks blocks stem) := by
  cases hblocks : blocks with
  | nil => exact .empty rfl
  | cons first rest =>
    rw [← hblocks]
    have hne : blocks ≠ [] := hblocks ▸ List.cons_ne_nil first rest
    by_cases hn : (blocks.map (·.name)).Nodup
    · by_cases ht : ∀ b ∈ blocks, ∀ t ∈ b.targets, t ∈ blocks.map (·.name)
      · obtain ⟨g, hg⟩ : ∃ g, ofBlocks blocks stem = .ok g := by
          subst hblocks
          exact ofBlocks_isOk hn ht
        rw [hg]
        exact .made hne hn ht (depicts_of_ofBlocks hg)
      · have hunknown : ∃ block label, FirstUnknown blocks block label := by
          cases he : unknownTarget? blocks with
          | none => exact absurd (unknownTarget?_eq_none he) ht
          | some e =>
            obtain ⟨block, label, h, -⟩ := unknownTarget?_eq_some.1 he
            exact ⟨block, label, h⟩
        obtain ⟨block, label, h⟩ := hunknown
        rw [ofBlocks_of_unknown hn h]
        exact .unknown hn h
    · have hrepeat : ∃ name, FirstRepeat (blocks.map (·.name)) name := by
        cases hr : firstRepeat? [] (blocks.map (·.name)) with
        | none => exact absurd (firstRepeat?_eq_none.1 hr).1 hn
        | some name => exact ⟨name, firstRepeat_iff.1 hr⟩
      obtain ⟨name, h⟩ := hrepeat
      rw [ofBlocks_of_repeat h]
      exact .repeated h

end FlowGraph

end FlowOpt
