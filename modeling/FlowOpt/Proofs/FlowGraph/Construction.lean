import FlowOpt.FlowGraph.Basic
import FlowOpt.Proofs.Graph.Digraph
import FlowOpt.Proofs.Names

/-!
# What a flow graph is made of

The nodes of a flow graph are the blocks it is made of, with at most one block put in front. Their
names differ, the edges are the targets, and nothing leads to the entry. Numbered names can be read
back: what stands before the last dot is the stem.
-/

namespace FlowOpt.FlowGraph

def stem (name : String) : String :=
  String.ofList ((name.toList.reverse.dropWhile (· != '.')).drop 1).reverse

theorem dot_not_mem_digits (n : Nat) : '.' ∉ (toString n).toList := by
  intro h
  have hdigits : '.' ∈ Nat.toDigits 10 n := Nat.toList_repr ▸ h
  exact absurd (Nat.isDigit_of_mem_toDigits (by decide) (by decide) hdigits) (by decide)

@[simp] theorem stem_numbered (x : String) (n : Nat) : stem (numbered x n) = x := by
  have hlist : (numbered x n).toList = x.toList ++ '.' :: (toString n).toList := by
    simp [numbered, String.toList_append]
  have hdrop : ∀ c ∈ (toString n).toList.reverse, (c != '.') = true := fun c hc =>
    bne_iff_ne.2 fun h => dot_not_mem_digits n (h ▸ List.mem_reverse.1 hc)
  rw [stem, hlist, List.reverse_append, List.reverse_cons, List.append_assoc,
    List.dropWhile_append_of_pos hdrop]
  simp

theorem numbered_inj {x y : String} {m n : Nat} :
    numbered x m = numbered y n ↔ x = y ∧ m = n := by
  constructor
  · intro h
    have hx : x = y := by rw [← stem_numbered x m, h, stem_numbered]
    subst hx
    have hdigits : toString m = toString n := by
      rw [← String.toList_inj] at h ⊢
      simpa [numbered, String.toList_append] using h
    exact ⟨rfl, Nat.repr_injective hdigits⟩
  · rintro ⟨rfl, rfl⟩
    rfl

theorem numbered_injective (x : String) (i j : Nat) (h : numbered x i = numbered x j) : i = j :=
  (numbered_inj.1 h).2

variable {g : FlowGraph} {blocks : List Block} {first : Block} {prefixName : String} {v w : Nat}

@[simp] theorem map_block_annotate (counts : NameMap Nat) (blocks : List Block) :
    (annotate counts blocks).map (·.block) = blocks := by
  induction blocks generalizing counts with
  | nil => rfl
  | cons b blocks ih => rw [annotate, List.map_cons, ih]

theorem synthetic_annotate (counts : NameMap Nat) (blocks : List Block) :
    ∀ n ∈ annotate counts blocks, n.synthetic = false := by
  induction blocks generalizing counts with
  | nil => simp [annotate]
  | cons b blocks ih =>
    rw [annotate]
    intro n hn
    rcases List.mem_cons.1 hn with rfl | hn
    · rfl
    · exact ih _ n hn

theorem unknownTarget?_eq_none (h : unknownTarget? blocks = none) :
    ∀ b ∈ blocks, ∀ t ∈ b.targets, t ∈ blocks.map (·.name) := by
  intro b hb t ht
  have hnone := List.findSome?_eq_none_iff.1 h b hb
  rw [Option.map_eq_none_iff, List.find?_eq_none] at hnone
  simpa using hnone t ht

theorem mem_edgesOf : (v, w) ∈ edgesOf blocks ↔
    ∃ b, blocks[v]? = some b ∧ ∃ t ∈ b.targets, (blocks.map (·.name)).idxOf t = w := by
  simp only [edgesOf, List.mem_flatMap, List.mem_map, Prod.exists, List.mem_zipIdx_iff_getElem?,
    Prod.mk.injEq]
  constructor
  · rintro ⟨b, i, hb, t, ht, rfl, rfl⟩
    exact ⟨b, hb, t, ht, rfl⟩
  · rintro ⟨b, hb, t, ht, rfl⟩
    exact ⟨b, v, hb, t, ht, rfl, rfl⟩

theorem idxOf_eq_iff {names : List String} (hn : names.Nodup) {t : String} (ht : t ∈ names) :
    names.idxOf t = w ↔ names[w]? = some t := by
  constructor
  · rintro rfl
    simp [ht]
  · intro h
    obtain ⟨hlt, rfl⟩ := List.getElem?_eq_some_iff.1 h
    exact hn.idxOf_getElem w hlt

inductive FrontOf (first : Block) (blocks : List Block) : List FlowNode → Prop
  | none (h : ∀ b ∈ blocks, first.name ∉ b.targets) : FrontOf first blocks []
  | jump (name : String) (h : name ∉ blocks.map (·.name)) :
      FrontOf first blocks [⟨.labeled name [.jump first.name], {}, true⟩]

theorem frontOf_entryNode? (prefixName : String) (first : Block) (blocks : List Block) :
    FrontOf first blocks (entryNode? prefixName blocks first).toList := by
  unfold entryNode?
  split
  · exact .jump _ (freshIndex_not_mem (numbered_injective prefixName) _ _)
  · next h =>
    refine .none fun b hb ht => h ?_
    rw [List.any_eq_true]
    exact ⟨b, hb, List.contains_iff_mem.2 ht⟩

theorem ofBlocks_eq_ok (h : ofBlocks blocks prefixName = .ok g) :
    ∃ first rest, blocks = first :: rest ∧ (blocks.map (·.name)).Nodup ∧
      (∀ b ∈ blocks, ∀ t ∈ b.targets, t ∈ blocks.map (·.name)) ∧ g.reversed = false ∧
      Digraph.ofEdges ((entryNode? prefixName blocks first).toList ++ annotate {} blocks)
        (edgesOf (((entryNode? prefixName blocks first).toList ++ annotate {} blocks).map
          (·.block))) = .ok g.graph := by
  cases blocks with
  | nil => simp [ofBlocks, throw, throwThe, MonadExceptOf.throw] at h
  | cons first rest =>
    unfold ofBlocks at h
    cases hrep : firstRepeat? [] ((first :: rest).map (·.name)) with
    | some name =>
      rw [hrep] at h
      simp [bind, Except.bind, throw, throwThe, MonadExceptOf.throw] at h
    | none =>
      cases hunk : unknownTarget? (first :: rest) with
      | some e =>
        rw [hrep, hunk] at h
        simp [bind, Except.bind, throw, throwThe, MonadExceptOf.throw] at h
      | none =>
        rw [hrep, hunk] at h
        simp only [bind, Except.bind, pure, Except.pure] at h
        split at h
        · cases h
        · next graph hgraph =>
          obtain rfl := Except.ok.inj h
          exact ⟨first, rest, rfl, (firstRepeat?_eq_none.1 hrep).1, unknownTarget?_eq_none hunk,
            rfl, hgraph⟩

theorem ofBlocks_ok (h : ofBlocks blocks prefixName = .ok g) :
    ∃ first rest front, blocks = first :: rest ∧ (blocks.map (·.name)).Nodup ∧
      (∀ b ∈ blocks, ∀ t ∈ b.targets, t ∈ blocks.map (·.name)) ∧ FrontOf first blocks front ∧
      g.reversed = false ∧
      Digraph.ofEdges (front ++ annotate {} blocks)
        (edgesOf ((front ++ annotate {} blocks).map (·.block))) = .ok g.graph := by
  obtain ⟨first, rest, hblocks, hnodup, hknown, hforward, hgraph⟩ := ofBlocks_eq_ok h
  exact ⟨first, rest, _, hblocks, hnodup, hknown, frontOf_entryNode? _ _ _, hforward, hgraph⟩

structure WellFormed (g : FlowGraph) : Prop where
  forward : g.reversed = false
  graph : g.graph.WellFormed
  nonempty : 0 < g.size
  names_nodup : g.names.Nodup
  targets_known : ∀ b ∈ g.blocks, ∀ t ∈ b.targets, t ∈ g.names
  mem_succs : ∀ v w, w ∈ g.graph.succs v ↔
    ∃ b c, g.blocks[v]? = some b ∧ g.blocks[w]? = some c ∧ c.name ∈ b.targets
  entry_not_succ : ∀ v, 0 ∉ g.graph.succs v

@[simp] theorem targets_labeled_jump (name target : String) :
    (Block.labeled name [.jump target]).targets = [target] := by
  simp [Block.targets, Block.labeled, Instruction.isBranch, Instruction.atLabel,
    Instruction.jump, distinct]

@[simp] theorem destinations_labeled_jump (name target : String) :
    (Block.labeled name [.jump target]).destinations = [] := by
  simp [Block.destinations, Block.labeled, Instruction.atLabel, Instruction.jump]

theorem mem_instrs_labeled_jump {name target : String} {i : Instruction} :
    i ∈ (Block.labeled name [.jump target]).instrs ↔ i = .atLabel name ∨ i = .jump target := by
  simp [Block.labeled]

theorem FrontOf.names_nodup {front : List FlowNode} (hf : FrontOf first blocks front)
    (hn : (blocks.map (·.name)).Nodup) :
    ((front.map (·.block) ++ blocks).map (·.name)).Nodup := by
  cases hf with
  | none _ => simpa using hn
  | jump name h =>
    rw [List.map_append, List.map_cons, List.map_nil, List.map_cons, List.map_nil,
      List.singleton_append, List.nodup_cons]
    exact ⟨h, hn⟩

theorem FrontOf.targets_known {front : List FlowNode} {rest : List Block}
    (hf : FrontOf first (first :: rest) front)
    (ht : ∀ b ∈ first :: rest, ∀ t ∈ b.targets, t ∈ (first :: rest).map (·.name)) :
    ∀ b ∈ front.map (·.block) ++ first :: rest, ∀ t ∈ b.targets,
      t ∈ (first :: rest).map (·.name) := by
  intro b hb t htb
  rcases List.mem_append.1 hb with hb | hb
  · cases hf with
    | none _ => simp at hb
    | jump name _ =>
      obtain rfl : b = Block.labeled name [.jump first.name] := by simpa using hb
      rw [targets_labeled_jump, List.mem_singleton] at htb
      simp [htb]
  · exact ht b hb t htb

/-- The block in front has a name that nothing targets, and without it nothing targets the first. -/
theorem FrontOf.head_not_target {front : List FlowNode} {rest : List Block} {b c : Block}
    (hf : FrontOf first (first :: rest) front)
    (ht : ∀ b ∈ front.map (·.block) ++ first :: rest, ∀ t ∈ b.targets,
      t ∈ (first :: rest).map (·.name))
    (hb : b ∈ front.map (·.block) ++ first :: rest)
    (hc : (front.map (·.block) ++ first :: rest)[0]? = some c) : c.name ∉ b.targets := by
  intro hmem
  cases hf with
  | none h =>
    obtain rfl : first = c := by simpa using hc
    exact h b (by simpa using hb) hmem
  | jump name h =>
    obtain rfl : Block.labeled name [.jump first.name] = c := by simpa using hc
    exact h (ht b hb name hmem)

theorem nodes_of_ofEdges {nodes : List FlowNode} {edges : List (Nat × Nat)}
    (h : Digraph.ofEdges nodes edges = .ok g.graph) : g.nodes = nodes := by
  rw [FlowGraph.nodes, (Digraph.ofEdges_ok h).2.1]

theorem nodes_of_ofBlocks (h : ofBlocks blocks prefixName = .ok g) :
    ∃ first rest front, blocks = first :: rest ∧ FrontOf first (first :: rest) front ∧
      g.nodes = front ++ annotate {} (first :: rest) := by
  obtain ⟨first, rest, front, rfl, -, -, hfront, -, hgraph⟩ := ofBlocks_ok h
  exact ⟨first, rest, front, rfl, hfront, nodes_of_ofEdges hgraph⟩

theorem blocks_of_ofBlocks (h : ofBlocks blocks prefixName = .ok g) :
    ∃ first rest front, blocks = first :: rest ∧ FrontOf first (first :: rest) front ∧
      g.blocks = front.map (·.block) ++ first :: rest := by
  obtain ⟨first, rest, front, hfirst, hfront, hnodes⟩ := nodes_of_ofBlocks h
  refine ⟨first, rest, front, hfirst, hfront, ?_⟩
  rw [FlowGraph.blocks, hnodes, List.map_append, map_block_annotate]

/-- A block of a graph is a block of the code, or it was put in front and only jumps. -/
theorem mem_blocks_cases {b : Block} (h : ofBlocks blocks prefixName = .ok g) (hb : b ∈ g.blocks) :
    b ∈ blocks ∨ ∃ name target, b = .labeled name [.jump target] := by
  obtain ⟨first, rest, front, rfl, hfront, hblocks⟩ := blocks_of_ofBlocks h
  rw [hblocks, List.mem_append] at hb
  rcases hb with hb | hb
  · cases hfront with
    | none _ => cases hb
    | jump name _ => exact .inr ⟨name, first.name, List.mem_singleton.1 hb⟩
  · exact .inl hb

theorem nodes_of_untargeted {rest : List Block} (h : ofBlocks (first :: rest) prefixName = .ok g)
    (hnot : ∀ b ∈ first :: rest, first.name ∉ b.targets) :
    g.nodes = annotate {} (first :: rest) := by
  obtain ⟨first', rest', heq, -, -, -, hgraph⟩ := ofBlocks_eq_ok h
  obtain ⟨rfl, rfl⟩ := List.cons.inj heq
  have hnone : entryNode? prefixName (first :: rest) first = none := by
    unfold entryNode?
    rw [if_neg]
    rw [List.any_eq_true]
    rintro ⟨b, hb, ht⟩
    exact hnot b hb (List.contains_iff_mem.1 ht)
  rw [nodes_of_ofEdges hgraph, hnone]
  rfl

theorem synthetic_eq_false (h : ofBlocks blocks prefixName = .ok g) (hv : v ≠ 0) :
    (g.node? v).any (·.synthetic) = false := by
  obtain ⟨first, rest, front, -, hfront, hnodes⟩ := nodes_of_ofBlocks h
  have hget : g.node? v = g.nodes[v]? := by
    simp [FlowGraph.node?, Digraph.node?, FlowGraph.nodes]
  have hlater : front.length ≤ v := by
    cases hfront with
    | none _ => exact Nat.zero_le v
    | jump name _ => exact Nat.one_le_iff_ne_zero.2 hv
  rw [hget, hnodes, List.getElem?_append_right hlater]
  cases hn : (annotate {} (first :: rest))[v - front.length]? with
  | none => rfl
  | some n => exact synthetic_annotate _ _ n (List.mem_of_getElem? hn)

theorem eq_zero_of_synthetic (h : ofBlocks blocks prefixName = .ok g)
    (hv : (g.node? v).any (·.synthetic) = true) : v = 0 := by
  by_contra hne
  rw [synthetic_eq_false h hne] at hv
  cases hv

theorem size_eq_length (g : FlowGraph) : g.size = g.blocks.length := by
  simp [FlowGraph.size, Digraph.size, FlowGraph.blocks, FlowGraph.nodes]

theorem lt_size_iff : v < g.size ↔ ∃ b, g.blocks[v]? = some b := by
  rw [size_eq_length]
  exact ⟨fun h => ⟨_, List.getElem?_eq_getElem h⟩, fun ⟨_, h⟩ => (List.getElem?_eq_some_iff.1 h).1⟩

theorem names_eq (g : FlowGraph) : g.names = g.blocks.map (·.name) := by
  rw [FlowGraph.names, FlowGraph.blocks, List.map_map]
  rfl

theorem map_block_node? (g : FlowGraph) (v : Nat) :
    (g.node? v).map (·.block) = g.blocks[v]? := by
  simp [FlowGraph.node?, Digraph.node?, FlowGraph.blocks, FlowGraph.nodes]

theorem nameOf_eq {b : Block} (hb : g.blocks[v]? = some b) : g.nameOf v = b.name := by
  obtain ⟨n, hn, rfl⟩ := Option.map_eq_some_iff.1 ((map_block_node? g v).trans hb)
  simp [nameOf, hn]

theorem WellFormed.of_ofBlocks (h : ofBlocks blocks prefixName = .ok g) : g.WellFormed := by
  obtain ⟨first, rest, front, rfl, hnodup, hknown, hfront, hrev, hgraph⟩ := ofBlocks_ok h
  obtain ⟨hw, hnodes, hsuccs⟩ := Digraph.ofEdges_ok hgraph
  have hblocks : g.blocks = front.map (·.block) ++ first :: rest := by
    rw [FlowGraph.blocks, nodes_of_ofEdges hgraph, List.map_append, map_block_annotate]
  have hnames := names_eq g
  have hknown' := hfront.targets_known hknown
  have hnames_nodup : g.names.Nodup := by
    rw [hnames, hblocks]
    exact hfront.names_nodup hnodup
  have htargets : ∀ b ∈ g.blocks, ∀ t ∈ b.targets, t ∈ g.names := fun b hb t ht => by
    rw [hnames, hblocks, List.map_append]
    exact List.mem_append_right _ (hknown' b (hblocks ▸ hb) t ht)
  have hmem : ∀ v w, w ∈ g.graph.succs v ↔
      ∃ b c, g.blocks[v]? = some b ∧ g.blocks[w]? = some c ∧ c.name ∈ b.targets := fun v w => by
    rw [hsuccs, List.map_append, map_block_annotate, ← hblocks, mem_edgesOf]
    constructor
    · rintro ⟨b, hb, t, ht, hidx⟩
      rw [← hnames, idxOf_eq_iff hnames_nodup (htargets b (List.mem_of_getElem? hb) t ht),
        hnames, List.getElem?_map, Option.map_eq_some_iff] at hidx
      obtain ⟨c, hc, rfl⟩ := hidx
      exact ⟨b, c, hb, hc, ht⟩
    · rintro ⟨b, c, hb, hc, ht⟩
      refine ⟨b, hb, c.name, ht, ?_⟩
      rw [← hnames, idxOf_eq_iff hnames_nodup (htargets b (List.mem_of_getElem? hb) _ ht),
        hnames, List.getElem?_map, hc]
      rfl
  refine ⟨hrev, hw, ?_, hnames_nodup, htargets, hmem, fun v hv => ?_⟩
  · rw [size_eq_length, hblocks]
    simp
  · obtain ⟨b, c, hb, hc, ht⟩ := (hmem v 0).1 hv
    exact hfront.head_not_target hknown' (hblocks ▸ List.mem_of_getElem? hb) (hblocks ▸ hc) ht

/-- A node is told by the name of its block. -/
theorem WellFormed.eq_of_name_eq (hg : g.WellFormed) {b c : Block} (hv : g.blocks[v]? = some b)
    (hw : g.blocks[w]? = some c) (hn : b.name = c.name) : v = w := by
  have hv' : g.names[v]? = some b.name := by rw [names_eq, List.getElem?_map, hv]; rfl
  have hw' : g.names[w]? = some b.name := by rw [names_eq, List.getElem?_map, hw, hn]; rfl
  have hlt : v < g.names.length := (List.getElem?_eq_some_iff.1 hv').1
  exact (List.getElem?_inj hlt hg.names_nodup).1 (hv'.trans hw'.symm)

theorem WellFormed.mem_succs_iff (hg : g.WellFormed) {b c : Block} (hv : g.blocks[v]? = some b)
    (hw : g.blocks[w]? = some c) : w ∈ g.graph.succs v ↔ c.name ∈ b.targets := by
  rw [hg.mem_succs]
  constructor
  · rintro ⟨b', c', hv', hw', ht⟩
    rwa [Option.some.inj (hv.symm.trans hv'), Option.some.inj (hw.symm.trans hw')]
  · exact fun ht => ⟨b, c, hv, hw, ht⟩

theorem WellFormed.mem_succs_of_target (hg : g.WellFormed) {b c : Block} {u : Nat}
    (hv : g.blocks[v]? = some b) (hw : g.blocks[w]? = some c)
    (ht : ∀ t, t ∈ b.targets ↔ t = c.name) : u ∈ g.graph.succs v ↔ u = w := by
  constructor
  · intro hu
    obtain ⟨b', d, hv', hd, hmem⟩ := (hg.mem_succs v u).1 hu
    obtain rfl := Option.some.inj (hv.symm.trans hv')
    exact hg.eq_of_name_eq hd hw ((ht _).1 hmem)
  · rintro rfl
    exact (hg.mem_succs_iff hv hw).2 ((ht _).2 rfl)

theorem WellFormed.nameOf_inj (hg : g.WellFormed) (hv : v < g.size) (hw : w < g.size)
    (hn : g.nameOf v = g.nameOf w) : v = w := by
  obtain ⟨b, hb⟩ := lt_size_iff.1 hv
  obtain ⟨c, hc⟩ := lt_size_iff.1 hw
  rw [nameOf_eq hb, nameOf_eq hc] at hn
  exact hg.eq_of_name_eq hb hc hn

theorem getElem?_nodes (g : FlowGraph) (v : Nat) : g.nodes[v]? = g.node? v := by
  simp [FlowGraph.node?, Digraph.node?, FlowGraph.nodes]

theorem mem_iff_own {b : Block} (h : ofBlocks blocks prefixName = .ok g) :
    b ∈ blocks ↔ ∃ v, g.blocks[v]? = some b ∧ (g.node? v).any (·.synthetic) = false := by
  obtain ⟨first, rest, front, rfl, hfront, hnodes⟩ := nodes_of_ofBlocks h
  have hfrontNode : ∀ n ∈ front, n.synthetic = true := by
    cases hfront <;> simp
  constructor
  · intro hb
    rw [← map_block_annotate {} (first :: rest), List.mem_map] at hb
    obtain ⟨n, hn, rfl⟩ := hb
    have hown := synthetic_annotate {} (first :: rest) n hn
    obtain ⟨v, hv⟩ := List.mem_iff_getElem?.1 (hnodes ▸ List.mem_append_right front hn)
    rw [getElem?_nodes] at hv
    exact ⟨v, by rw [← map_block_node?, hv, Option.map_some], by rw [hv, Option.any_some, hown]⟩
  · rintro ⟨v, hv, hown⟩
    obtain ⟨n, hn, rfl⟩ := Option.map_eq_some_iff.1 ((map_block_node? g v).trans hv)
    rw [hn, Option.any_some] at hown
    rw [← getElem?_nodes, hnodes] at hn
    rcases List.mem_append.1 (List.mem_of_getElem? hn) with hn | hn
    · rw [hfrontNode n hn] at hown
      cases hown
    · rw [← map_block_annotate {} (first :: rest)]
      exact List.mem_map_of_mem hn

def Leads (g : FlowGraph) (a c : String) : Prop :=
  ∃ v w b, g.blocks[v]? = some b ∧ (g.node? v).any (·.synthetic) = false ∧ b.name = a ∧
    w ∈ g.graph.succs v ∧ g.nameOf w = c

theorem leads_iff {a c : String} (h : ofBlocks blocks prefixName = .ok g) :
    g.Leads a c ↔ ∃ b ∈ blocks, b.name = a ∧ c ∈ b.targets := by
  have hg := WellFormed.of_ofBlocks h
  constructor
  · rintro ⟨v, w, b, hv, hown, rfl, hw, rfl⟩
    obtain ⟨b', d, hv', hd, ht⟩ := (hg.mem_succs v w).1 hw
    obtain rfl := Option.some.inj (hv.symm.trans hv')
    exact ⟨b, (mem_iff_own h).2 ⟨v, hv, hown⟩, rfl, nameOf_eq hd ▸ ht⟩
  · rintro ⟨b, hb, rfl, ht⟩
    obtain ⟨v, hv, hown⟩ := (mem_iff_own h).1 hb
    obtain ⟨d, hd, rfl⟩ : ∃ d ∈ g.blocks, d.name = c :=
      List.mem_map.1 (names_eq g ▸ hg.targets_known b (List.mem_of_getElem? hv) c ht)
    obtain ⟨w, hw⟩ := List.mem_iff_getElem?.1 hd
    exact ⟨v, w, b, hv, hown, rfl, (hg.mem_succs v w).2 ⟨b, d, hv, hw, ht⟩, nameOf_eq hw⟩

/-- The graphs there are: made of blocks, with the edges turned round any number of times. -/
inductive Built : FlowGraph → Prop
  | ofBlocks {g : FlowGraph} {blocks : List Block} {stem : String}
      (h : FlowGraph.ofBlocks blocks stem = .ok g) : Built g
  | turned {g : FlowGraph} (h : Built g) : Built g.switchDirections

theorem Built.graph (h : g.Built) : g.graph.WellFormed := by
  induction h with
  | ofBlocks h => exact (WellFormed.of_ofBlocks h).graph
  | turned _ ih => exact ih.reverse

theorem Built.names_nodup (h : g.Built) : g.names.Nodup := by
  induction h with
  | ofBlocks h => exact (WellFormed.of_ofBlocks h).names_nodup
  | turned _ ih => exact ih

theorem Built.nonempty (h : g.Built) : 0 < g.size := by
  induction h with
  | ofBlocks h => exact (WellFormed.of_ofBlocks h).nonempty
  | turned _ ih => exact ih

end FlowOpt.FlowGraph
