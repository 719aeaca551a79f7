import FlowOpt.Proofs.FlowGraph.Construction
import FlowOpt.Proofs.Split

/-!
# Which labels resolve

A graph is made of code that holds something, has no label twice and names in its jumps and branches
only names of blocks. Those are the labels and the fresh name of what stands in front of the first
label, so a jump may name that as well. Code fails with the first of these that it lacks.
-/

namespace FlowOpt

namespace FlowGraph

variable {blocks : List Block} {stem : String} {first : Block} {rest : List Block}

theorem edgesOf_lt (ht : ∀ b ∈ blocks, ∀ t ∈ b.targets, t ∈ blocks.map (·.name)) :
    ∀ e ∈ edgesOf blocks, e.1 < blocks.length ∧ e.2 < blocks.length := by
  rintro ⟨v, w⟩ he
  obtain ⟨b, hb, t, htb, rfl⟩ := mem_edgesOf.1 he
  refine ⟨(List.getElem?_eq_some_iff.1 hb).1, ?_⟩
  rw [← List.length_map (·.name)]
  exact List.idxOf_lt_length_of_mem (ht b (List.mem_of_getElem? hb) t htb)

theorem ofBlocks_cons (hn : ((first :: rest).map (·.name)).Nodup) :
    ofBlocks (first :: rest) stem =
      match unknownTarget? (first :: rest) with
      | some e => .error e
      | none =>
        let nodes := (entryNode? stem (first :: rest) first).toList ++ annotate {} (first :: rest)
        (Digraph.ofEdges nodes (edgesOf (nodes.map (·.block)))).map
          fun graph => ⟨graph, false⟩ := by
  have hrepeat : firstRepeat? [] ((first :: rest).map (·.name)) = none :=
    firstRepeat?_eq_none.2 ⟨hn, fun _ _ => List.not_mem_nil⟩
  unfold ofBlocks
  simp only [hrepeat]
  cases unknownTarget? (first :: rest) with
  | some e => rfl
  | none =>
    simp only [bind, Except.bind, pure, Except.pure, Except.map]

/-- Blocks with different names make a graph if they target only names of theirs. -/
theorem ofBlocks_isOk (hn : ((first :: rest).map (·.name)).Nodup)
    (ht : ∀ b ∈ first :: rest, ∀ t ∈ b.targets, t ∈ (first :: rest).map (·.name)) :
    ∃ g, ofBlocks (first :: rest) stem = .ok g := by
  have hnone : unknownTarget? (first :: rest) = none := by
    rw [unknownTarget?, List.findSome?_eq_none_iff]
    intro b hb
    rw [Option.map_eq_none_iff, List.find?_eq_none]
    intro t htb
    rw [List.contains_iff_mem.2 (ht b hb t htb)]
    exact Bool.false_ne_true
  have hfront := frontOf_entryNode? stem first (first :: rest)
  generalize hnodes : (entryNode? stem (first :: rest) first).toList = front at hfront
  have hblocks : (front ++ annotate {} (first :: rest)).map (·.block) =
      front.map (·.block) ++ first :: rest := by
    rw [List.map_append, map_block_annotate]
  have hknown : ∀ b ∈ front.map (·.block) ++ first :: rest, ∀ t ∈ b.targets,
      t ∈ (front.map (·.block) ++ first :: rest).map (·.name) := by
    intro b hb t htb
    rw [List.map_append]
    exact List.mem_append_right _ (hfront.targets_known ht b hb t htb)
  have hlt := edgesOf_lt hknown
  rw [← hblocks, List.length_map] at hlt
  obtain ⟨graph, hgraph⟩ := Digraph.ofEdges_isOk hlt
  refine ⟨⟨graph, false⟩, ?_⟩
  rw [ofBlocks_cons hn, hnone]
  simp only [hnodes, hgraph]
  rfl

/-- Otherwise they are refused for a target that is none. -/
theorem ofBlocks_unknownLabel (hn : ((first :: rest).map (·.name)).Nodup)
    (ht : ¬ ∀ b ∈ first :: rest, ∀ t ∈ b.targets, t ∈ (first :: rest).map (·.name)) :
    ∃ b ∈ first :: rest, ∃ t ∈ b.targets, t ∉ (first :: rest).map (·.name) ∧
      ofBlocks (first :: rest) stem = .error (.unknownLabel b.name t) := by
  cases hunknown : unknownTarget? (first :: rest) with
  | none => exact absurd (unknownTarget?_eq_none hunknown) ht
  | some e =>
    obtain ⟨b, hb, he⟩ := List.exists_of_findSome?_eq_some hunknown
    obtain ⟨t, hfind, rfl⟩ := Option.map_eq_some_iff.1 he
    refine ⟨b, hb, t, List.mem_of_find?_eq_some hfind, ?_, ?_⟩
    · simpa using List.find?_some hfind
    · rw [ofBlocks_cons hn, hunknown]

end FlowGraph

namespace Block

variable {instrs : List Instruction} {blocks : List Block} {t : String}

def named (instrs : List Instruction) : List String :=
  (instrs.filter (·.isBranch)).flatMap (·.labels)

theorem mem_targets {b : Block} :
    t ∈ b.targets ↔ ∃ i ∈ b.instrs, i.isBranch = true ∧ t ∈ i.labels := by
  simp [targets, and_assoc]

theorem mem_named_flatten : t ∈ named (flatten blocks) ↔ ∃ b ∈ blocks, t ∈ b.targets := by
  simp only [named, flatten, targets, mem_distinct, List.mem_flatMap, List.mem_filter]
  constructor
  · rintro ⟨i, ⟨⟨b, hb, hi⟩, hbranch⟩, ht⟩
    exact ⟨b, hb, i, ⟨hi, hbranch⟩, ht⟩
  · rintro ⟨b, hb, i, ⟨hi, hbranch⟩, ht⟩
    exact ⟨i, ⟨⟨b, hb, hi⟩, hbranch⟩, ht⟩

def Resolves (instrs : List Instruction) : Prop :=
  ∀ t ∈ named instrs, t ∈ declared instrs ∨ frontName? instrs = some t

theorem resolves_iff (h : split instrs = .ok blocks) :
    Resolves instrs ↔ ∀ b ∈ blocks, ∀ t ∈ b.targets, t ∈ blocks.map (·.name) := by
  have hnames : ∀ t,
      t ∈ blocks.map (·.name) ↔ t ∈ declared instrs ∨ frontName? instrs = some t := by
    intro t
    rw [names_split h, List.mem_append, Option.mem_toList, or_comm]
  have hnamed : ∀ t, t ∈ named instrs ↔ ∃ b ∈ blocks, t ∈ b.targets := fun t => by
    rw [← flatten_split h]
    exact mem_named_flatten
  constructor
  · intro hr b hb t ht
    exact (hnames t).2 (hr t ((hnamed t).2 ⟨b, hb, ht⟩))
  · intro hr t ht
    obtain ⟨b, hb, ht⟩ := (hnamed t).1 ht
    exact (hnames t).1 (hr b hb t ht)

end Block

namespace FlowGraph

open Block

variable {instrs : List Instruction}

theorem ofInstructions_nil : ofInstructions [] = .error .noBlocks := rfl

theorem ofInstructions_of_repeated (h : ¬ (declared instrs).Nodup) :
    ∃ name, ofInstructions instrs = .error (.duplicateBlock name) := by
  unfold ofInstructions
  cases hsplit : Block.split instrs with
  | ok blocks => exact absurd (split_isOk_iff.1 ⟨blocks, hsplit⟩) h
  | error e =>
    obtain ⟨name, rfl⟩ := eq_duplicateBlock_of_split hsplit
    exact ⟨name, rfl⟩

theorem ofInstructions_of_nodup (hne : instrs ≠ []) (hn : (declared instrs).Nodup) :
    ∃ first rest, Block.split instrs = .ok (first :: rest) ∧
      ((first :: rest).map (·.name)).Nodup ∧
      ofInstructions instrs = ofBlocks (first :: rest) defaultEntryPrefix := by
  obtain ⟨blocks, hsplit⟩ := split_isOk_iff.2 hn
  cases blocks with
  | nil => exact absurd (flatten_split hsplit).symm hne
  | cons first rest =>
    refine ⟨first, rest, hsplit, ?_, ?_⟩
    · rw [names_split hsplit]
      exact nodup_frontName?.2 hn
    · rw [ofInstructions, hsplit]
      rfl

/-- What becomes of code: a graph if it holds something, no label stands twice and what it names
resolves, and otherwise the error for the first of these that fails. -/
theorem ofInstructions_result (instrs : List Instruction) :
    (ofInstructions instrs = .error .noBlocks ↔ instrs = []) ∧
    ((∃ name, ofInstructions instrs = .error (.duplicateBlock name)) ↔ ¬ (declared instrs).Nodup) ∧
    ((∃ g, ofInstructions instrs = .ok g) ↔
      instrs ≠ [] ∧ (declared instrs).Nodup ∧ Resolves instrs) ∧
    ((∃ block, ∃ label ∈ named instrs, label ∉ declared instrs ∧
        ofInstructions instrs = .error (.unknownLabel block label)) ↔
      instrs ≠ [] ∧ (declared instrs).Nodup ∧ ¬ Resolves instrs) := by
  by_cases hne : instrs = []
  · subst hne
    simp [ofInstructions_nil]
  by_cases hn : (declared instrs).Nodup
  · obtain ⟨first, rest, hsplit, hnames, hresult⟩ := ofInstructions_of_nodup hne hn
    by_cases hr : Resolves instrs
    · obtain ⟨g, hg⟩ : ∃ g, ofInstructions instrs = .ok g :=
        hresult ▸ ofBlocks_isOk hnames ((resolves_iff hsplit).1 hr)
      simp [hg, hne, hn, hr]
    · obtain ⟨b, hb, t, ht, hunknown, he⟩ : ∃ b ∈ first :: rest, ∃ t ∈ b.targets,
          t ∉ (first :: rest).map (·.name) ∧
            ofInstructions instrs = .error (.unknownLabel b.name t) :=
        hresult ▸ ofBlocks_unknownLabel hnames fun ht => hr ((resolves_iff hsplit).2 ht)
      have hnamed : t ∈ named instrs :=
        flatten_split hsplit ▸ mem_named_flatten.2 ⟨b, hb, ht⟩
      rw [names_split hsplit, List.mem_append, not_or] at hunknown
      refine ⟨by simp [he, hne], by simp [he, hn], by simp [he, hr], ?_⟩
      exact iff_of_true ⟨b.name, t, hnamed, hunknown.2, he⟩ ⟨hne, hn, hr⟩
  · obtain ⟨name, hname⟩ := ofInstructions_of_repeated hn
    simp [hname, hne, hn]

/-- Code that begins with a jump to where it stands. -/
def returning : List Instruction := [.jump "b0"]

/-- It makes a graph, although it has no label. -/
theorem returning_resolves : (∃ g, ofInstructions returning = .ok g) ∧
    "b0" ∈ named returning ∧ declared returning = [] := by
  refine ⟨?_, by decide, rfl⟩
  have hok : (ofInstructions returning).toOption.isSome = true := by cbv
  cases hg : ofInstructions returning with
  | error e => simp [hg, Except.toOption] at hok
  | ok g => exact ⟨g, rfl⟩

end FlowGraph

end FlowOpt
