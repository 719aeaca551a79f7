import FlowOpt.Proofs.FlowGraph.Targets

/-!
# Blocks that cutting gives

Joined and cut again, blocks are the same just if each but the first stands under a label of its
name and has no other, and the first does so too or has no label and the fresh name.
-/

namespace FlowOpt

namespace Block

variable {instrs : List Instruction} {blocks : List Block} {b c : Block} {i : Instruction}
  {name : String}

/-- A block under a label of its name, without another one. -/
def Headed (b : Block) : Prop :=
  b.label = some b.name ∧ ∀ i ∈ b.instrs.tail, i.isLabel = false

def Bare (b : Block) : Prop :=
  b.instrs ≠ [] ∧ ∀ i ∈ b.instrs, i.isLabel = false

def frontName (names : List String) : String := unlabeled (freshIndex unlabeled names 0)

theorem numbered_ne_unlabeled (stem : String) (k n : Nat) :
    FlowGraph.numbered stem k ≠ unlabeled n := by
  intro h
  have hdot : '.' ∈ (unlabeled n).toList := by
    rw [← h]
    simp [FlowGraph.numbered, String.toList_append]
  rw [unlabeled, String.toList_append, List.mem_append] at hdot
  rcases hdot with hdot | hdot
  · simp at hdot
  · exact FlowGraph.dot_not_mem_digits n hdot

/-- Only names that code without a label may get count for the name it gets. -/
theorem frontName_congr {l l' : List String} (h : ∀ n, unlabeled n ∈ l ↔ unlabeled n ∈ l') :
    frontName l = frontName l' :=
  congrArg unlabeled (freshIndex_congr unlabeled_injective h 0)

/-- Blocks as cutting gives them: each stands under a label, or it has none and stands in front. -/
structure Cut (blocks : List Block) : Prop where
  nodup : (blocks.map (·.name)).Nodup
  shape : ∀ b ∈ blocks, b.Headed ∨
    (b.Bare ∧ ∃ rest, blocks.map (·.name) = b.name :: rest ∧ b.name = frontName rest)

theorem Headed.instrs_eq (h : b.Headed) :
    ∃ i rest, b.instrs = i :: rest ∧ i.label = some b.name ∧ ∀ j ∈ rest, j.isLabel = false := by
  obtain ⟨hlabel, htail⟩ := h
  unfold label at hlabel
  cases hb : b.instrs with
  | nil => simp [hb] at hlabel
  | cons i rest =>
    rw [hb] at hlabel htail
    exact ⟨i, rest, rfl, hlabel, htail⟩

theorem Headed.ne_nil (h : b.Headed) : b.instrs ≠ [] := by
  obtain ⟨i, rest, hb, -⟩ := h.instrs_eq
  rw [hb]
  exact List.cons_ne_nil i rest

theorem Bare.label_eq (h : b.Bare) : b.label = none := by
  unfold label
  cases hb : b.instrs with
  | nil => rfl
  | cons i rest => simpa [Instruction.isLabel, hb] using h.2 i (hb ▸ List.mem_cons_self)

theorem Headed.not_bare (h : b.Headed) : ¬ b.Bare := by
  intro hbare
  have hlabel := h.1
  rw [hbare.label_eq] at hlabel
  cases hlabel

theorem headed_labeled {name : String} {body : List Instruction}
    (h : ∀ i ∈ body, i.isLabel = false) : (Block.labeled name body).Headed := ⟨rfl, h⟩

theorem declared_of_headed (h : b.Headed) : declared b.instrs = [b.name] := by
  obtain ⟨i, rest, hb, hi, hrest⟩ := h.instrs_eq
  have hnone : declared rest = [] := List.filterMap_eq_nil_iff.2 fun j hj =>
    by simpa [Instruction.isLabel] using hrest j hj
  rw [hb, declared, List.filterMap_cons_some hi, ← declared, hnone]

theorem declared_of_bare (h : b.Bare) : declared b.instrs = [] :=
  List.filterMap_eq_nil_iff.2 fun j hj => by simpa [Instruction.isLabel] using h.2 j hj

theorem declared_flatten_of_headed (h : ∀ b ∈ blocks, b.Headed) :
    declared (flatten blocks) = blocks.map (·.name) := by
  induction blocks with
  | nil => rfl
  | cons b blocks ih =>
    rw [List.forall_mem_cons] at h
    rw [flatten, List.flatMap_cons, declared, List.filterMap_append, ← declared, ← declared,
      declared_of_headed h.1, ← flatten, ih h.2]
    rfl

theorem declared_flatten_of_bare {rest : List Block} (hb : b.Bare) (h : ∀ c ∈ rest, c.Headed) :
    declared (flatten (b :: rest)) = rest.map (·.name) := by
  rw [flatten, List.flatMap_cons, declared, List.filterMap_append, ← declared,
    declared_of_bare hb, List.nil_append, ← declared, ← flatten, declared_flatten_of_headed h]

theorem Cut.headed_of_mem_tail {first : Block} {rest : List Block} (h : Cut (first :: rest))
    (hb : b ∈ rest) : b.Headed := by
  rcases h.shape b (List.mem_cons_of_mem _ hb) with hheaded | ⟨-, names, hnames, -⟩
  · exact hheaded
  · have hnodup := h.nodup
    rw [List.map_cons, List.cons.injEq] at hnames
    rw [List.map_cons, List.nodup_cons, hnames.1] at hnodup
    exact absurd (List.mem_map_of_mem hb) hnodup.1

theorem Cut.ne_nil (h : Cut blocks) (hb : b ∈ blocks) : b.instrs ≠ [] :=
  (h.shape b hb).elim Headed.ne_nil fun hbare => hbare.1.1

theorem Cut.mem_declared (h : Cut blocks) :
    name ∈ declared (flatten blocks) ↔ ∃ b ∈ blocks, b.Headed ∧ b.name = name := by
  rw [declared, List.mem_filterMap]
  constructor
  · rintro ⟨i, hi, hlabel⟩
    obtain ⟨b, hb, hi⟩ := List.mem_flatMap.1 hi
    have hmem : name ∈ declared b.instrs := List.mem_filterMap.2 ⟨i, hi, hlabel⟩
    rcases h.shape b hb with hheaded | ⟨hbare, -⟩
    · rw [declared_of_headed hheaded, List.mem_singleton] at hmem
      exact ⟨b, hb, hheaded, hmem.symm⟩
    · rw [declared_of_bare hbare] at hmem
      cases hmem
  · rintro ⟨b, hb, hheaded, rfl⟩
    have hmem : b.name ∈ declared b.instrs := by
      rw [declared_of_headed hheaded]
      exact List.mem_singleton_self _
    obtain ⟨i, hi, hlabel⟩ := List.mem_filterMap.1 hmem
    exact ⟨i, List.mem_flatMap.2 ⟨b, hb, hi⟩, hlabel⟩

section Runs

variable {labels : List String} {run : List Instruction}

theorem headed_ofRun (hrun : run ∈ runs instrs) (hlabel : (run.head?.bind (·.label)) = some name) :
    (ofRun labels run).Headed := by
  refine ⟨?_, fun i hi => isLabel_of_mem_tail hrun hi⟩
  change run.head?.bind (·.label) = some ((run.head?.bind (·.label)).getD _)
  rw [hlabel]
  rfl

theorem bare_ofRun (hrun : run ∈ runs instrs) (hlabel : run.head?.bind (·.label) = none) :
    (ofRun labels run).Bare := by
  refine ⟨ne_nil_of_mem_runs hrun, fun i hi => ?_⟩
  change i ∈ run at hi
  cases run with
  | nil => cases hi
  | cons j rest =>
    rcases List.mem_cons.1 hi with rfl | hi
    · exact Option.isSome_eq_false_iff.2 (Option.isNone_iff_eq_none.2 hlabel)
    · exact isLabel_of_mem_tail hrun hi

theorem ofRun_of_headed (h : b.Headed) : ofRun labels b.instrs = b := by
  have hlabel : b.instrs.head?.bind (·.label) = some b.name := h.1
  rw [ofRun, hlabel]
  rfl

theorem ofRun_of_bare (h : b.Bare) (hname : b.name = frontName labels) :
    ofRun labels b.instrs = b := by
  have hlabel : b.instrs.head?.bind (·.label) = none := h.label_eq
  have hname' : "b" ++ toString (freshIndex unlabeled labels 0) = b.name := hname.symm
  rw [ofRun, hlabel]
  change Block.mk ("b" ++ toString (freshIndex unlabeled labels 0)) b.instrs = b
  rw [hname']

end Runs

theorem Cut.of_split (h : split instrs = .ok blocks) : Cut blocks := by
  have hnodup : (blocks.map (·.name)).Nodup :=
    names_split h ▸ nodup_frontName?.2 (split_isOk_iff.1 ⟨blocks, h⟩)
  refine ⟨hnodup, fun b hb => ?_⟩
  rw [split_ok h] at hb
  obtain ⟨run, hrun, rfl⟩ := List.mem_map.1 hb
  cases hlabel : run.head?.bind (·.label) with
  | some l => exact .inl (headed_ofRun hrun hlabel)
  | none =>
    refine .inr ⟨bare_ofRun hrun hlabel, declared instrs, ?_, ?_⟩
    · -- Only code that begins without a label has a run without one.
      have hfront : instrs.head?.any (!·.isLabel) = true := by
        by_contra hnot
        have hmem := List.mem_map_of_mem (f := fun run => run.head?.bind (·.label)) hrun
        rw [labels_runs, if_neg hnot, List.nil_append, hlabel] at hmem
        simp at hmem
      rw [names_split h, frontName?, if_pos hfront]
      change _ = (run.head?.bind (·.label)).getD _ :: _
      rw [hlabel]
      rfl
    · change (run.head?.bind (·.label)).getD _ = _
      rw [hlabel]
      rfl

theorem Cut.runs_flatten (h : Cut blocks) : runs (flatten blocks) = blocks.map (·.instrs) := by
  rw [runs_eq_splitBy, flatten, List.flatMap_def]
  apply List.splitBy_flatten
  · intro hnil
    obtain ⟨b, hb, hbnil⟩ := List.mem_map.1 hnil
    exact h.ne_nil hb hbnil
  · rintro run hrun
    obtain ⟨b, hb, rfl⟩ := List.mem_map.1 hrun
    rw [isChain_iff_tail (p := fun j => !j.isLabel)]
    intro i hi
    rcases h.shape b hb with hheaded | ⟨hbare, -⟩
    · simp [hheaded.2 i hi]
    · simp [hbare.2 i (List.mem_of_mem_tail hi)]
  · -- Every block but the first begins with a label.
    rw [List.isChain_map]
    cases blocks with
    | nil => exact .nil
    | cons first rest =>
      have hcut : ∀ b ∈ first :: rest, ∀ c ∈ rest, ∃ _ : b.instrs ≠ [], ∃ hc,
          (!(c.instrs.head hc).isLabel) = false := by
        intro b hb c hc
        obtain ⟨i, body, hci, hlabel, -⟩ := (h.headed_of_mem_tail hc).instrs_eq
        refine ⟨h.ne_nil hb, hci ▸ List.cons_ne_nil i body, ?_⟩
        simp [hci, Instruction.isLabel, hlabel]
      refine (List.pairwise_cons.2 ⟨fun c hc => hcut first List.mem_cons_self c hc, ?_⟩).isChain
      exact List.pairwise_of_forall_mem_list fun b hb c hc =>
        hcut b (List.mem_cons_of_mem _ hb) c hc

theorem Cut.split_flatten (h : Cut blocks) : split (flatten blocks) = .ok blocks := by
  have hblocks : (runs (flatten blocks)).map (ofRun (declared (flatten blocks))) = blocks := by
    rw [h.runs_flatten, List.map_map]
    conv_rhs => rw [← List.map_id blocks]
    apply List.map_congr_left
    intro b hb
    rcases h.shape b hb with hheaded | ⟨hbare, names, hnames, hname⟩
    · exact ofRun_of_headed hheaded
    · cases blocks with
      | nil => cases hb
      | cons first rest =>
        rw [List.map_cons, List.cons.injEq] at hnames
        obtain rfl : b = first := (List.inj_on_of_nodup_map h.nodup hb List.mem_cons_self
          hnames.1.symm)
        apply ofRun_of_bare hbare
        rw [declared_flatten_of_bare hbare fun c hc => h.headed_of_mem_tail hc, hnames.2]
        exact hname
  unfold split
  simp only [hblocks]
  rw [firstRepeat?_eq_none.2 ⟨h.nodup, fun _ _ => List.not_mem_nil⟩]

/-- Joining blocks and cutting again gives them back just if they are as cutting gives them. -/
theorem split_eq_ok_iff : split instrs = .ok blocks ↔ Cut blocks ∧ flatten blocks = instrs := by
  constructor
  · exact fun h => ⟨.of_split h, flatten_split h⟩
  · rintro ⟨h, rfl⟩
    exact h.split_flatten

theorem ensureLabel_of_headed (h : b.Headed) : b.ensureLabel = b := by
  rw [ensureLabel, h.1]
  rfl

theorem Headed.push (h : b.Headed) (name : String) : (b.push (.jump name)).Headed := by
  obtain ⟨i, rest, hb, hlabel, hrest⟩ := h.instrs_eq
  constructor
  · simpa [Block.label, Block.push, hb] using hlabel
  · intro j hj
    rw [Block.push, hb, List.cons_append, List.tail_cons, List.mem_append,
      List.mem_singleton] at hj
    rcases hj with hj | rfl
    · exact hrest j hj
    · rfl

theorem Bare.push (h : b.Bare) (name : String) : (b.push (.jump name)).Bare := by
  constructor
  · simp [Block.push]
  · intro j hj
    rw [Block.push, List.mem_append, List.mem_singleton] at hj
    rcases hj with hj | rfl
    · exact h.2 j hj
    · rfl

theorem Cut.of_shape {blocks' : List Block} (h : Cut blocks)
    (hnames : blocks'.map (·.name) = blocks.map (·.name))
    (hshape : ∀ c ∈ blocks', ∃ b ∈ blocks, c.name = b.name ∧ (b.Headed → c.Headed) ∧
      (b.Bare → c.Headed ∨ c.Bare)) : Cut blocks' := by
  refine ⟨hnames ▸ h.nodup, fun c hc => ?_⟩
  obtain ⟨b, hb, hname, hheaded, hbare⟩ := hshape c hc
  rw [hnames, hname]
  rcases h.shape b hb with hb | ⟨hb, hfront⟩
  · exact .inl (hheaded hb)
  · exact (hbare hb).imp_right fun hc => ⟨hc, hfront⟩

/-- Only jumps are written out where all blocks but the first stand under labels. -/
theorem explicitFrom_of_headed {rest : List Block} (h : ∀ c ∈ rest, c.Headed) {c : Block}
    (hc : c ∈ explicitFrom b rest) : ∃ d ∈ b :: rest,
      c = d ∨ ∃ next ∈ rest, c = d.push (.jump next.name) := by
  induction rest generalizing b with
  | nil => exact ⟨c, hc, .inl rfl⟩
  | cons next rest ih =>
    have hhead : c = b ∨ c = b.push (.jump next.name) ∨ c ∈ explicitFrom next rest := by
      unfold explicitFrom at hc
      rw [ensureLabel_of_headed (h next List.mem_cons_self)] at hc
      split at hc
      · exact .inr (List.mem_cons.1 hc)
      · exact (List.mem_cons.1 hc).imp_right .inr
    rcases hhead with rfl | rfl | hc
    · exact ⟨c, List.mem_cons_self, .inl rfl⟩
    · exact ⟨b, List.mem_cons_self, .inr ⟨next, List.mem_cons_self, rfl⟩⟩
    · obtain ⟨d, hd, hcd⟩ := ih (fun c hc => h c (List.mem_cons_of_mem _ hc)) hc
      refine ⟨d, List.mem_cons_of_mem _ hd, hcd.imp_right fun hn => ?_⟩
      obtain ⟨n, hn, hc⟩ := hn
      exact ⟨n, List.mem_cons_of_mem _ hn, hc⟩

theorem Cut.mem_addTerminators (h : Cut blocks) {c : Block} (hc : c ∈ addTerminators blocks) :
    ∃ b ∈ blocks, c = b ∨ ∃ next ∈ blocks, next.Headed ∧ c = b.push (.jump next.name) := by
  cases blocks with
  | nil => cases hc
  | cons first rest =>
    obtain ⟨b, hb, hcb⟩ := explicitFrom_of_headed (fun c hc => h.headed_of_mem_tail hc) hc
    exact ⟨b, hb, hcb.imp_right fun ⟨next, hnext, hc⟩ =>
      ⟨next, List.mem_cons_of_mem _ hnext, h.headed_of_mem_tail hnext, hc⟩⟩

theorem Cut.addTerminators (h : Cut blocks) : Cut (addTerminators blocks) := by
  apply h.of_shape (names_addTerminators blocks)
  intro c hc
  obtain ⟨b, hb, rfl | ⟨next, -, -, rfl⟩⟩ := h.mem_addTerminators hc
  · exact ⟨c, hb, rfl, id, .inr⟩
  · exact ⟨b, hb, rfl, fun h => h.push next.name, fun h => .inr (h.push next.name)⟩

def Linked (blocks : List Block) : Prop :=
  ∀ b ∈ blocks, ∀ t ∈ b.targets, ∃ c ∈ blocks, c.Headed ∧ c.name = t

theorem Cut.linked_iff (h : Cut blocks) : Linked blocks ↔
    ∀ t ∈ named (flatten blocks), t ∈ declared (flatten blocks) := by
  simp only [mem_named_flatten, h.mem_declared, Linked]
  exact ⟨fun h t ⟨b, hb, ht⟩ => h b hb t ht, fun h b hb t ht => h t ⟨b, hb, ht⟩⟩

theorem mem_targets_push_jump {t next : String} :
    t ∈ (b.push (.jump next)).targets ↔ t ∈ b.targets ∨ t = next := by
  simp only [mem_targets, push, List.mem_append, List.mem_singleton]
  constructor
  · rintro ⟨i, hi | rfl, hbr, ht⟩
    · exact .inl ⟨i, hi, hbr, ht⟩
    · exact .inr (List.mem_singleton.1 ht)
  · rintro (⟨i, hi, hbr, ht⟩ | rfl)
    · exact ⟨i, .inl hi, hbr, ht⟩
    · exact ⟨_, .inr rfl, rfl, List.mem_singleton_self _⟩

theorem Cut.exists_headed_addTerminators (h : Cut blocks) (hb : b ∈ blocks) (hheaded : b.Headed) :
    ∃ c ∈ Block.addTerminators blocks, c.Headed ∧ c.name = b.name := by
  have hmem : b.name ∈ (Block.addTerminators blocks).map (·.name) := by
    rw [names_addTerminators]
    exact List.mem_map_of_mem hb
  obtain ⟨c, hc, hname⟩ := List.mem_map.1 hmem
  refine ⟨c, hc, ?_, hname⟩
  obtain ⟨d, hd, rfl | ⟨next, -, -, rfl⟩⟩ := h.mem_addTerminators hc
  · rwa [List.inj_on_of_nodup_map h.nodup hd hb hname]
  · obtain rfl := List.inj_on_of_nodup_map h.nodup hd hb hname
    exact hheaded.push next.name

theorem Linked.addTerminators (h : Linked blocks) (hcut : Cut blocks) :
    Linked (addTerminators blocks) := by
  intro c hc t ht
  have hlabel : ∃ d ∈ blocks, d.Headed ∧ d.name = t := by
    obtain ⟨b, hb, rfl | ⟨next, hnext, hheaded, rfl⟩⟩ := hcut.mem_addTerminators hc
    · exact h c hb t ht
    · rcases mem_targets_push_jump.1 ht with ht | rfl
      · exact h b hb t ht
      · exact ⟨next, hnext, hheaded, rfl⟩
  obtain ⟨d, hd, hheaded, rfl⟩ := hlabel
  exact hcut.exists_headed_addTerminators hd hheaded

theorem Linked.not_bare (h : Linked blocks) (hcut : Cut blocks) (hb : b ∈ blocks) (hbare : b.Bare)
    (hc : c ∈ blocks) : b.name ∉ c.targets := by
  intro ht
  obtain ⟨d, hd, hheaded, hname⟩ := h c hc b.name ht
  obtain rfl := List.inj_on_of_nodup_map hcut.nodup hd hb hname
  exact hheaded.not_bare hbare

/-- A block put in front of blocks that were cut leaves them so: it is put there where something
leads to the first one, which then stands under a label. -/
theorem Cut.of_graph {g : FlowGraph} {stem : String} (h : Cut blocks) (hlinked : Linked blocks)
    (hg : FlowGraph.ofBlocks blocks stem = .ok g) : Cut g.blocks ∧ Linked g.blocks := by
  obtain ⟨first, rest, front, rfl, hfront, hblocks⟩ := FlowGraph.blocks_of_ofBlocks hg
  by_cases hnot : ∀ b ∈ first :: rest, first.name ∉ b.targets
  · have hsame : g.blocks = first :: rest := by
      rw [FlowGraph.blocks, FlowGraph.nodes_of_untargeted hg hnot, FlowGraph.map_block_annotate]
    rw [hsame]
    exact ⟨h, hlinked⟩
  · have hheaded : ∀ b ∈ first :: rest, b.Headed := by
      intro b hb
      rcases h.shape b hb with hheaded | ⟨hbare, names, hnames, -⟩
      · exact hheaded
      · refine absurd (fun c hc => ?_) hnot
        have hname : first.name = b.name := (List.cons.inj hnames).1
        rw [hname]
        exact hlinked.not_bare h hb hbare hc
    have hnames := (FlowGraph.WellFormed.of_ofBlocks hg).names_nodup
    rw [FlowGraph.names_eq] at hnames
    rw [hblocks] at hnames ⊢
    cases hfront with
    | none _ => exact ⟨h, hlinked⟩
    | jump name _ =>
      constructor
      · refine ⟨hnames, List.forall_mem_cons.2 ⟨.inl ?_, fun b hb => .inl (hheaded b hb)⟩⟩
        exact headed_labeled (by simp [Instruction.jump, Instruction.isLabel])
      · refine List.forall_mem_cons.2 ⟨fun t ht => ?_, fun b hb t ht => ?_⟩
        · rw [FlowGraph.targets_labeled_jump, List.mem_singleton] at ht
          exact ⟨first, List.mem_cons_of_mem _ List.mem_cons_self,
            hheaded first List.mem_cons_self, ht.symm⟩
        · obtain ⟨c, hc, hch, rfl⟩ := hlinked b hb t ht
          exact ⟨c, List.mem_cons_of_mem _ hc, hch, rfl⟩

theorem addTerminators_ne_nil (h : blocks ≠ []) : addTerminators blocks ≠ [] := by
  intro hnil
  apply h
  rw [← List.length_eq_zero_iff, ← length_addTerminators, hnil]
  rfl

/-- Code that holds something and has every label once that it names. -/
structure Closed (instrs : List Instruction) : Prop where
  ne_nil : instrs ≠ []
  nodup : (declared instrs).Nodup
  named : ∀ t ∈ named instrs, t ∈ declared instrs

/-- Such code is cut into blocks that lead to labels of it. -/
theorem closed_iff : Closed instrs ↔
    ∃ blocks, split instrs = .ok blocks ∧ blocks ≠ [] ∧ Linked blocks := by
  constructor
  · intro h
    obtain ⟨blocks, hblocks⟩ := split_isOk_iff.2 h.nodup
    obtain ⟨hcut, hflat⟩ := split_eq_ok_iff.1 hblocks
    refine ⟨blocks, hblocks, ?_, hcut.linked_iff.2 (hflat ▸ h.named)⟩
    rintro rfl
    exact h.ne_nil hflat.symm
  · rintro ⟨blocks, hblocks, hne, hlinked⟩
    obtain ⟨hcut, hflat⟩ := split_eq_ok_iff.1 hblocks
    refine ⟨?_, split_isOk_iff.1 ⟨blocks, hblocks⟩, hflat ▸ hcut.linked_iff.1 hlinked⟩
    obtain ⟨b, hb⟩ := List.exists_mem_of_ne_nil _ hne
    intro hnil
    have hbnil : b.instrs = [] := List.flatMap_eq_nil_iff.1 (hflat.trans hnil) b hb
    exact ne_nil_of_mem_split hblocks hb hbnil

theorem mem_targets_addTerminators {t : String} (hb : b ∈ blocks) (ht : t ∈ b.targets) :
    ∃ c ∈ Block.addTerminators blocks, t ∈ c.targets := by
  obtain ⟨k, hk⟩ := List.mem_iff_getElem?.1 hb
  obtain ⟨c, hc, hmade⟩ := addTerminators_getElem? hk
  obtain ⟨front, back, hinstrs, -⟩ := hmade.instrs_eq
  obtain ⟨i, hi, hbr, hl⟩ := mem_targets.1 ht
  refine ⟨c, List.mem_of_getElem? hc, mem_targets.2 ⟨i, ?_, hbr, hl⟩⟩
  rw [hinstrs]
  exact List.mem_append_left _ (List.mem_append_right _ hi)

/-- Blocks that lead to labels of theirs make a graph once their jumps are written out. -/
theorem Cut.exists_graph (h : Cut blocks) (hne : blocks ≠ []) (hlinked : Linked blocks)
    (stem : String) : ∃ g, FlowGraph.ofBlocks (Block.addTerminators blocks) stem = .ok g := by
  obtain ⟨first, rest, heq⟩ := List.exists_cons_of_ne_nil (addTerminators_ne_nil hne)
  rw [heq]
  apply FlowGraph.ofBlocks_isOk (heq ▸ h.addTerminators.nodup)
  intro b hb t ht
  obtain ⟨c, hc, -, rfl⟩ := heq ▸ hlinked.addTerminators h b (heq ▸ hb) t ht
  exact List.mem_map_of_mem hc

/-- No jump names what stands in front of the first label. -/
def FrontUnnamed (instrs : List Instruction) : Prop :=
  ∀ x ∈ frontName? instrs, x ∉ named instrs

instance (instrs : List Instruction) : Decidable (FrontUnnamed instrs) :=
  inferInstanceAs (Decidable (∀ x ∈ frontName? instrs, x ∉ named instrs))

theorem Closed.frontUnnamed (h : Closed instrs) : FrontUnnamed instrs :=
  fun _ hx ht => frontName?_not_mem hx (h.named _ ht)

/-- Code that makes a graph names only labels it has, if nothing names what stands in front of its
first label. -/
theorem closed_of_graph {g : FlowGraph} {stem : String} (h : split instrs = .ok blocks)
    (hg : FlowGraph.ofBlocks (addTerminators blocks) stem = .ok g)
    (hfront : FrontUnnamed instrs) : Closed instrs := by
  obtain ⟨hcut, hflat⟩ := split_eq_ok_iff.1 h
  obtain ⟨first, rest, front, heq, -, hknown, -⟩ := FlowGraph.ofBlocks_ok hg
  refine closed_iff.2 ⟨blocks, h, ?_, ?_⟩
  · rintro rfl
    cases heq
  · rw [hcut.linked_iff, hflat]
    intro t ht
    obtain ⟨b, hb, htb⟩ := mem_named_flatten.1 (hflat ▸ ht)
    obtain ⟨c, hc, htc⟩ := mem_targets_addTerminators hb htb
    have hmem := hknown c hc t htc
    rw [names_addTerminators, names_split h, List.mem_append, Option.mem_toList] at hmem
    exact hmem.resolve_left fun hx => hfront t hx ht

theorem FrontUnnamed.addTerminators (h : FrontUnnamed instrs) (hblocks : split instrs = .ok blocks) :
    FrontUnnamed (flatten (addTerminators blocks)) := by
  obtain ⟨hcut, hflat⟩ := split_eq_ok_iff.1 hblocks
  intro x hx ht
  have hnot := frontName?_not_mem hx
  -- A label of the code is still one.
  have hlabel : ∀ b ∈ blocks, b.Headed → b.name ≠ x := by
    rintro b hb hheaded rfl
    obtain ⟨c, hc, hch, hname⟩ := hcut.exists_headed_addTerminators hb hheaded
    exact hnot (hcut.addTerminators.mem_declared.2 ⟨c, hc, hch, hname⟩)
  have hold : x ∈ frontName? instrs := by
    have hmem : x ∈ (Block.addTerminators blocks).map (·.name) := by
      rw [names_split hcut.addTerminators.split_flatten]
      exact List.mem_append_left _ (Option.mem_toList.2 hx)
    rw [names_addTerminators, names_split hblocks, List.mem_append, Option.mem_toList] at hmem
    refine hmem.resolve_right fun hx => ?_
    obtain ⟨b, hb, hheaded, hname⟩ := hcut.mem_declared.1 (hflat ▸ hx)
    exact hlabel b hb hheaded hname
  obtain ⟨c, hc, htc⟩ := mem_named_flatten.1 ht
  obtain ⟨b, hb, rfl | ⟨next, hnext, hheaded, rfl⟩⟩ := hcut.mem_addTerminators hc
  · exact h x hold (hflat ▸ mem_named_flatten.2 ⟨c, hb, htc⟩)
  · rcases mem_targets_push_jump.1 htc with ht | heq
    · exact h x hold (hflat ▸ mem_named_flatten.2 ⟨b, hb, ht⟩)
    · exact hlabel next hnext hheaded heq.symm

end Block

end FlowOpt
