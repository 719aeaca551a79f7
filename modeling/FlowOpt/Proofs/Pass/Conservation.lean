import FlowOpt.Proofs.Except
import FlowOpt.Proofs.Hoist.Origin
import FlowOpt.Proofs.Pass.Extent

/-!
# Nothing is lost, nothing is copied

The instructions that are hoisted stood at different places of the code, and these are the places
where the blocks of the code have a gap behind hoisting. Apart from the gaps and from labels that
lead to preheaders the blocks are what they were, in their order. The preheaders hold what was taken
out, each with its label and its jump beside that.
-/

namespace FlowOpt

namespace Block

def places (blocks : List Block) : List (String × Nat) :=
  blocks.flatMap fun b => (List.range b.instrs.length).map (b.name, ·)

def without (taken : List (String × Nat)) (b : Block) : List Instruction :=
  (b.instrs.zipIdx.filter fun e => (b.name, e.2) ∉ taken).map (·.1)

variable {blocks : List Block} {taken : List (String × Nat)} {b : Block} {x : String} {k : Nat}

theorem mem_places : (x, k) ∈ places blocks ↔ ∃ b ∈ blocks, b.name = x ∧ k < b.instrs.length := by
  simp only [places, List.mem_flatMap, List.mem_map, List.mem_range, Prod.mk.injEq]
  constructor
  · rintro ⟨b, hb, k, hk, rfl, rfl⟩
    exact ⟨b, hb, rfl, hk⟩
  · rintro ⟨b, hb, rfl, hk⟩
    exact ⟨b, hb, k, hk, rfl, rfl⟩

theorem nodup_places (hn : (blocks.map (·.name)).Nodup) : (places blocks).Nodup := by
  rw [places, List.nodup_flatMap]
  constructor
  · intro b _
    exact List.nodup_range.map fun j k h => (Prod.mk.inj h).2
  · rw [List.Nodup, List.pairwise_map] at hn
    refine hn.imp fun {b c} hne e hb hc => ?_
    obtain ⟨j, -, rfl⟩ := List.mem_map.1 hb
    obtain ⟨k, -, heq⟩ := List.mem_map.1 hc
    exact hne (Prod.mk.inj heq).1.symm

theorem length_without (taken : List (String × Nat)) (b : Block) : (b.without taken).length =
    (((List.range b.instrs.length).map (b.name, ·)).filter (· ∉ taken)).length := by
  have hplaces : (List.range b.instrs.length).map (b.name, ·) =
      b.instrs.zipIdx.map fun e => (b.name, e.2) := by
    rw [List.range_eq_range', ← List.zipIdx_map_snd, List.map_map]
    rfl
  rw [without, List.length_map, hplaces, List.filter_map, List.length_map]
  rfl

/-- Instructions at different places are taken out: what is kept and what is taken make up the
code. -/
theorem length_flatten_without (hn : (blocks.map (·.name)).Nodup) (ht : taken.Nodup)
    (hin : ∀ e ∈ taken, e ∈ places blocks) :
    (blocks.map fun b => (b.without taken).length).sum + taken.length =
      (flatten blocks).length := by
  have hkept : (blocks.map fun b => (b.without taken).length).sum =
      ((places blocks).filter (· ∉ taken)).length := by
    rw [places, List.filter_flatMap, List.length_flatMap]
    exact congrArg List.sum (List.map_congr_left fun b _ => length_without taken b)
  have htaken : ((places blocks).filter (· ∈ taken)).Perm taken := by
    rw [List.perm_ext_iff_of_nodup ((nodup_places hn).filter _) ht]
    intro e
    rw [List.mem_filter, decide_eq_true_eq]
    exact ⟨And.right, fun he => ⟨hin e he, he⟩⟩
  have hall : (places blocks).length = (flatten blocks).length := by
    rw [places, flatten, List.length_flatMap, List.length_flatMap]
    refine congrArg List.sum (List.map_congr_left fun b _ => ?_)
    rw [List.length_map, List.length_range]
  have hnot : (places blocks).filter (fun e => !decide (e ∈ taken)) =
      (places blocks).filter (· ∉ taken) :=
    List.filter_congr fun e _ => (decide_not).symm
  have hsplit := List.length_eq_length_filter_add (l := places blocks) fun e => decide (e ∈ taken)
  rw [hnot, htaken.length_eq, hall] at hsplit
  omega

end Block

namespace HoistOutcome

variable (o : HoistOutcome)

def ownBlocks : List Block := o.blocks.filter fun b => b.name ∉ o.preheaders.map (·.1)

def movedTo (preheader : String) : List Hoisted := o.hoisted.filter (·.preheader = preheader)

/-- An instruction of a block, but that a label of a branch which is a header, and a label of a phi
in a header, may now be its preheader. -/
structure Relabels (block : String) (i' i : Instruction) : Prop where
  same : i' = { i with labels := i'.labels }
  labels : List.Forall₂ (fun l' l => l' = l ∨ ∃ q ∈ o.preheaders, l' = q.1 ∧
    ((i.isBranch = true ∧ l = q.2) ∨ (i.isPhi = true ∧ block = q.2))) i'.labels i.labels

def placeOf (e : Hoisted × Nat) : String × Nat := (e.1.block, e.2)

/-- What hoisting makes of code: `origins` are the hoisted instructions with their positions. -/
structure Conserves (code : List Block) (origins : List (Hoisted × Nat)) : Prop where
  hoisted : origins.map (·.1) = o.hoisted
  origin : ∀ e ∈ origins, ∃ b ∈ code, b.name = e.1.block ∧ b.instrs[e.2]? = some e.1.instr
  /-- No instruction is hoisted twice. -/
  distinct : (origins.map placeOf).Nodup
  names : (o.blocks.map (·.name)).Nodup ∧ ∀ q ∈ o.preheaders, q.1 ∉ code.map (·.name)
  /-- The blocks of the code are there in their order, each without what was hoisted. -/
  own : List.Forall₂ (fun b' b => b'.name = b.name ∧
    List.Forall₂ (o.Relabels b.name) b'.instrs (b.without (origins.map placeOf))) o.ownBlocks code
  preheader : ∀ q ∈ o.preheaders,
    (⟨q.1, .atLabel q.1 :: ((o.movedTo q.1).map (·.instr) ++ [.jump q.2])⟩ : Block) ∈ o.blocks
  bodies : o.hoisted = o.preheaders.flatMap fun q => o.movedTo q.1
  length : (Block.flatten o.blocks).length = (Block.flatten code).length + 2 * o.preheaders.length
  unchanged : o.hoisted = [] → o.blocks = code

end HoistOutcome

variable {stem : String} {blocks blocks' : List Block} {g : FlowGraph} {live : Results}
  {planned : List PlannedLoop} {moves : List Move} {b : Block} {m : Move} {s t : Site}
  {k v : Nat}

namespace HoistPlan

theorem filter_insertBefore (p : HoistPlan) {new : Block}
    (hfresh : new.name ∉ blocks.map (·.name)) :
    (p.insertBefore new blocks).filter (·.name ≠ new.name) = blocks := by
  induction blocks with
  | nil => rfl
  | cons b blocks ih =>
    rw [List.map_cons, List.mem_cons, not_or] at hfresh
    obtain ⟨hb, hrest⟩ := hfresh
    have hne : b.name ≠ new.name := Ne.symm hb
    unfold insertBefore
    split
    · have hsame : blocks.filter (·.name ≠ new.name) = blocks :=
        List.filter_eq_self.2 fun c hc => decide_eq_true fun heq =>
          hrest (heq ▸ List.mem_map_of_mem hc)
      rw [List.filter_cons_of_neg (by simp), List.filter_cons_of_pos (by simp [hne]), hsame]
    · rw [List.filter_cons_of_pos (by simp [hne]), ih hrest]

/-- A preheader holds what its plan takes, a label and a jump. -/
theorem sum_length_preheaderBlock (moves : List Move) :
    (moves.map fun m => (m.1.preheaderBlock m.2).instrs.length).sum =
      (moves.flatMap (·.1.sites)).length + 2 * moves.length := by
  induction moves with
  | nil => rfl
  | cons m moves ih =>
    have hlength : (m.1.preheaderBlock m.2).instrs.length = m.1.sites.length + 2 := by
      simp [preheaderBlock, Block.labeled]
    rw [List.map_cons, List.sum_cons, ih, hlength, List.flatMap_cons, List.length_append,
      List.length_cons]
    omega

/-- Without the preheaders the blocks are those that were there, with new labels. -/
theorem CarriedOut.filter_own (h : CarriedOut blocks moves blocks')
    (hw : Within moves (blocks.map (·.name))) :
    blocks'.filter (fun b => b.name ∉ moves.map (·.2)) =
      blocks.map fun b => ⟨b.name, b.instrs.map (redirectAll moves b.name)⟩ := by
  induction h with
  | nil blocks =>
    have hid : redirectAll [] = fun _ => id := rfl
    simp [hid]
  | @cons blocks blocks' m moves hfresh hrest ih =>
    have hboth : blocks'.filter (fun b => b.name ∉ (m :: moves).map (·.2)) =
        (blocks'.filter fun b => b.name ∉ moves.map (·.2)).filter (·.name ≠ m.2) := by
      rw [List.filter_filter]
      refine List.filter_congr fun b _ => ?_
      rw [Bool.eq_iff_iff, Bool.and_eq_true]
      simp only [decide_eq_true_eq, List.map_cons, List.mem_cons, not_or]
    have hnew : (carryOut blocks m).filter (·.name ≠ m.2) =
        blocks.map (m.1.redirectBlock m.2) := by
      have hname : (m.1.preheaderBlock m.2).name ∉
          (blocks.map (m.1.redirectBlock m.2)).map (·.name) := by
        rwa [names_redirect]
      exact filter_insertBefore m.1 hname
    have hnames : (fun b : Block => decide (b.name ≠ m.2)) ∘
        (fun b : Block => ⟨b.name, b.instrs.map (redirectAll moves b.name)⟩) =
        fun b : Block => decide (b.name ≠ m.2) := rfl
    rw [hboth, ih hw.carryOut, List.filter_map, hnames, hnew, List.map_map]
    refine List.map_congr_left fun b _ => ?_
    rw [Function.comp_apply, redirectBlock, List.map_map]
    rfl

end HoistPlan

theorem filter_flatMap_eq {α β γ : Type} [DecidableEq γ] {a : α} {parts : List α} {f : α → List β}
    {key : β → γ} {name : α → γ} (hkey : ∀ a ∈ parts, ∀ b ∈ f a, key b = name a)
    (hd : parts.Pairwise (name · ≠ name ·)) (ha : a ∈ parts) :
    (parts.flatMap f).filter (key · = name a) = f a := by
  induction parts with
  | nil => cases ha
  | cons c parts ih =>
    obtain ⟨hc, hd⟩ := List.pairwise_cons.1 hd
    have hrest : ∀ a ∈ parts, ∀ b ∈ f a, key b = name a := fun a ha =>
      hkey a (List.mem_cons_of_mem _ ha)
    rw [List.flatMap_cons, List.filter_append]
    rcases List.mem_cons.1 ha with rfl | ha
    · have hall : (f a).filter (key · = name a) = f a :=
        List.filter_eq_self.2 fun b hb => decide_eq_true (hkey a List.mem_cons_self b hb)
      have hnone : (parts.flatMap f).filter (key · = name a) = [] := by
        refine List.filter_eq_nil_iff.2 fun b hb => ?_
        obtain ⟨e, he, hb⟩ := List.mem_flatMap.1 hb
        rw [decide_eq_true_eq, hrest e he b hb]
        exact Ne.symm (hc e he)
      rw [hall, hnone, List.append_nil]
    · have hnone : (f c).filter (key · = name a) = [] := by
        refine List.filter_eq_nil_iff.2 fun b hb => ?_
        rw [decide_eq_true_eq, hkey c List.mem_cons_self b hb]
        exact hc a ha
      rw [hnone, List.nil_append, ih hrest hd ha]

theorem map_fst_hoisted {α : Type} (f : Site → α) :
    (moves.flatMap fun m => m.1.sites.map fun s =>
      ((⟨g.nameOf s.node, m.2, s.instr⟩ : Hoisted), f s)).map (·.1) =
      moves.flatMap fun m => m.1.sites.map fun s => ⟨g.nameOf s.node, m.2, s.instr⟩ := by
  rw [List.map_flatMap]
  simp only [List.map_map]
  rfl

def takenPlaces (g : FlowGraph) (planned : List PlannedLoop) : List (String × Nat) :=
  (takenBy planned).map fun s => (g.nameOf s.node, s.index)

def originsOf (g : FlowGraph) (moves : List Move) : List (Hoisted × Nat) :=
  moves.flatMap fun m => m.1.sites.map fun s => (⟨g.nameOf s.node, m.2, s.instr⟩, s.index)

namespace Rearranged

variable (h : Rearranged stem blocks g live planned moves blocks')
include h

theorem hasSite_of_taken (hs : s ∈ takenBy planned) : g.HasSite s := by
  obtain ⟨e, he, hs⟩ := mem_takenBy.1 hs
  exact (h.contains_site he hs).2

theorem nodup_takenBy : (takenBy planned).Nodup := by
  rw [takenBy, List.nodup_flatMap]
  refine ⟨fun e he => h.nodup_planSites he, ?_⟩
  refine (h.isPlanned.pairwise_header h.wellFormed).imp_of_mem fun he he' hne s hs hs' => hne ?_
  rw [h.isPlanned.eq_of_mem_sites he he' hs hs']

theorem mem_takenPlaces (hv : g.blocks[v]? = some b) :
    (b.name, k) ∈ takenPlaces g planned ↔ ∃ s ∈ takenBy planned, s.node = v ∧ s.index = k := by
  rw [takenPlaces, List.mem_map]
  refine exists_congr fun s => and_congr_right fun hs => ?_
  obtain ⟨c, hc, -⟩ := h.hasSite_of_taken hs
  rw [Prod.mk.injEq, FlowGraph.nameOf_eq hc]
  refine and_congr_left fun _ => ⟨fun hname => h.wellFormed.eq_of_name_eq hc hv hname, ?_⟩
  rintro rfl
  rw [Option.some.inj (hc.symm.trans hv)]

theorem nodup_takenPlaces : (takenPlaces g planned).Nodup := by
  refine h.nodup_takenBy.map_on fun s hs t ht heq => ?_
  obtain ⟨b, hb, -⟩ := h.hasSite_of_taken hs
  obtain ⟨c, hc, -⟩ := h.hasSite_of_taken ht
  obtain ⟨hname, hindex⟩ := Prod.mk.inj heq
  rw [FlowGraph.nameOf_eq hb, FlowGraph.nameOf_eq hc] at hname
  have hnode := h.wellFormed.eq_of_name_eq hb hc hname
  exact Site.eq_of_instrAt (h.hasSite_of_taken hs) (h.hasSite_of_taken ht)
    (Site.isAt_iff.2 ⟨hnode, hindex⟩)

theorem exists_block_of_taken (hs : s ∈ takenBy planned) :
    ∃ b ∈ blocks, b.name = g.nameOf s.node ∧ b.instrs[s.index]? = some s.instr := by
  obtain ⟨e, he, hs⟩ := mem_takenBy.1 hs
  obtain ⟨hc, b, hb, hi⟩ := h.contains_site he hs
  exact ⟨b, h.block_of_own hb (h.own_of_contains he hc), (FlowGraph.nameOf_eq hb).symm, hi⟩

theorem mem_places_of_taken : ∀ e ∈ takenPlaces g planned, e ∈ Block.places blocks := by
  intro e he
  obtain ⟨s, hs, rfl⟩ := List.mem_map.1 he
  obtain ⟨b, hb, hname, hi⟩ := h.exists_block_of_taken hs
  exact Block.mem_places.2 ⟨b, hb, hname, (List.getElem?_eq_some_iff.1 hi).1⟩

/-- Before preheaders are put in, the blocks of the code have gaps where instructions were taken. -/
theorem remaining_eq : g.remaining (planned.map (·.2)) =
    blocks.map fun b => ⟨b.name, b.without (takenPlaces g planned)⟩ := by
  have hmap : (g.remaining (planned.map (·.2))).map id =
      blocks.map fun b => ⟨b.name, b.without (takenPlaces g planned)⟩ := by
    refine h.map_remaining_eq _ fun v n hn => ?_
    have hv : g.blocks[v]? = some n.block := by
      rw [← FlowGraph.map_block_node?, hn, Option.map_some]
    have htaken : (planned.map (·.2)).flatMap (·.sites) = takenBy planned := List.flatMap_map _ _ _
    rw [id, htaken, ← kept_eq, Block.without]
    congr 2
    refine List.filter_congr fun e _ => ?_
    rw [Bool.eq_iff_iff, decide_eq_true_eq, h.mem_takenPlaces hv]
    simp
  rwa [List.map_id] at hmap

theorem relabel_cases (name : String) (i : Instruction) (l : String) :
    HoistPlan.relabelAll moves name i l = l ∨
      ∃ m ∈ moves, HoistPlan.relabelAll moves name i l = m.2 ∧
        ((i.isBranch = true ∧ l = m.1.header) ∨ (i.isPhi = true ∧ name = m.1.header)) := by
  by_cases hsome : ∃ m ∈ moves,
      (i.isBranch = true ∧ name ∈ m.1.entering ∧ l = m.1.header) ∨
        (i.isPhi = true ∧ name = m.1.header ∧ l ∈ m.1.entering)
  · obtain ⟨m, hm, hl⟩ := hsome
    exact .inr ⟨m, hm, h.relabel_of_mem hm hl,
      hl.imp (fun hl => ⟨hl.1, hl.2.2⟩) fun hl => ⟨hl.1, hl.2.1⟩⟩
  · exact .inl (HoistPlan.relabelAll_of_not fun m hm hl => hsome ⟨m, hm, hl⟩)

theorem takenBy_eq : takenBy planned = moves.flatMap (·.1.sites) :=
  calc takenBy planned = (planned.map (·.2)).flatMap (·.sites) := (List.flatMap_map _ _ _).symm
    _ = (moves.map (·.1)).flatMap (·.sites) := by rw [h.sameMoves]
    _ = moves.flatMap (·.1.sites) := List.flatMap_map _ _ _

theorem map_placeOf_originsOf :
    (originsOf g moves).map HoistOutcome.placeOf = takenPlaces g planned := by
  rw [originsOf, takenPlaces, h.takenBy_eq, List.map_flatMap, List.map_flatMap]
  simp only [List.map_map]
  rfl

theorem own_blocks : blocks'.filter (fun b => b.name ∉ moves.map (·.2)) = blocks.map fun b =>
    ⟨b.name, (b.without (takenPlaces g planned)).map (HoistPlan.redirectAll moves b.name)⟩ := by
  rw [h.carried.filter_own h.within, h.remaining_eq, List.map_map]
  rfl

/-- Every preheader adds its label and its jump. -/
theorem length_flatten : (Block.flatten blocks').length =
    (Block.flatten blocks).length + 2 * moves.length := by
  have hone : ∀ l : List Instruction, Block.total (fun _ => 1) l = l.length := by
    intro l
    simp [Block.total]
  have htotal : Block.total (fun _ => 1) (Block.flatten blocks') = _ :=
    h.carried.total_eq (fun _ _ => rfl) h.within
  have hpreheaders : (moves.map fun m => (m.1.preheaderBlock m.2).instrs.length).sum =
      (takenPlaces g planned).length + 2 * moves.length := by
    rw [HoistPlan.sum_length_preheaderBlock, takenPlaces, List.length_map, h.takenBy_eq]
  have hcode := Block.length_flatten_without h.nodup h.nodup_takenPlaces h.mem_places_of_taken
  have hremaining : (Block.flatten (g.remaining (planned.map (·.2)))).length =
      (blocks.map fun b => (b.without (takenPlaces g planned)).length).sum := by
    rw [h.remaining_eq, Block.flatten, List.length_flatMap, List.map_map]
    rfl
  simp only [hone] at htotal
  omega

/-- Only labels of the code are new, and only where they lead to a header of a plan. -/
theorem relabels {o : HoistOutcome} (hpre : o.preheaders = moves.map fun m => (m.2, m.1.header))
    (name : String) (i : Instruction) :
    o.Relabels name (HoistPlan.redirectAll moves name i) i := by
  rw [HoistPlan.redirectAll_eq]
  refine ⟨rfl, ?_⟩
  rw [List.forall₂_map_left_iff, List.forall₂_same]
  intro l _
  refine (h.relabel_cases name i l).imp_right ?_
  rintro ⟨m, hm, hto, hl⟩
  exact ⟨(m.2, m.1.header), hpre ▸ List.mem_map_of_mem hm, hto, hl⟩

/-- What was hoisted to the preheader of a plan is what the plan took. -/
theorem movedTo_eq {o : HoistOutcome} (hhoisted : o.hoisted = moves.flatMap fun m =>
      m.1.sites.map fun s => ⟨g.nameOf s.node, m.2, s.instr⟩) (hm : m ∈ moves) :
    o.movedTo m.2 = m.1.sites.map fun s => ⟨g.nameOf s.node, m.2, s.instr⟩ := by
  rw [HoistOutcome.movedTo, hhoisted]
  refine filter_flatMap_eq (fun m _ e he => ?_) (h.carried.fresh h.within).2 hm
  obtain ⟨s, -, rfl⟩ := List.mem_map.1 he
  rfl

theorem preheader_holds {o : HoistOutcome} {q : String × String}
    (hpre : o.preheaders = moves.map fun m => (m.2, m.1.header))
    (hhoisted : o.hoisted = moves.flatMap fun m =>
      m.1.sites.map fun s => ⟨g.nameOf s.node, m.2, s.instr⟩) (hq : q ∈ o.preheaders) :
    (⟨q.1, .atLabel q.1 :: ((o.movedTo q.1).map (·.instr) ++ [.jump q.2])⟩ : Block) ∈ blocks' := by
  obtain ⟨m, hm, rfl⟩ := List.mem_map.1 (hpre ▸ hq)
  rw [h.movedTo_eq hhoisted hm, List.map_map]
  exact h.preheader_mem hm

end Rearranged

/-- Without the preheaders the blocks behind hoisting are those that jumps were written out in, in
their order. Each has lost the hoisted instructions and no other, and kept all else but labels that
now lead to preheaders. The preheaders hold what was hoisted, every instruction once. -/
theorem Block.hoist_conserves {names : HoistNames} {blocks : List Block} {o : HoistOutcome}
    (h : Block.hoist names blocks = .ok o) :
    ∃ origins, o.Conserves (Block.addTerminators blocks) origins := by
  obtain ⟨g, live, planned, moves, hr, hpre, hhoisted⟩ := exists_rearranged h
  have hplaces := hr.map_placeOf_originsOf
  have hnew : o.preheaders.map (·.1) = moves.map (·.2) := by
    rw [hpre, List.map_map]
    rfl
  refine ⟨originsOf g moves, ?_⟩
  constructor
  case hoisted => exact (map_fst_hoisted Site.index).trans hhoisted.symm
  case origin =>
    intro e he
    obtain ⟨m, hm, he⟩ := List.mem_flatMap.1 he
    obtain ⟨s, hs, rfl⟩ := List.mem_map.1 he
    exact hr.exists_block_of_taken (hr.takenBy_eq ▸ List.mem_flatMap.2 ⟨m, hm, hs⟩)
  case distinct => exact hplaces ▸ hr.nodup_takenPlaces
  case names =>
    refine ⟨hr.nodup_names, fun q hq => ?_⟩
    obtain ⟨m, hm, rfl⟩ := List.mem_map.1 (hpre ▸ hq)
    exact hr.preheader_fresh hm
  case own =>
    rw [HoistOutcome.ownBlocks, hnew, hr.own_blocks, hplaces, List.forall₂_map_left_iff,
      List.forall₂_same]
    refine fun b _ => ⟨rfl, ?_⟩
    rw [List.forall₂_map_left_iff, List.forall₂_same]
    exact fun i _ => hr.relabels hpre b.name i
  case preheader => exact fun q hq => hr.preheader_holds hpre hhoisted hq
  case bodies =>
    rw [hpre, List.flatMap_map, hhoisted]
    exact List.flatMap_congr fun m hm => (hr.movedTo_eq hhoisted hm).symm
  case length => rw [hr.length_flatten, hpre, List.length_map]
  case unchanged =>
    intro hnone
    have hsame : o.changed = false := by rw [HoistOutcome.changed, hnone, List.isEmpty_nil]; rfl
    obtain ⟨g', live', hg, -, -, rfl⟩ := plans_of_unchanged h hsame
    obtain rfl := Except.ok.inj (hr.graph.symm.trans hg)
    have hall : (g.remaining []).map id = (addTerminators blocks).map id :=
      hr.map_remaining_eq [] fun v n _ => by rw [kept_eq_self (by simp)]
    simpa using hall

def printing : List Block :=
  [⟨"b0", [.constant "i" (.named "int") (.int 3), .jump "head"]⟩,
    ⟨"head", [.atLabel "head", .effect "print" ["i"], .constant "k" (.named "int") (.int 5),
      .effect "print" ["i"], .compute "add" "y" (.named "int") ["i", "k"]]⟩,
    ⟨"latch", [.effect "print" ["i"], .branch "c" "head" "done"]⟩,
    ⟨"done", [.atLabel "done", .ret ["y"]]⟩]

theorem printing_conserves : ∃ o origins, Block.hoist {} printing = .ok o ∧
    o.preheaders = [("preheader.0", "head")] ∧ o.hoisted.length = 2 ∧
    o.Conserves (Block.addTerminators printing) origins := by
  have houtcome : (Block.hoist {} printing).toOption.map (fun o =>
      (o.preheaders, o.hoisted.length)) = some ([("preheader.0", "head")], 2) := by
    decide +kernel
  obtain ⟨o, ho, houtcome⟩ := exists_of_toOption_map houtcome
  obtain ⟨hpreheaders, hlength⟩ := Prod.mk.inj houtcome
  obtain ⟨origins, horigins⟩ := Block.hoist_conserves ho
  exact ⟨o, origins, ho, hpreheaders, hlength, horigins⟩

end FlowOpt
