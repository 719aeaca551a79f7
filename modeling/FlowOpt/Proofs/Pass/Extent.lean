import FlowOpt.Pass.Basic
import FlowOpt.Proofs.Hoist.Rejoin
import FlowOpt.Proofs.Ssa.Rejoin

/-!
# How code grows

Passes put in labels and phis and give longer names, and take nothing away. Counted by its labels
first and then by its instructions and names, code that a pass reports to have changed is more than
it was.
-/

namespace FlowOpt

namespace Block

variable {cost : Instruction → Nat} {instrs l l' : List Instruction} {blocks : List Block}
  {b : Block} {i j : Instruction}

def total (cost : Instruction → Nat) (instrs : List Instruction) : Nat := (instrs.map cost).sum

def labelCost (i : Instruction) : Nat := if i.isLabel then 1 else 0

def nameCost (i : Instruction) : Nat := 1 + (i.dest.getD "").length

/-- How much code there is: first its labels count, then its instructions and names. -/
def extent (instrs : List Instruction) : Nat ×ₗ Nat :=
  toLex (total labelCost instrs, total nameCost instrs)

@[simp] theorem total_cons : total cost (i :: l) = cost i + total cost l := by simp [total]

@[simp] theorem total_append : total cost (l ++ l') = total cost l + total cost l' := by
  simp [total]

theorem total_flatten (blocks : List Block) :
    total cost (flatten blocks) = (blocks.map fun b => total cost b.instrs).sum := by
  induction blocks with
  | nil => rfl
  | cons b blocks ih =>
    rw [flatten, List.flatMap_cons, total_append, ← flatten, ih, List.map_cons, List.sum_cons]

theorem total_le_of_sublist (cost : Instruction → Nat) (h : l.Sublist l') :
    total cost l ≤ total cost l' :=
  (h.map cost).sum_le_sum fun _ _ => Nat.zero_le _

theorem extent_le_of_total (h : ∀ cost, (cost = labelCost ∨ cost = nameCost) →
    total cost l ≤ total cost l') : extent l ≤ extent l' :=
  Prod.Lex.toLex_mono ⟨h _ (.inl rfl), h _ (.inr rfl)⟩

theorem extent_lt_of_labels (h : total labelCost l < total labelCost l') : extent l < extent l' :=
  Prod.Lex.toLex_lt_toLex.2 (.inl h)

theorem extent_lt_of_names (hle : total labelCost l ≤ total labelCost l')
    (h : total nameCost l < total nameCost l') : extent l < extent l' :=
  Prod.Lex.toLex_strictMono (Prod.mk_lt_mk_of_le_of_lt hle h)

theorem extent_le_of_sublist (h : l.Sublist l') : extent l ≤ extent l' :=
  extent_le_of_total fun cost _ => total_le_of_sublist cost h

theorem extent_lt_of_sublist (h : l.Sublist l') (hne : l ≠ l') : extent l < extent l' := by
  apply extent_lt_of_names (total_le_of_sublist labelCost h)
  induction h with
  | slnil => exact absurd rfl hne
  | cons i h _ =>
    have hle := total_le_of_sublist nameCost h
    rw [total_cons, nameCost]
    omega
  | cons_cons i h ih =>
    rw [total_cons, total_cons]
    exact Nat.add_lt_add_left (ih fun heq => hne (heq ▸ rfl)) _

theorem extent_eq_of_beq (h : (l == l') = true) : extent l = extent l' := by
  have hcost : ∀ i j : Instruction, (i == j) = true →
      labelCost i = labelCost j ∧ nameCost i = nameCost j := by
    intro i j hij
    have hij : i.equal j = true := hij
    simp only [Instruction.equal, Bool.and_eq_true, beq_iff_eq] at hij
    obtain ⟨⟨⟨⟨⟨⟨⟨hlabel, -⟩, hdest⟩, -⟩, -⟩, -⟩, -⟩, -⟩ := hij
    constructor
    · rw [labelCost, labelCost, Instruction.isLabel, Instruction.isLabel, hlabel]
    · rw [nameCost, nameCost, hdest]
  have htotal : total labelCost l = total labelCost l' ∧ total nameCost l = total nameCost l' := by
    induction l generalizing l' with
    | nil =>
      cases l' with
      | nil => exact ⟨rfl, rfl⟩
      | cons j l' => cases h
    | cons i l ih =>
      cases l' with
      | nil => cases h
      | cons j l' =>
        rw [List.cons_beq_cons, Bool.and_eq_true] at h
        obtain ⟨hlabel, hname⟩ := hcost i j h.1
        obtain ⟨hlabels, hnames⟩ := ih h.2
        simp [hlabel, hname, hlabels, hnames]
  rw [extent, htotal.1, htotal.2]
  rfl

theorem flatten_sublist_explicitFrom (b : Block) (rest : List Block) :
    (flatten (b :: rest)).Sublist (flatten (explicitFrom b rest)) := by
  induction rest generalizing b with
  | nil => exact .refl _
  | cons next rest ih =>
    have hlabel : (flatten (next :: rest)).Sublist (flatten (next.ensureLabel :: rest)) := by
      refine List.Sublist.append ?_ (.refl _)
      unfold ensureLabel
      split
      · exact List.sublist_cons_self _ _
      · exact .refl _
    rw [explicitFrom]
    split
    · exact (List.sublist_append_left _ _).append (hlabel.trans (ih _))
    · exact (List.Sublist.refl _).append (ih next)

theorem flatten_sublist_addTerminators (blocks : List Block) :
    (flatten blocks).Sublist (flatten (addTerminators blocks)) := by
  cases blocks with
  | nil => exact .refl _
  | cons b rest => exact flatten_sublist_explicitFrom b rest

end Block

namespace SsaForm

open Ssa Block

variable {g : FlowGraph} {undefined : String} {s : Walk} {name : String}
  {phis kept written instrs instrs' : List Instruction} {v : Nat} {b : Block}

theorem total_withPhis (cost : Instruction → Nat) (h : WithPhis name phis kept written) :
    total cost phis + total cost kept ≤ total cost written := by
  cases h with
  | behindLabel _ =>
    simp only [total_cons, total_append]
    omega
  | newLabel _ =>
    simp only [total_cons, total_append]
    omega
  | inFront _ => simp only [total_append, le_refl]

theorem labelCost_reissued {i j : Instruction} (h : Reissued i j) : labelCost j = labelCost i := by
  rw [labelCost, labelCost, h.isLabel_eq]

/-- A version has a longer name than its variable. -/
theorem nameCost_reissued {i j : Instruction} (h : Reissued i j) :
    nameCost i ≤ nameCost j ∧ (i.dest ≠ none → nameCost i < nameCost j) := by
  rcases h.dest with ⟨hi, hj⟩ | ⟨x, n, hi, hj⟩
  · simp [nameCost, hi, hj]
  · have hdot : ".".length = 1 := rfl
    simp only [nameCost, hi, hj, FlowGraph.numbered, Option.getD_some, String.length_append]
    omega

theorem total_reissued (h : List.Forall₂ Reissued instrs instrs') :
    total labelCost instrs = total labelCost instrs' ∧
      total nameCost instrs ≤ total nameCost instrs' ∧
      ((∃ i ∈ instrs, i.dest ≠ none) → total nameCost instrs < total nameCost instrs') := by
  induction h with
  | nil => simp
  | cons hij _ ih =>
    obtain ⟨hlabels, hnames, hlt⟩ := ih
    obtain ⟨hname, hnlt⟩ := nameCost_reissued hij
    have hlabel := labelCost_reissued hij
    simp only [total_cons]
    refine ⟨by omega, by omega, ?_⟩
    rintro ⟨k, hk, hdest⟩
    rcases List.mem_cons.1 hk with rfl | hk
    · have := hnlt hdest
      omega
    · have := hlt ⟨k, hk, hdest⟩
      omega

theorem total_rebuilt (h : Rewriting g undefined s) (hb : g.blocks[v]? = some b)
    (sources : List String) :
    total labelCost b.instrs ≤ total labelCost (rebuilt s sources b v).instrs ∧
      total nameCost b.instrs ≤ total nameCost (rebuilt s sources b v).instrs ∧
      ((s.phisOf v ≠ [] ∨ ((s.code? v).isSome = true ∧ ∃ i ∈ b.instrs, i.dest ≠ none)) →
        total nameCost b.instrs < total nameCost (rebuilt s sources b v).instrs) := by
  have hphis := withPhis_rebuilt s sources b v
  have hlabels := total_withPhis labelCost hphis
  have hnames := total_withPhis nameCost hphis
  have hpos : s.phisOf v ≠ [] → 0 < total nameCost ((s.phisOf v).map (·.toInstruction)) := by
    intro hne
    obtain ⟨p, rest, heq⟩ := List.exists_cons_of_ne_nil hne
    rw [heq, List.map_cons, total_cons, nameCost]
    omega
  cases hcode : s.code? v with
  | none =>
    rw [hcode, Option.getD_none] at hlabels hnames
    refine ⟨by omega, by omega, ?_⟩
    rintro (hne | ⟨hsome, -⟩)
    · have := hpos hne
      omega
    · cases hsome
  | some instrs =>
    obtain ⟨b', env, env', hb', hrenamed⟩ := h.code v instrs hcode
    obtain rfl := Option.some.inj (hb.symm.trans hb')
    obtain ⟨hsame, hle, hlt⟩ := total_reissued hrenamed.reissued
    rw [hcode, Option.getD_some] at hlabels hnames
    refine ⟨by omega, by omega, ?_⟩
    rintro (hne | ⟨-, hdest⟩)
    · have := hpos hne
      omega
    · have := hlt hdest
      omega

theorem total_blocks (cost : Instruction → Nat) (blocks : List Block) :
    total cost (flatten blocks) = (blocks.zipIdx.map fun e => total cost e.1.instrs).sum := by
  rw [total_flatten]
  conv_lhs => rw [← List.zipIdx_map_fst 0 blocks, List.map_map]
  rfl

/-- A form has the labels of the graph, and more code where it has phis or versions. -/
theorem total_ofWalk (h : Rewriting g undefined s) :
    total labelCost (flatten g.blocks) ≤ total labelCost (ofWalk g s).instrs ∧
      total nameCost (flatten g.blocks) ≤ total nameCost (ofWalk g s).instrs ∧
      (((∃ v, s.phisOf v ≠ []) ∨ s.definitions ≠ 0) →
        total nameCost (flatten g.blocks) < total nameCost (ofWalk g s).instrs) := by
  obtain ⟨sources, hblocks⟩ := exists_blocks_ofWalk g s
  have hget : ∀ e ∈ g.blocks.zipIdx, g.blocks[e.2]? = some e.1 := fun e he => by
    simpa using List.mem_zipIdx_iff_getElem?.1 he
  have hform : ∀ cost, total cost (ofWalk g s).instrs =
      (g.blocks.zipIdx.map fun e => total cost (rebuilt s sources e.1 e.2).instrs).sum := by
    intro cost
    rw [SsaForm.instrs, hblocks, total_flatten, List.map_map]
    rfl
  simp only [hform, total_blocks]
  refine ⟨?_, ?_, fun hmore => ?_⟩
  · exact List.sum_le_sum fun e he => (total_rebuilt h (hget e he) sources).1
  · exact List.sum_le_sum fun e he => (total_rebuilt h (hget e he) sources).2.1
  · apply List.sum_lt_sum _ _ fun e he => (total_rebuilt h (hget e he) sources).2.1
    have hnode : ∃ v b, g.blocks[v]? = some b ∧ (s.phisOf v ≠ [] ∨
        ((s.code? v).isSome = true ∧ ∃ i ∈ b.instrs, i.dest ≠ none)) := by
      have hphis : (∃ v, s.phisOf v ≠ []) → ∃ v b, g.blocks[v]? = some b ∧ s.phisOf v ≠ [] := by
        rintro ⟨v, hv⟩
        have hlt : v < g.blocks.length := by
          rw [← FlowGraph.size_eq_length, ← h.phis_size]
          by_contra hge
          exact hv (by simp [Walk.phisOf, Array.getElem?_eq_none (Nat.le_of_not_lt hge)]; rfl)
        exact ⟨v, _, List.getElem?_eq_getElem hlt, hv⟩
      rcases hmore with hv | hne
      · obtain ⟨v, b, hb, hv⟩ := hphis hv
        exact ⟨v, b, hb, .inl hv⟩
      · rcases h.definitions hne with ⟨v, x, hx⟩ | ⟨v, b, hb, hcode⟩
        · obtain ⟨p, hp⟩ := Option.isSome_iff_exists.1 hx
          obtain ⟨u, b, hb, hu⟩ := hphis ⟨v, List.ne_nil_of_mem (mem_phisOf.2 ⟨x, hp⟩)⟩
          exact ⟨u, b, hb, .inl hu⟩
        · exact ⟨v, b, hb, .inr hcode⟩
    obtain ⟨v, b, hb, hmore⟩ := hnode
    exact ⟨(b, v), by simpa using List.mem_zipIdx_iff_getElem?.2 hb,
      (total_rebuilt h hb sources).2.2 hmore⟩

/-- What a form reports to have changed is the entry, a phi or a version. -/
theorem of_mem_events {form : SsaForm} {e : Event} {function : String}
    (he : e ∈ form.events g function undefined) (ht : e.kind.isTransformation = true) :
    e.function = some function ∧ (g.hasSyntheticEntry = true ∨ (form.phis.entries.flatMap (·.2)) ≠ [] ∨
      form.renamed ≠ 0) := by
  simp only [events, List.mem_append] at he
  rcases he with ((he | he) | he) | he
  · split at he
    · next hentry =>
      obtain rfl := List.mem_singleton.1 he
      exact ⟨rfl, .inl hentry⟩
    · cases he
  · obtain ⟨⟨block, phis⟩, hphis, he⟩ := List.mem_flatMap.1 he
    obtain ⟨p, hp, rfl⟩ := List.mem_map.1 he
    exact ⟨rfl, .inr (.inl (List.ne_nil_of_mem (List.mem_flatMap.2 ⟨_, hphis, hp⟩)))⟩
  · split at he
    · next hrenamed =>
      obtain rfl := List.mem_singleton.1 he
      exact ⟨rfl, .inr (.inr hrenamed.ne')⟩
    · cases he
  · split at he
    · obtain rfl := List.mem_singleton.1 he
      cases ht
    · cases he

theorem exists_phis_of_listed (h : ((ofWalk g s).phis.entries.flatMap (·.2)) ≠ []) :
    ∃ v, s.phisOf v ≠ [] := by
  obtain ⟨p, hp⟩ := List.exists_mem_of_ne_nil _ h
  obtain ⟨⟨name, phis⟩, he, hp⟩ := List.mem_flatMap.1 hp
  have hmem := NameMap.mem_of_get?_ofList (NameMap.mem_entries_iff.1 he)
  obtain ⟨v, hv, heq⟩ := List.mem_map.1 hmem
  have hphis : s.phisOf v = phis := congrArg Prod.snd heq
  exact ⟨v, hphis ▸ List.ne_nil_of_mem hp⟩

theorem total_blocks_of_synthetic {blocks : List Block} {stem : String}
    (h : FlowGraph.ofBlocks blocks stem = .ok g) :
    total labelCost (flatten blocks) ≤ total labelCost (flatten g.blocks) ∧
      total nameCost (flatten blocks) ≤ total nameCost (flatten g.blocks) ∧
      (g.hasSyntheticEntry = true →
        total labelCost (flatten blocks) < total labelCost (flatten g.blocks)) := by
  obtain ⟨first, rest, front, rfl, hfront, hnodes⟩ := FlowGraph.nodes_of_ofBlocks h
  have hblocks : g.blocks = front.map (·.block) ++ first :: rest := by
    rw [FlowGraph.blocks, hnodes, List.map_append, FlowGraph.map_block_annotate]
  rw [hblocks, flatten, flatten, List.flatMap_append, total_append, total_append]
  refine ⟨Nat.le_add_left _ _, Nat.le_add_left _ _, fun hentry => ?_⟩
  cases hfront with
  | none _ =>
    have hfirst : (g.node? 0).any (·.synthetic) = false := by
      rw [← FlowGraph.getElem?_nodes, hnodes]
      exact FlowGraph.synthetic_annotate {} (first :: rest) _ List.mem_cons_self
    have hentry : (g.node? 0).any (·.synthetic) = true := hentry
    rw [hfirst] at hentry
    cases hentry
  | jump name _ =>
    simp [labelCost, Instruction.isLabel, Block.labeled, Instruction.atLabel]

end SsaForm

/-- A form holds no less code than what it is made of, and more if it reports a change. -/
theorem SsaForm.extent_le {blocks : List Block} {instrs : List Instruction} {stem undefined : String}
    {g : FlowGraph} {params : List String} {form : SsaForm}
    (hblocks : Block.split instrs = .ok blocks)
    (hg : FlowGraph.ofBlocks (Block.addTerminators blocks) stem = .ok g)
    (h : SsaForm.ofGraph g params undefined = .ok form) :
    Block.extent instrs ≤ Block.extent form.instrs ∧
      ∀ function, ∀ e ∈ form.events g function undefined, e.kind.isTransformation = true →
        Block.extent instrs < Block.extent form.instrs := by
  obtain ⟨s, hs, rfl⟩ := Ssa.exists_rewriting (.of_ofBlocks hg) h
  have hsub := Block.flatten_split hblocks ▸ Block.flatten_sublist_addTerminators blocks
  have hlabels := Block.total_le_of_sublist Block.labelCost hsub
  have hnames := Block.total_le_of_sublist Block.nameCost hsub
  obtain ⟨hlabels', hnames', hentry⟩ := total_blocks_of_synthetic hg
  obtain ⟨hlabels'', hnames'', hmore⟩ := total_ofWalk hs
  constructor
  · exact Prod.Lex.toLex_mono ⟨by simp only; omega, by simp only; omega⟩
  · intro function e he ht
    obtain ⟨-, hsynthetic | hphis | hrenamed⟩ := of_mem_events he ht
    · have := hentry hsynthetic
      exact Block.extent_lt_of_labels (by omega)
    · have := hmore (.inl (exists_phis_of_listed hphis))
      exact Block.extent_lt_of_names (by omega) (by omega)
    · have := hmore (.inr hrenamed)
      exact Block.extent_lt_of_names (by omega) (by omega)

section Hoisting

open Block

variable {names : HoistNames} {stem : String} {instrs : List Instruction} {o : HoistOutcome}
  {e : Event} {blocks blocks' : List Block} {taken : List Site} {v n : Nat}
  {cost : Instruction → Nat} {p : HoistPlan} {new : Block} {moves : List Move}

theorem total_kept (h : ∀ k i, instrs[k]? = some i →
      (∃ s ∈ taken, s.node = v ∧ s.index = n + k) → cost i = 0) :
    total cost (kept taken v n instrs) = total cost instrs := by
  induction instrs generalizing n with
  | nil => rfl
  | cons i rest ih =>
    have hrest := ih (n := n + 1) fun k j hj ⟨s, hs, hv, hk⟩ =>
      h (k + 1) j hj ⟨s, hs, hv, by omega⟩
    by_cases hi : ∃ s ∈ taken, s.node = v ∧ s.index = n
    · obtain ⟨s, hs, hv, hk⟩ := hi
      rw [kept_cons_of_mem hs hv hk, hrest, total_cons, h 0 i rfl ⟨s, hs, hv, hk⟩, Nat.zero_add]
    · rw [kept_cons_of_not fun s hs hv hk => hi ⟨s, hs, hv, hk⟩, total_cons, total_cons, hrest]

namespace HoistPlan

theorem total_insertBefore (h : p.header ∈ blocks.map (·.name)) :
    total cost (flatten (p.insertBefore new blocks)) =
      total cost new.instrs + total cost (flatten blocks) := by
  induction blocks with
  | nil => cases h
  | cons b blocks ih =>
    unfold insertBefore
    split
    · simp only [flatten, List.flatMap_cons, total_append]
    · next hne =>
      rw [List.map_cons, List.mem_cons] at h
      have hrest := ih (h.resolve_left (Ne.symm hne))
      simp only [flatten, List.flatMap_cons, total_append] at hrest ⊢
      omega

/-- A plan that is carried out adds its preheader, if labels are not counted. -/
theorem total_carryOut {m : Move}
    (hcost : ∀ (i : Instruction) (labels : List String), cost { i with labels } = cost i)
    (h : m.1.header ∈ blocks.map (·.name)) : total cost (flatten (carryOut blocks m)) =
      total cost (m.1.preheaderBlock m.2).instrs + total cost (flatten blocks) := by
  have hredirect : ∀ b : Block, total cost (m.1.redirectBlock m.2 b).instrs =
      total cost b.instrs := by
    intro b
    rw [redirectBlock, total, List.map_map, total]
    refine congrArg List.sum (List.map_congr_left fun i _ => ?_)
    rw [Function.comp_apply, redirect_eq, hcost]
  have hsame : total cost (flatten (blocks.map (m.1.redirectBlock m.2))) =
      total cost (flatten blocks) := by
    rw [total_flatten, total_flatten, List.map_map]
    exact congrArg List.sum (List.map_congr_left fun b _ => hredirect b)
  rw [carryOut, total_insertBefore (names_redirect m.1 m.2 blocks ▸ h), hsame]

theorem CarriedOut.total_eq
    (hcost : ∀ (i : Instruction) (labels : List String), cost { i with labels } = cost i)
    (h : CarriedOut blocks moves blocks') (hw : Within moves (blocks.map (·.name))) :
    total cost (flatten blocks') = total cost (flatten blocks) +
      (moves.map fun m => total cost (m.1.preheaderBlock m.2).instrs).sum := by
  induction h with
  | nil => rfl
  | @cons blocks _ m moves _ _ ih =>
    rw [ih hw.carryOut, total_carryOut hcost (hw m List.mem_cons_self).1, List.map_cons,
      List.sum_cons]
    omega

/-- Every preheader brings its label. -/
theorem CarriedOut.labels (h : CarriedOut blocks moves blocks')
    (hw : Within moves (blocks.map (·.name))) :
    total labelCost (flatten blocks) + moves.length ≤ total labelCost (flatten blocks') := by
  have hone : ∀ n ∈ moves.map fun m => total labelCost (m.1.preheaderBlock m.2).instrs, 1 ≤ n := by
    intro n hn
    obtain ⟨m, -, rfl⟩ := List.mem_map.1 hn
    have hlabel : labelCost (.atLabel m.2) = 1 := rfl
    rw [preheaderBlock, labeled, total_cons, hlabel]
    omega
  have hlength := List.length_le_sum_of_one_le _ hone
  rw [List.length_map] at hlength
  rw [h.total_eq (fun _ _ => rfl) hw]
  omega

end HoistPlan

theorem Rearranged.labels_remaining {g : FlowGraph} {live : Results} {planned : List PlannedLoop}
    (h : Rearranged stem blocks g live planned moves blocks') :
    total labelCost (flatten (g.remaining (planned.map (·.2)))) =
      total labelCost (flatten blocks) := by
  have hblock : (g.remaining (planned.map (·.2))).map (fun b => total labelCost b.instrs) =
      blocks.map fun b => total labelCost b.instrs := by
    refine h.map_remaining_eq _ fun v n hn => total_kept fun k i hi => ?_
    rintro ⟨s, hs, hv, hk⟩
    have htaken : s ∈ takenBy planned := by rwa [List.flatMap_map] at hs
    have hat : g.InstrAt s.node s.index i := by
      rw [FlowGraph.instrAt_iff, hv, hn, hk, Nat.zero_add]
      exact hi
    have hlabel := Instruction.isLabel_of_isMovable
      (h.instr_eq_of_taken htaken hat ▸ h.isMovable_of_taken htaken)
    rw [labelCost, hlabel]
    rfl
  rw [total_flatten, total_flatten, hblock]

/-- Hoisting keeps all labels and puts in one for every preheader. -/
theorem HoistsTo.extent_lt (h : HoistsTo names instrs o) (hchanged : o.changed = true) :
    extent instrs < extent (flatten o.blocks) := by
  obtain ⟨blocks, hblocks, ho⟩ := h
  obtain ⟨g, live, planned, moves, hr, -, hhoisted⟩ := exists_rearranged ho
  have hmoves : 0 < moves.length := by
    apply List.length_pos_of_ne_nil
    rintro rfl
    simp [HoistOutcome.changed, hhoisted] at hchanged
  have hexplicit : total labelCost instrs ≤ total labelCost (flatten (addTerminators blocks)) :=
    total_le_of_sublist _ (flatten_split hblocks ▸ flatten_sublist_addTerminators blocks)
  have hremaining := hr.labels_remaining
  have hcarried := hr.carried.labels hr.within
  exact extent_lt_of_labels (by omega)

theorem HoistOutcome.of_mem_events {function : String}
    (h : Block.hoist names blocks = .ok o) (he : e ∈ o.events function)
    (ht : e.kind.isTransformation = true) : e.function = some function ∧ o.changed = true := by
  constructor
  · simp only [events, List.mem_append, List.mem_map] at he
    rcases he with ((⟨_, -, rfl⟩ | ⟨_, -, rfl⟩) | ⟨_, -, rfl⟩) | ⟨_, -, rfl⟩ <;> rfl
  · by_contra hsame
    obtain ⟨g, live, -, -, -, rfl⟩ := Block.plans_of_unchanged h (Bool.not_eq_true _ ▸ hsame)
    simp only [events, List.map_nil, List.append_nil, List.mem_map] at he
    obtain ⟨header, -, rfl⟩ := he
    cases ht

end Hoisting

end FlowOpt
