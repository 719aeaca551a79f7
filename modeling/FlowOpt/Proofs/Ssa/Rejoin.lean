import FlowOpt.Proofs.Cut
import FlowOpt.Proofs.Ssa.Form
import FlowOpt.Proofs.Ssa.Layout

/-!
# A form cut again

A form keeps the blocks of its graph with their labels and where they lead to; only phis and labels
are put in. So joined and cut again it is the same, and its jumps lead to labels that stand in it,
if those of the code did.
-/

namespace FlowOpt

open FlowOpt.Ssa

namespace Ssa

variable {g : FlowGraph} {undefined : String} {s : Walk} {d : Dominance} {v : Nat} {b : Block}
  {env env' : Env} {instrs instrs' : List Instruction} {i j : Instruction}

/-- What every visit keeps, the walk keeps. -/
theorem rename_induction {P : Walk → Prop}
    (hvisit : ∀ s v b env, g.blocks[v]? = some b → P s → P (visit g undefined v b env s).2)
    (fuel v : Nat) (env : Env) (h : P s) : P (rename g d undefined fuel v env s) := by
  induction fuel generalizing v env s with
  | zero => exact h
  | succ fuel ih =>
    cases hn : g.node? v with
    | none => simpa only [rename, hn] using h
    | some node =>
      have hb : g.blocks[v]? = some node.block := by
        rw [← FlowGraph.map_block_node?, hn]
        rfl
      rw [rename_succ hn]
      have hchildren : ∀ (children : List Nat) (env : Env) (s : Walk), P s →
          P (children.foldl (fun s c => rename g d undefined fuel c env s) s) := by
        intro children env
        induction children with
        | nil => exact fun _ hs => hs
        | cons c children ihc => exact fun s hs => ihc _ (ih c env hs)
      exact hchildren _ _ _ (hvisit s v node.block env hb h)

theorem definitions_renameInstrs (h : ∀ i ∈ instrs, i.dest = none) (env : Env) (s : Walk) :
    (renameInstrs undefined instrs env s).2.2.definitions = s.definitions := by
  induction instrs generalizing s with
  | nil => rfl
  | cons i rest ih =>
    rw [renameInstrs_effect (h i List.mem_cons_self)]
    exact ih (fun i hi => h i (List.mem_cons_of_mem _ hi)) _

theorem definitions_feedPhis (block : String) (env : Env) (nodes : List Nat) (s : Walk) :
    (nodes.foldl (feedPhis undefined block env) s).definitions = s.definitions := by
  have hfeed : ∀ (entries : List (String × Phi)) (succ : Nat) (s : Walk),
      (entries.foldl (fun w (e : String × Phi) =>
        { w.setPhi succ e.1 (e.2.addOperand block (called undefined env e.1)) with
          undefinedUses := w.undefinedUses + if env.contains e.1 then 0 else 1 }) s).definitions =
        s.definitions := by
    intro entries succ
    induction entries with
    | nil => exact fun _ => rfl
    | cons e entries ih => exact fun s => ih _
  induction nodes generalizing s with
  | nil => rfl
  | cons succ nodes ih => exact (ih _).trans (hfeed _ succ s)

theorem definitions_visit (hphis : (s.phis[v]?.getD {}).entries = [])
    (hdest : ∀ i ∈ b.instrs, i.dest = none) (env : Env) :
    (visit g undefined v b env s).2.definitions = s.definitions := by
  unfold visit
  rw [hphis]
  exact (definitions_feedPhis _ _ _ _).trans (definitions_renameInstrs hdest env s)

/-- What the walk has made of the code so far: renamed blocks, and no version that is not the
destination of a phi or of an instruction renamed. -/
structure Rewriting (g : FlowGraph) (undefined : String) (s : Walk) : Prop where
  phis_size : s.phis.size = g.size
  renamed_size : s.renamed.size = g.size
  code : ∀ v instrs, s.code? v = some instrs → ∃ b env env', g.blocks[v]? = some b ∧
    Renamed undefined env b.instrs instrs env'
  definitions : s.definitions ≠ 0 → (∃ v x, (s.phi? v x).isSome = true) ∨
    ∃ v b, g.blocks[v]? = some b ∧ (s.code? v).isSome = true ∧ ∃ i ∈ b.instrs, i.dest ≠ none

theorem Rewriting.visited (hg : g.WellFormed) (h : Rewriting g undefined s)
    (hb : g.blocks[v]? = some b) (env : Env) :
    Rewriting g undefined (visit g undefined v b env s).2 := by
  have hlt : v < g.size := FlowGraph.size_eq_length g ▸ (List.getElem?_eq_some_iff.1 hb).1
  obtain ⟨t, -, -, hv⟩ := visit_spec undefined hg h.phis_size h.renamed_size hlt b env
  obtain ⟨instrs, hcode, hrenamed, -⟩ := hv.code
  have hphi : ∀ u x, ((visit g undefined v b env s).2.phi? u x).isSome = (s.phi? u x).isSome := by
    intro u x
    rw [hv.phis, Option.isSome_map]
  refine ⟨hv.phis_size.trans h.phis_size, hv.renamed_size.trans h.renamed_size, ?_, ?_⟩
  · intro u code hu
    by_cases huv : u = v
    · subst huv
      obtain rfl := Option.some.inj (hcode.symm.trans hu)
      exact ⟨b, _, _, hb, hrenamed⟩
    · rw [hv.code_elsewhere u huv] at hu
      exact h.code u code hu
  · intro hne
    have hhere : ((visit g undefined v b env s).2.code? v).isSome = true := by rw [hcode]; rfl
    by_cases hdest : ∀ i ∈ b.instrs, i.dest = none
    · by_cases hphis : (s.phis[v]?.getD {}).entries = []
      · rw [definitions_visit hphis hdest] at hne
        rcases h.definitions hne with ⟨u, x, hx⟩ | ⟨u, c, hc, hcode', hassigns⟩
        · exact .inl ⟨u, x, (hphi u x).trans hx⟩
        · refine .inr ⟨u, c, hc, ?_, hassigns⟩
          by_cases huv : u = v
          · exact huv ▸ hhere
          · rwa [hv.code_elsewhere u huv]
      · obtain ⟨⟨x, p⟩, hp⟩ := List.exists_mem_of_ne_nil _ hphis
        have hget : s.phi? v x = some p := NameMap.mem_entries_iff.1 hp
        exact .inl ⟨v, x, by rw [hphi, hget]; rfl⟩
    · push Not at hdest
      exact .inr ⟨v, b, hb, hhere, hdest⟩

theorem Rewriting.start (hg : g.WellFormed) (undefined : String) :
    Rewriting g undefined (startWalk g) where
  phis_size := (placePhis_spec hg).1
  renamed_size := Array.size_replicate
  code v instrs h := by
    rw [Walk.code?, startWalk, Array.getElem?_replicate] at h
    split at h
    · cases h
    · cases h
  definitions h := absurd rfl h

theorem exists_rewriting {params : List String} {form : SsaForm} (hg : g.WellFormed)
    (h : SsaForm.ofGraph g params undefined = .ok form) :
    ∃ s, Rewriting g undefined s ∧ form = SsaForm.ofWalk g s :=
  ⟨_, rename_induction (fun _ _ _ env hb hs => hs.visited hg hb env) _ _ _ (.start hg undefined),
    eq_ofWalk hg h⟩

structure Reissued (i j : Instruction) : Prop where
  eq : j = { i with args := j.args, dest := j.dest }
  dest : (i.dest = none ∧ j.dest = none) ∨
    ∃ x n, i.dest = some x ∧ j.dest = some (FlowGraph.numbered x n)

theorem Renamed.reissued (h : Renamed undefined env instrs instrs' env') :
    List.Forall₂ Reissued instrs instrs' := by
  induction h with
  | nil => exact .nil
  | effect hi _ ih => exact .cons ⟨rfl, .inl ⟨hi, hi⟩⟩ ih
  | assign hi _ ih => exact .cons ⟨rfl, .inr ⟨_, _, hi, rfl⟩⟩ ih

theorem Reissued.label_eq (h : Reissued i j) : j.label = i.label := by rw [h.eq]

theorem Reissued.isLabel_eq (h : Reissued i j) : j.isLabel = i.isLabel := by
  rw [Instruction.isLabel, h.label_eq]
  rfl

theorem Reissued.isBranch_eq (h : Reissued i j) : j.isBranch = i.isBranch := by
  rw [h.eq]
  rfl

theorem Reissued.labels_eq (h : Reissued i j) : j.labels = i.labels := by rw [h.eq]

theorem exists_reissued (h : List.Forall₂ Reissued instrs instrs') (hj : j ∈ instrs') :
    ∃ i ∈ instrs, Reissued i j := by
  induction h with
  | nil => cases hj
  | cons hij _ ih =>
    rcases List.mem_cons.1 hj with rfl | hj
    · exact ⟨_, List.mem_cons_self, hij⟩
    · obtain ⟨i, hi, hij⟩ := ih hj
      exact ⟨i, List.mem_cons_of_mem _ hi, hij⟩

section Rebuilt

variable {name : String} {phis : List Phi} {kept : List Instruction} {c : Block}

theorem headed_of_reissued (hb : b.Headed) (h : List.Forall₂ Reissued b.instrs kept) :
    (⟨b.name, kept⟩ : Block).Headed := by
  obtain ⟨i, rest, hinstrs, hlabel, hrest⟩ := hb.instrs_eq
  rw [hinstrs] at h
  cases h with
  | cons hij hrest' =>
    refine ⟨(hij.label_eq).trans hlabel, fun j hj => ?_⟩
    obtain ⟨i, hi, hij⟩ := exists_reissued hrest' hj
    rw [hij.isLabel_eq, hrest i hi]

theorem bare_of_reissued (hb : b.Bare) (h : List.Forall₂ Reissued b.instrs kept) :
    (⟨b.name, kept⟩ : Block).Bare := by
  refine ⟨fun hnil => hb.1 ?_, fun j hj => ?_⟩
  · obtain rfl : kept = [] := hnil
    exact List.forall₂_nil_right_iff.1 h
  · obtain ⟨i, hi, hij⟩ := exists_reissued h hj
    rw [hij.isLabel_eq, hb.2 i hi]

theorem isLabel_of_mem_phis (hj : j ∈ phis.map (·.toInstruction)) : j.isLabel = false := by
  obtain ⟨p, -, rfl⟩ := List.mem_map.1 hj
  rfl

theorem headed_of_withPhis (hb : (⟨name, kept⟩ : Block).Headed)
    (h : WithPhis name (phis.map (·.toInstruction)) kept c.instrs) (hname : c.name = name) :
    c.Headed := by
  obtain ⟨i, rest, hkept, hlabel, hrest⟩ := hb.instrs_eq
  obtain rfl : kept = i :: rest := hkept
  generalize hc : c.instrs = written at h
  cases h with
  | behindLabel hi =>
    refine ⟨?_, fun j hj => ?_⟩
    · rw [Block.label, hc, hname]
      exact hlabel
    · rw [hc, List.tail_cons, List.mem_append] at hj
      exact hj.elim isLabel_of_mem_phis (hrest j)
  | newLabel hnone => simp [hlabel] at hnone
  | inFront hnone => simp [hlabel] at hnone

theorem shape_of_withPhis (hb : (⟨name, kept⟩ : Block).Bare)
    (h : WithPhis name (phis.map (·.toInstruction)) kept c.instrs) (hname : c.name = name) :
    c.Headed ∨ c.Bare := by
  have hunlabeled : ∀ j ∈ phis.map (·.toInstruction) ++ kept, j.isLabel = false := by
    intro j hj
    exact (List.mem_append.1 hj).elim isLabel_of_mem_phis (hb.2 j)
  generalize hc : c.instrs = written at h
  cases h with
  | @behindLabel i rest hi =>
    rw [hb.2 i List.mem_cons_self] at hi
    cases hi
  | newLabel _ =>
    refine .inl ⟨?_, fun j hj => ?_⟩
    · rw [Block.label, hc, hname]
      rfl
    · rw [hc] at hj
      exact hunlabeled j hj
  | inFront _ =>
    refine .inr ⟨fun hnil => hb.1 ?_, fun j hj => hunlabeled j (hc ▸ hj)⟩
    rw [hc] at hnil
    exact (List.append_eq_nil_iff.1 hnil).2

theorem mem_of_withPhis {written : List Instruction}
    (h : WithPhis name (phis.map (·.toInstruction)) kept written) (hi : i ∈ written) :
    i ∈ kept ∨ i ∈ phis.map (·.toInstruction) ∨ i = .atLabel name := by
  cases h with
  | behindLabel _ =>
    rcases List.mem_cons.1 hi with rfl | hi
    · exact .inl List.mem_cons_self
    · rcases List.mem_append.1 hi with hi | hi
      · exact .inr (.inl hi)
      · exact .inl (List.mem_cons_of_mem _ hi)
  | newLabel _ =>
    rcases List.mem_cons.1 hi with rfl | hi
    · exact .inr (.inr rfl)
    · exact (List.mem_append.1 hi).symm.imp_right .inl
  | inFront _ => exact (List.mem_append.1 hi).symm.imp_right .inl

theorem mem_targets_of_withPhis {t : String} (hkept : kept = b.instrs ∨
      List.Forall₂ Reissued b.instrs kept)
    (h : WithPhis name (phis.map (·.toInstruction)) kept c.instrs) (ht : t ∈ c.targets) :
    t ∈ b.targets := by
  obtain ⟨j, hj, hbr, hl⟩ := Block.mem_targets.1 ht
  rcases mem_of_withPhis h hj with hj | hj | rfl
  · rcases hkept with rfl | hkept
    · exact Block.mem_targets.2 ⟨j, hj, hbr, hl⟩
    · obtain ⟨i, hi, hij⟩ := exists_reissued hkept hj
      exact Block.mem_targets.2 ⟨i, hi, hij.isBranch_eq ▸ hbr, hij.labels_eq ▸ hl⟩
  · obtain ⟨p, -, rfl⟩ := List.mem_map.1 hj
    cases hbr
  · cases hbr

end Rebuilt

end Ssa

namespace SsaForm

open Block

variable {g : FlowGraph} {undefined : String} {s : Walk} {c : Block}

theorem exists_of_mem_ofWalk (h : Rewriting g undefined s) (hc : c ∈ (ofWalk g s).blocks) :
    ∃ v b kept, g.blocks[v]? = some b ∧ c.name = b.name ∧
      (kept = b.instrs ∨ List.Forall₂ Reissued b.instrs kept) ∧
      WithPhis b.name ((s.phisOf v).map (·.toInstruction)) kept c.instrs := by
  obtain ⟨sources, hblocks⟩ := exists_blocks_ofWalk g s
  rw [hblocks] at hc
  obtain ⟨⟨b, v⟩, hmem, rfl⟩ := List.mem_map.1 hc
  have hb : g.blocks[v]? = some b := by simpa using List.mem_zipIdx_iff_getElem?.1 hmem
  refine ⟨v, b, _, hb, name_rebuilt s sources b v, ?_, withPhis_rebuilt s sources b v⟩
  cases hcode : s.code? v with
  | none => exact .inl rfl
  | some instrs =>
    obtain ⟨b', env, env', hb', hrenamed⟩ := h.code v instrs hcode
    obtain rfl := Option.some.inj (hb.symm.trans hb')
    exact .inr hrenamed.reissued

/-- A form is as cutting gives it, if the blocks of the graph are. -/
theorem cut_ofWalk (h : Rewriting g undefined s) (hcut : Cut g.blocks) :
    Cut (ofWalk g s).blocks := by
  apply hcut.of_shape
  · rw [names_ofWalk, FlowGraph.names_eq]
  · intro c hc
    obtain ⟨v, b, kept, hb, hname, hkept, hphis⟩ := exists_of_mem_ofWalk h hc
    refine ⟨b, List.mem_of_getElem? hb, hname, fun hheaded => ?_, fun hbare => ?_⟩
    · refine headed_of_withPhis ?_ hphis hname
      rcases hkept with rfl | hkept
      · exact hheaded
      · exact headed_of_reissued hheaded hkept
    · refine shape_of_withPhis ?_ hphis hname
      rcases hkept with rfl | hkept
      · exact hbare
      · exact bare_of_reissued hbare hkept

theorem linked_ofWalk (h : Rewriting g undefined s) (hcut : Cut g.blocks)
    (hlinked : Linked g.blocks) : Linked (ofWalk g s).blocks := by
  intro c hc t ht
  obtain ⟨v, b, kept, hb, -, hkept, hphis⟩ := exists_of_mem_ofWalk h hc
  obtain ⟨d, hd, hheaded, rfl⟩ :=
    hlinked b (List.mem_of_getElem? hb) t (mem_targets_of_withPhis hkept hphis ht)
  have hmem : d.name ∈ (ofWalk g s).blocks.map (·.name) := by
    rw [names_ofWalk, FlowGraph.names_eq]
    exact List.mem_map_of_mem hd
  obtain ⟨d', hd', hname⟩ := List.mem_map.1 hmem
  obtain ⟨u, b', kept', hb', hname', hkept', hphis'⟩ := exists_of_mem_ofWalk h hd'
  obtain rfl := List.inj_on_of_nodup_map hcut.nodup (List.mem_of_getElem? hb') hd
    (hname'.symm.trans hname)
  refine ⟨d', hd', headed_of_withPhis ?_ hphis' hname', hname⟩
  rcases hkept' with rfl | hkept'
  · exact hheaded
  · exact headed_of_reissued hheaded hkept'

end SsaForm

theorem SsaForm.cut_of_ofGraph {blocks : List Block} {stem undefined : String} {g : FlowGraph}
    {params : List String} {form : SsaForm} (hcut : Block.Cut blocks)
    (hlinked : Block.Linked blocks) (hg : FlowGraph.ofBlocks blocks stem = .ok g)
    (h : SsaForm.ofGraph g params undefined = .ok form) :
    Block.Cut form.blocks ∧ Block.Linked form.blocks := by
  obtain ⟨s, hs, rfl⟩ := exists_rewriting (.of_ofBlocks hg) h
  obtain ⟨hcut', hlinked'⟩ := hcut.of_graph hlinked hg
  exact ⟨cut_ofWalk hs hcut', linked_ofWalk hs hcut' hlinked'⟩

/-- The form of code that names only labels it has is such code again, cut into the blocks that were
put together. -/
theorem SsaForm.rejoin {blocks : List Block} {instrs : List Instruction} {stem undefined : String}
    {g : FlowGraph} {params : List String} {form : SsaForm}
    (hblocks : Block.split instrs = .ok blocks)
    (hg : FlowGraph.ofBlocks (Block.addTerminators blocks) stem = .ok g)
    (h : SsaForm.ofGraph g params undefined = .ok form) (hclosed : Block.Closed instrs) :
    Block.split form.instrs = .ok form.blocks ∧ Block.Closed form.instrs := by
  obtain ⟨blocks', hblocks', -, hlinked⟩ := Block.closed_iff.1 hclosed
  obtain rfl := Except.ok.inj (hblocks.symm.trans hblocks')
  have hcut := Block.Cut.of_split hblocks
  obtain ⟨hcut', hlinked'⟩ := SsaForm.cut_of_ofGraph hcut.addTerminators
    (hlinked.addTerminators hcut) hg h
  refine ⟨hcut'.split_flatten, Block.closed_iff.2 ⟨form.blocks, hcut'.split_flatten, ?_, hlinked'⟩⟩
  have hwell := FlowGraph.WellFormed.of_ofBlocks hg
  obtain ⟨s, -, rfl⟩ := exists_rewriting hwell h
  rw [← List.length_pos_iff, length_blocks_ofWalk, ← FlowGraph.size_eq_length]
  exact hwell.nonempty

end FlowOpt
