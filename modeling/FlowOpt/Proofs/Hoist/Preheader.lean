import FlowOpt.Hoist.Preheader
import FlowOpt.Proofs.Block
import FlowOpt.Proofs.Hoist.Plan

/-!
# What the moved code looks like

Plans are carried out one after the other, each with a preheader whose name is new. Every block that
was there stays, without what was taken out of it and with the labels of its branches and phis led
to the preheaders; every preheader stays as it was put in.
-/

namespace FlowOpt

abbrev Move := HoistPlan × String

variable {blocks blocks' : List Block} {moves : List Move} {m : Move} {b : Block} {i : Instruction}
  {name x : String} {plans : List HoistPlan}

namespace HoistPlan

def preheaderBlock (p : HoistPlan) (preheader : String) : Block :=
  .labeled preheader (p.sites.map (·.instr) ++ [.jump p.header])

def carryOut (blocks : List Block) (m : Move) : List Block :=
  m.1.insertBefore (m.1.preheaderBlock m.2) (blocks.map (m.1.redirectBlock m.2))

/-- Plans carried out with names that are new where they are put in. -/
inductive CarriedOut : List Block → List Move → List Block → Prop
  | nil (blocks : List Block) : CarriedOut blocks [] blocks
  | cons {blocks blocks' : List Block} {m : Move} {moves : List Move}
      (hfresh : m.2 ∉ blocks.map (·.name)) (h : CarriedOut (carryOut blocks m) moves blocks') :
      CarriedOut blocks (m :: moves) blocks'

theorem exists_carriedOut (g : FlowGraph) (stem : String) (plans : List HoistPlan)
    (o : HoistOutcome) (next : Nat) :
    ∃ moves : List Move, moves.map (·.1) = plans ∧
      CarriedOut o.blocks moves
        (plans.foldl (fun (o, next) p => p.apply g stem o next) (o, next)).1.blocks ∧
      (plans.foldl (fun (o, next) p => p.apply g stem o next) (o, next)).1.preheaders =
        o.preheaders ++ moves.map (fun m => (m.2, m.1.header)) ∧
      (plans.foldl (fun (o, next) p => p.apply g stem o next) (o, next)).1.hoisted =
        o.hoisted ++ moves.flatMap fun m =>
          m.1.sites.map fun s => ⟨g.nameOf s.node, m.2, s.instr⟩ := by
  induction plans generalizing o next with
  | nil => exact ⟨[], rfl, .nil _, by simp, by simp⟩
  | cons p plans ih =>
    have hfresh := freshIndex_not_mem (FlowGraph.numbered_injective stem) (o.blocks.map (·.name))
      next
    obtain ⟨moves, hplans, hcarried, hpre, hhoisted⟩ := ih (p.apply g stem o next).1
      (p.apply g stem o next).2
    have hfold : (p :: plans).foldl (fun (o, next) p => p.apply g stem o next) (o, next) =
        plans.foldl (fun (o, next) p => p.apply g stem o next)
          ((p.apply g stem o next).1, (p.apply g stem o next).2) := rfl
    rw [hfold]
    generalize plans.foldl (fun (o, next) p => p.apply g stem o next)
      ((p.apply g stem o next).1, (p.apply g stem o next).2) = out at hcarried hpre hhoisted ⊢
    unfold HoistPlan.apply at hcarried hpre hhoisted
    simp only at hcarried hpre hhoisted
    generalize freshIndex (FlowGraph.numbered stem) (o.blocks.map (·.name)) next = n at *
    refine ⟨(p, FlowGraph.numbered stem n) :: moves, ?_, .cons hfresh hcarried, ?_, ?_⟩
    · rw [List.map_cons, hplans]
    · rw [hpre]
      simp
    · rw [hhoisted]
      simp

theorem names_insertBefore (p : HoistPlan) (new : Block) (blocks : List Block) :
    ∀ x, x ∈ (p.insertBefore new blocks).map (·.name) ↔
      x ∈ blocks.map (·.name) ∨ (x = new.name ∧ p.header ∈ blocks.map (·.name)) := by
  intro x
  induction blocks with
  | nil => simp [insertBefore]
  | cons b blocks ih =>
    unfold insertBefore
    split
    · next h =>
      simp only [List.map_cons, List.mem_cons, h, true_or, and_true]
      tauto
    · next h =>
      simp only [List.map_cons, List.mem_cons] at ih ⊢
      rw [ih]
      have hne : p.header ≠ b.name := Ne.symm h
      tauto

theorem mem_insertBefore {p : HoistPlan} {new : Block} (hb : b ∈ blocks) :
    b ∈ p.insertBefore new blocks := by
  induction blocks with
  | nil => simp at hb
  | cons c blocks ih =>
    unfold insertBefore
    split
    · exact List.mem_cons_of_mem _ hb
    · rcases List.mem_cons.1 hb with rfl | hb
      · exact List.mem_cons_self
      · exact List.mem_cons_of_mem _ (ih hb)

theorem new_mem_insertBefore {p : HoistPlan} {new : Block}
    (h : p.header ∈ blocks.map (·.name)) : new ∈ p.insertBefore new blocks := by
  induction blocks with
  | nil => simp at h
  | cons c blocks ih =>
    unfold insertBefore
    split
    · exact List.mem_cons_self
    · next hne =>
      rw [List.map_cons, List.mem_cons] at h
      exact List.mem_cons_of_mem _ (ih (h.resolve_left (Ne.symm hne)))

theorem names_redirect (p : HoistPlan) (preheader : String) (blocks : List Block) :
    (blocks.map (p.redirectBlock preheader)).map (·.name) = blocks.map (·.name) := by
  rw [List.map_map]
  rfl

theorem mem_names_carryOut : x ∈ (carryOut blocks m).map (·.name) ↔
    x ∈ blocks.map (·.name) ∨ (x = m.2 ∧ m.1.header ∈ blocks.map (·.name)) := by
  rw [carryOut, names_insertBefore, names_redirect]
  rfl

def redirectAll (moves : List Move) (block : String) (i : Instruction) : Instruction :=
  moves.foldl (fun i m => m.1.redirect m.2 block i) i

theorem CarriedOut.mem (h : CarriedOut blocks moves blocks') (hb : b ∈ blocks) :
    (⟨b.name, b.instrs.map (redirectAll moves b.name)⟩ : Block) ∈ blocks' := by
  induction h generalizing b with
  | nil blocks =>
    have hid : redirectAll [] b.name = id := rfl
    rw [hid, List.map_id]
    exact hb
  | @cons blocks _ m moves _ _ ih =>
    have hmem : m.1.redirectBlock m.2 b ∈ carryOut blocks m :=
      mem_insertBefore (List.mem_map_of_mem hb)
    have hrest := ih hmem
    rw [redirectBlock, List.map_map] at hrest
    exact hrest

theorem redirectAll_eq_self (h : ∀ m ∈ moves, name ∉ m.1.entering ∧ name ≠ m.1.header) :
    redirectAll moves name i = i := by
  induction moves with
  | nil => rfl
  | cons m moves ih =>
    obtain ⟨he, hh⟩ := h m List.mem_cons_self
    have hsame : m.1.redirect m.2 name i = i := by
      unfold redirect
      rw [if_neg (by simp [he]), if_neg (by simp [hh])]
    rw [redirectAll, List.foldl_cons, hsame]
    exact ih fun m hm => h m (List.mem_cons_of_mem _ hm)

def Within (moves : List Move) (names : List String) : Prop :=
  ∀ m ∈ moves, m.1.header ∈ names ∧ ∀ e ∈ m.1.entering, e ∈ names

theorem Within.carryOut (h : Within (m :: moves) (blocks.map (·.name))) :
    Within moves ((carryOut blocks m).map (·.name)) := by
  intro m' hm'
  obtain ⟨hh, he⟩ := h m' (List.mem_cons_of_mem _ hm')
  constructor
  · exact mem_names_carryOut.2 (.inl hh)
  · intro e hm
    exact mem_names_carryOut.2 (.inl (he e hm))

/-- New names are none of the code, and no two are the same. -/
theorem CarriedOut.fresh (h : CarriedOut blocks moves blocks')
    (hw : Within moves (blocks.map (·.name))) :
    (∀ m ∈ moves, m.2 ∉ blocks.map (·.name)) ∧ moves.Pairwise (·.2 ≠ ·.2) := by
  induction h with
  | nil => exact ⟨by simp, .nil⟩
  | @cons blocks _ m moves hfresh _ ih =>
    obtain ⟨hnew, hpair⟩ := ih hw.carryOut
    constructor
    · intro m' hm'
      rcases List.mem_cons.1 hm' with rfl | hm'
      · exact hfresh
      · intro hold
        exact hnew m' hm' (mem_names_carryOut.2 (.inl hold))
    · rw [List.pairwise_cons]
      refine ⟨fun m' hm' heq => ?_, hpair⟩
      exact hnew m' hm' (mem_names_carryOut.2 (.inr ⟨heq.symm, (hw m List.mem_cons_self).1⟩))

theorem CarriedOut.preheader_mem (h : CarriedOut blocks moves blocks')
    (hw : Within moves (blocks.map (·.name))) (hm : m ∈ moves) :
    m.1.preheaderBlock m.2 ∈ blocks' := by
  induction h with
  | nil => simp at hm
  | @cons blocks _ m' moves hfresh hrest ih =>
    rcases List.mem_cons.1 hm with rfl | hm
    · have hnew : m.1.preheaderBlock m.2 ∈ carryOut blocks m := by
        apply new_mem_insertBefore
        rw [names_redirect]
        exact (hw m List.mem_cons_self).1
      have hsame : ∀ i, redirectAll moves m.2 i = i := by
        intro i
        apply redirectAll_eq_self
        intro m' hm'
        obtain ⟨hh, he⟩ := hw m' (List.mem_cons_of_mem _ hm')
        constructor
        · intro hmem
          exact hfresh (he _ hmem)
        · rintro heq
          exact hfresh (heq ▸ hh)
      have hmem := hrest.mem hnew
      have hname : (m.1.preheaderBlock m.2).name = m.2 := rfl
      rw [hname, List.map_congr_left fun i _ => hsame i, List.map_id'] at hmem
      exact hmem
    · exact ih hw.carryOut hm

theorem nodup_names_insertBefore {p : HoistPlan} {new : Block}
    (hn : (blocks.map (·.name)).Nodup) (hfresh : new.name ∉ blocks.map (·.name)) :
    ((p.insertBefore new blocks).map (·.name)).Nodup := by
  induction blocks with
  | nil => exact hn
  | cons b blocks ih =>
    obtain ⟨hb, hrest⟩ := List.nodup_cons.1 hn
    unfold insertBefore
    split
    · exact List.nodup_cons.2 ⟨hfresh, hn⟩
    · have hnew : new.name ∉ blocks.map (·.name) := fun hm => hfresh (List.mem_cons_of_mem _ hm)
      refine List.nodup_cons.2 ⟨fun hm => ?_, ih hrest hnew⟩
      rcases (names_insertBefore p new blocks b.name).1 hm with hm | ⟨hname, -⟩
      · exact hb hm
      · exact hfresh (hname ▸ List.mem_cons_self)

theorem CarriedOut.nodup_names (h : CarriedOut blocks moves blocks')
    (hn : (blocks.map (·.name)).Nodup) : (blocks'.map (·.name)).Nodup := by
  induction h with
  | nil => exact hn
  | @cons blocks _ m _ hfresh _ ih =>
    apply ih
    rw [← names_redirect m.1 m.2] at hn hfresh
    exact nodup_names_insertBefore hn hfresh

theorem head_names_carryOut (hhead : (blocks.map (·.name)).head? = some x) :
    ((carryOut blocks m).map (·.name)).head? = some (if m.1.header = x then m.2 else x) := by
  cases blocks with
  | nil => simp at hhead
  | cons b blocks =>
    obtain rfl : b.name = x := by simpa using hhead
    have hname : (m.1.redirectBlock m.2 b).name = b.name := rfl
    rw [carryOut, List.map_cons, insertBefore, hname]
    by_cases h : m.1.header = b.name
    · rw [if_pos h.symm, if_pos h]
      rfl
    · rw [if_neg (Ne.symm h), if_neg h]
      rfl

theorem CarriedOut.head_of_not_header (h : CarriedOut blocks moves blocks')
    (hhead : (blocks.map (·.name)).head? = some x) (hx : ∀ m ∈ moves, m.1.header ≠ x) :
    (blocks'.map (·.name)).head? = some x := by
  induction h with
  | nil => exact hhead
  | cons _ _ ih =>
    apply ih _ fun m hm => hx m (List.mem_cons_of_mem _ hm)
    rw [head_names_carryOut hhead, if_neg (hx _ List.mem_cons_self)]

theorem CarriedOut.head_of_header (h : CarriedOut blocks moves blocks')
    (hw : Within moves (blocks.map (·.name)))
    (hheaders : moves.Pairwise fun m m' => m.1.header ≠ m'.1.header)
    (hhead : (blocks.map (·.name)).head? = some m.1.header) (hm : m ∈ moves) :
    (blocks'.map (·.name)).head? = some m.2 := by
  induction h with
  | nil => simp at hm
  | @cons blocks _ m' moves hfresh hrest ih =>
    obtain ⟨hne, hheaders⟩ := List.pairwise_cons.1 hheaders
    have hnext := head_names_carryOut (m := m') hhead
    rcases List.mem_cons.1 hm with rfl | hm
    · rw [if_pos rfl] at hnext
      apply hrest.head_of_not_header hnext
      intro m' hm' heq
      exact hfresh (heq ▸ (hw m' (List.mem_cons_of_mem _ hm')).1)
    · rw [if_neg (hne m hm)] at hnext
      exact ih hw.carryOut hheaders hnext hm

theorem mem_dropLast_insertBefore {p : HoistPlan} {new : Block}
    (hx : x ∈ ((p.insertBefore new blocks).map (·.name)).dropLast) :
    x = new.name ∨ x ∈ (blocks.map (·.name)).dropLast := by
  induction blocks with
  | nil => simp [insertBefore] at hx
  | cons b blocks ih =>
    unfold insertBefore at hx
    split at hx
    · rw [List.map_cons, List.map_cons, List.dropLast_cons_cons, List.mem_cons] at hx
      exact hx
    · cases blocks with
      | nil => simp [insertBefore] at hx
      | cons c blocks =>
        have hne : (p.insertBefore new (c :: blocks)).map (·.name) ≠ [] := by
          intro hnil
          have hc : c ∈ p.insertBefore new (c :: blocks) := mem_insertBefore List.mem_cons_self
          rw [List.map_eq_nil_iff.1 hnil] at hc
          simp at hc
        rw [List.map_cons, List.dropLast_cons_of_ne_nil hne, List.mem_cons] at hx
        rw [List.map_cons, List.dropLast_cons_of_ne_nil (by simp), List.mem_cons]
        rcases hx with hx | hx
        · exact .inr (.inl hx)
        · exact (ih hx).imp_right .inr

theorem CarriedOut.following_eq_none (h : CarriedOut blocks moves blocks')
    (hx : x ∈ blocks.map (·.name)) (hlast : Block.following (blocks.map (·.name)) x = none) :
    Block.following (blocks'.map (·.name)) x = none := by
  induction h with
  | nil => exact hlast
  | @cons blocks _ m moves hfresh _ ih =>
    apply ih (mem_names_carryOut.2 (.inl hx))
    rw [Block.following_eq_none_iff] at hlast ⊢
    intro hmem
    rcases mem_dropLast_insertBefore hmem with rfl | hmem
    · exact hfresh hx
    · rw [names_redirect] at hmem
      exact hlast hmem

theorem CarriedOut.mem_names (h : CarriedOut blocks moves blocks')
    (hw : Within moves (blocks.map (·.name))) :
    x ∈ blocks'.map (·.name) ↔ x ∈ blocks.map (·.name) ∨ ∃ m ∈ moves, x = m.2 := by
  induction h with
  | nil => simp
  | @cons blocks _ m moves _ _ ih =>
    have hheader := (hw m List.mem_cons_self).1
    rw [ih hw.carryOut, mem_names_carryOut, and_iff_left hheader, List.exists_mem_cons_iff,
      or_assoc]

theorem infix_insertBefore {y : String} {p : HoistPlan} {new : Block} (hy : p.header ≠ y)
    (h : [x, y] <:+: blocks.map (·.name)) :
    [x, y] <:+: (p.insertBefore new blocks).map (·.name) := by
  induction blocks with
  | nil => exact h
  | cons b blocks ih =>
    rw [List.map_cons, List.infix_cons_iff] at h
    have hrest : [x, y] <:+: blocks.map (·.name) →
        [x, y] <:+: (p.insertBefore new (b :: blocks)).map (·.name) := by
      intro h
      unfold insertBefore
      split
      · exact h.trans ((List.suffix_cons _ _).isInfix.trans (List.suffix_cons _ _).isInfix)
      · exact (ih h).trans (List.suffix_cons _ _).isInfix
    rcases h with h | h
    · obtain ⟨hx, h⟩ := List.cons_prefix_cons.1 h
      cases blocks with
      | nil => simp at h
      | cons c blocks =>
        have hc : y = c.name := (List.cons_prefix_cons.1 h).1
        have hne : c.name ≠ p.header := hc ▸ Ne.symm hy
        have hside : [x, y] <:+: [b.name, c.name] := by rw [hx, hc]
        unfold insertBefore
        split
        · refine hside.trans (List.infix_cons_iff.2 (.inr ?_))
          exact List.IsPrefix.isInfix ⟨blocks.map (·.name), rfl⟩
        · rw [insertBefore, if_neg hne]
          exact hside.trans (List.IsPrefix.isInfix ⟨_, rfl⟩)
    · exact hrest h

theorem new_infix_insertBefore {p : HoistPlan} (new : Block)
    (h : p.header ∈ blocks.map (·.name)) :
    [new.name, p.header] <:+: (p.insertBefore new blocks).map (·.name) := by
  induction blocks with
  | nil => simp at h
  | cons b blocks ih =>
    unfold insertBefore
    split
    · next hb =>
      rw [← hb]
      exact List.IsPrefix.isInfix ⟨blocks.map (·.name), rfl⟩
    · next hb =>
      rw [List.map_cons, List.mem_cons] at h
      exact (ih (h.resolve_left (Ne.symm hb))).trans (List.suffix_cons _ _).isInfix

/-- A preheader stands directly before its header. -/
theorem CarriedOut.infix_names (h : CarriedOut blocks moves blocks')
    (hw : Within moves (blocks.map (·.name)))
    (hheaders : moves.Pairwise fun m m' => m.1.header ≠ m'.1.header) (hm : m ∈ moves) :
    [m.2, m.1.header] <:+: blocks'.map (·.name) := by
  have hkept : ∀ {blocks blocks' : List Block} {moves : List Move},
      CarriedOut blocks moves blocks' → (∀ m' ∈ moves, m'.1.header ≠ m.1.header) →
      [m.2, m.1.header] <:+: blocks.map (·.name) →
      [m.2, m.1.header] <:+: blocks'.map (·.name) := by
    intro blocks blocks' moves h hne hin
    induction h with
    | nil => exact hin
    | cons _ _ ih =>
      apply ih fun m' hm' => hne m' (List.mem_cons_of_mem _ hm')
      apply infix_insertBefore (hne _ List.mem_cons_self)
      rwa [names_redirect]
  induction h with
  | nil => simp at hm
  | @cons blocks _ m' moves _ hrest ih =>
    obtain ⟨hne, hheaders⟩ := List.pairwise_cons.1 hheaders
    rcases List.mem_cons.1 hm with rfl | hm
    · apply hkept hrest fun m' hm' => (hne m' hm').symm
      apply new_infix_insertBefore (m.1.preheaderBlock m.2)
      rw [names_redirect]
      exact (hw m List.mem_cons_self).1
    · exact ih hw.carryOut hheaders hm

def relabel (p : HoistPlan) (preheader block : String) (i : Instruction) (l : String) : String :=
  if (i.isBranch = true ∧ block ∈ p.entering ∧ l = p.header) ∨
    (i.isPhi = true ∧ block = p.header ∧ l ∈ p.entering) then preheader else l

theorem isPhi_eq_false_of_isBranch (h : i.isBranch = true) : i.isPhi = false := by
  unfold Instruction.isBranch at h
  unfold Instruction.isPhi
  rw [Bool.or_eq_true, beq_iff_eq, beq_iff_eq] at h
  rcases h with h | h
  · simp [h]
  · simp [h]

theorem redirect_eq (p : HoistPlan) (preheader block : String) (i : Instruction) :
    p.redirect preheader block i =
      { i with labels := i.labels.map (p.relabel preheader block i) } := by
  unfold redirect
  split
  · next h =>
    rw [Bool.and_eq_true, List.contains_iff_mem] at h
    have hlabels : ∀ l ∈ i.labels, (if l = p.header then preheader else l) =
        p.relabel preheader block i l := by
      intro l _
      simp [relabel, h.1, h.2, isPhi_eq_false_of_isBranch h.2]
    rw [List.map_congr_left hlabels]
  · next h =>
    rw [Bool.and_eq_true, List.contains_iff_mem] at h
    split
    · next h' =>
      rw [Bool.and_eq_true, decide_eq_true_eq] at h'
      have hlabels : ∀ l ∈ i.labels, (if p.entering.contains l then preheader else l) =
          p.relabel preheader block i l := by
        intro l _
        have hnot : ¬ (i.isBranch = true ∧ block ∈ p.entering ∧ l = p.header) := by
          rintro ⟨hb, he, -⟩
          exact h ⟨he, hb⟩
        unfold relabel
        by_cases hl : l ∈ p.entering
        · rw [if_pos (List.contains_iff_mem.2 hl), if_pos (.inr ⟨h'.2, h'.1, hl⟩)]
        · rw [if_neg (mt List.contains_iff_mem.1 hl),
            if_neg fun hall => hall.elim hnot fun hphi => hl hphi.2.2]
      rw [List.map_congr_left hlabels]
    · next h' =>
      rw [Bool.and_eq_true, decide_eq_true_eq] at h'
      have hlabels : ∀ l ∈ i.labels, p.relabel preheader block i l = id l := by
        intro l _
        apply if_neg
        rintro (⟨hb, he, -⟩ | ⟨hp, hh, -⟩)
        · exact h ⟨he, hb⟩
        · exact h' ⟨hh, hp⟩
      rw [List.map_congr_left hlabels, List.map_id]

def relabelAll (moves : List Move) (block : String) (i : Instruction) (l : String) : String :=
  moves.foldl (fun l m => m.1.relabel m.2 block i l) l

/-- Nothing but labels is changed. -/
theorem redirectAll_eq (moves : List Move) (block : String) (i : Instruction) :
    redirectAll moves block i =
      { i with labels := i.labels.map (relabelAll moves block i) } := by
  induction moves generalizing i with
  | nil =>
    have hid : relabelAll [] block i = id := rfl
    rw [hid, List.map_id]
    rfl
  | cons m moves ih =>
    rw [redirectAll, List.foldl_cons, ← redirectAll, ih, redirect_eq, List.map_map]
    rfl

theorem relabelAll_cases (moves : List Move) (block : String) (i : Instruction) (l : String) :
    relabelAll moves block i l = l ∨ ∃ m ∈ moves, relabelAll moves block i l = m.2 := by
  induction moves generalizing l with
  | nil => exact .inl rfl
  | cons m moves ih =>
    rw [relabelAll, List.foldl_cons, ← relabelAll]
    rcases ih (m.1.relabel m.2 block i l) with hsame | ⟨m', hm', hl⟩
    · rw [hsame, relabel]
      split
      · exact .inr ⟨m, List.mem_cons_self, rfl⟩
      · exact .inl rfl
    · exact .inr ⟨m', List.mem_cons_of_mem _ hm', hl⟩

theorem relabelAll_of_not {l : String} (h : ∀ m ∈ moves,
    ¬ ((i.isBranch = true ∧ name ∈ m.1.entering ∧ l = m.1.header) ∨
      (i.isPhi = true ∧ name = m.1.header ∧ l ∈ m.1.entering))) :
    relabelAll moves name i l = l := by
  induction moves with
  | nil => rfl
  | cons m moves ih =>
    have hsame : m.1.relabel m.2 name i l = l := if_neg (h m List.mem_cons_self)
    rw [relabelAll, List.foldl_cons, hsame]
    exact ih fun m hm => h m (List.mem_cons_of_mem _ hm)

/-- A branch keeps its label unless it enters the loop of a plan there. -/
theorem relabelAll_of_isBranch {l : String} (hbr : i.isBranch = true)
    (h : ∀ m ∈ moves, m.1.header = l → name ∉ m.1.entering) :
    relabelAll moves name i l = l := by
  apply relabelAll_of_not
  rintro m hm (⟨-, hmem, heq⟩ | ⟨hphi, -⟩)
  · exact h m hm heq.symm hmem
  · rw [isPhi_eq_false_of_isBranch hbr] at hphi
    cases hphi

/-- A phi keeps its label unless what has that enters the loop of a plan here. -/
theorem relabelAll_of_isPhi {l : String} (hphi : i.isPhi = true)
    (h : ∀ m ∈ moves, name = m.1.header → l ∉ m.1.entering) :
    relabelAll moves name i l = l := by
  apply relabelAll_of_not
  rintro m hm (⟨hbr, -⟩ | ⟨-, hname, hmem⟩)
  · rw [isPhi_eq_false_of_isBranch hbr] at hphi
    cases hphi
  · exact h m hm hname hmem

theorem redirectAll_of_not (hbr : i.isBranch = false) (hphi : i.isPhi = false) :
    redirectAll moves name i = i := by
  have hlabels : ∀ l ∈ i.labels, relabelAll moves name i l = id l := by
    intro l _
    apply relabelAll_of_not
    rintro m - (⟨hbr', -⟩ | ⟨hphi', -⟩)
    · rw [hbr] at hbr'
      cases hbr'
    · rw [hphi] at hphi'
      cases hphi'
  rw [redirectAll_eq, List.map_congr_left hlabels, List.map_id]

theorem relabelAll_of_mem {l : String} (hm : m ∈ moves)
    (h : (i.isBranch = true ∧ name ∈ m.1.entering ∧ l = m.1.header) ∨
      (i.isPhi = true ∧ name = m.1.header ∧ l ∈ m.1.entering))
    (hone : ∀ m' ∈ moves, ((i.isBranch = true ∧ name ∈ m'.1.entering ∧ l = m'.1.header) ∨
      (i.isPhi = true ∧ name = m'.1.header ∧ l ∈ m'.1.entering)) → m'.2 = m.2)
    (hnew : ∀ m' ∈ moves, m'.1.header ≠ m.2 ∧ m.2 ∉ m'.1.entering) :
    relabelAll moves name i l = m.2 := by
  have hstays : ∀ moves' : List Move, (∀ m' ∈ moves', m' ∈ moves) →
      relabelAll moves' name i m.2 = m.2 := by
    intro moves' hsub
    apply relabelAll_of_not
    rintro m' hm' (⟨-, -, heq⟩ | ⟨-, -, hmem⟩)
    · exact (hnew m' (hsub m' hm')).1 heq.symm
    · exact (hnew m' (hsub m' hm')).2 hmem
  induction moves with
  | nil => simp at hm
  | cons m₀ moves ih =>
    rw [relabelAll, List.foldl_cons]
    by_cases h₀ : (i.isBranch = true ∧ name ∈ m₀.1.entering ∧ l = m₀.1.header) ∨
        (i.isPhi = true ∧ name = m₀.1.header ∧ l ∈ m₀.1.entering)
    · have hto : m₀.1.relabel m₀.2 name i l = m.2 := by
        rw [relabel, if_pos h₀]
        exact hone m₀ List.mem_cons_self h₀
      rw [hto]
      exact hstays moves fun m' hm' => List.mem_cons_of_mem _ hm'
    · have hsame : m₀.1.relabel m₀.2 name i l = l := if_neg h₀
      rw [hsame]
      have hmem : m ∈ moves := by
        rcases List.mem_cons.1 hm with rfl | hm
        · exact absurd h h₀
        · exact hm
      exact ih hmem (fun m' hm' => hone m' (List.mem_cons_of_mem _ hm'))
        (fun m' hm' => hnew m' (List.mem_cons_of_mem _ hm'))
        fun moves' hsub => hstays moves' fun m' hm' => List.mem_cons_of_mem _ (hsub m' hm')

end HoistPlan

end FlowOpt
