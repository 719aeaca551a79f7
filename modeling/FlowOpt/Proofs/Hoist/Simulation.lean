import FlowOpt.Proofs.Determinism
import FlowOpt.Proofs.Hoist.Operands
import FlowOpt.Proofs.Hoist.Remainder

/-!
# Running hoisted code

A run of the code is answered by a run of the hoisted code through the same blocks. Inside a loop
the destination of everything hoisted out of it holds what the instruction would compute there, so
the instruction is skipped where it stood; and the stores agree on what is live. Where a loop is
entered the preheader is passed, unless an instruction in it does not execute.
-/

namespace FlowOpt

open FlowOpt.Execution

/-- What is needed of the code: labels carry nothing else, branches and returns stand at the ends of
blocks and only the last one is left without, phis stand at the heads and are labelled with blocks,
and nothing hoisted out of a loop assigns what its header's phis read where it is entered. -/
structure Hoistable (g : FlowGraph) (blocks : List Block) (planned : List PlannedLoop) :
    Prop where
  labels : ∀ b ∈ blocks, ∀ i ∈ b.instrs, i.isLabel = true → ∃ l, i = .atLabel l
  ends : ∀ b ∈ blocks, b.EndsProperly
  falls : ∀ b ∈ blocks, b.fallsThrough = true → Block.following (blocks.map (·.name)) b.name = none
  heads : ∀ b ∈ blocks, ∀ i ∈ b.body, i.isPhi = false
  sources : ∀ b ∈ blocks, ∀ i ∈ b.instrs, i.isPhi = true → ∀ l ∈ i.labels, l ∈ blocks.map (·.name)
  operands : ∀ e ∈ planned, ∀ v ∈ e.1.entering g.graph, ∀ k i x, g.InstrAt e.1.header k i →
    i.isPhi = true → (x, g.nameOf v) ∈ i.args.zip i.labels →
    ∀ s ∈ e.2.sites, s.instr.dest ≠ some x

variable {V : Type} {stem : String} {blocks blocks' : List Block} {g : FlowGraph} {live : Results}
  {planned : List PlannedLoop} {moves : List Move} {b c : Block} {e : PlannedLoop} {m : Move}
  {s : Site} {x : String} {v w k : Nat} {i : Instruction} {rest : List Instruction} {I : Interp V}
  {σ σ' : Store V} {effects effects' : List (Effect V)} {es : List (RunEvent V)} {st : State V}

/-- The code and the hoisted code at the same point of a block. The hoisted code has what is kept of
the rest before it, perhaps behind some labels. -/
structure Abreast (g : FlowGraph) (live : Results) (planned : List PlannedLoop)
    (moves : List Move) (I : Interp V) (v : Nat) (b : Block) (done rest rest' : List Instruction)
    (σ σ' : Store V) (effects effects' : List (Effect V)) : Prop where
  node : g.blocks[v]? = some b
  own : (g.node? v).any (·.synthetic) = false
  instrs : b.instrs = done ++ rest
  passed : ∀ i ∈ done, i.isTerminator = false
  no_phi : ∀ i ∈ rest, i.isPhi = false
  code : rest'.dropWhile (·.isLabel) = ((kept (takenBy planned) v done.length rest).map
    (HoistPlan.redirectAll moves b.name)).dropWhile (·.isLabel)
  store : ∀ x, LiveFrom (g.LiveOut live v) rest x → σ x = σ' x
  held : ∀ e ∈ planned, e.1.contains v = true → ∀ s ∈ e.2.sites, Holds I σ' s.instr
  effects : observable effects = observable effects'

inductive Matches (g : FlowGraph) (live : Results) (planned : List PlannedLoop)
    (moves : List Move) (I : Interp V) : State V → State V → Prop
  | inside {v : Nat} {b : Block} {done rest rest' : List Instruction} {σ σ' : Store V}
      {effects effects' : List (Effect V)}
      (h : Abreast g live planned moves I v b done rest rest' σ σ' effects effects') :
      Matches g live planned moves I ⟨.inside b.name rest, σ, effects⟩
        ⟨.inside b.name rest', σ', effects'⟩
  | finished {σ σ' : Store V} {effects effects' : List (Effect V)}
      (heffects : observable effects = observable effects') :
      Matches g live planned moves I ⟨.finished, σ, effects⟩ ⟨.finished, σ', effects'⟩

theorem Matches.same_place {t : State V} (h : Matches g live planned moves I st t) :
    t.point.block? = st.point.block? ∧ observable t.effects = observable st.effects := by
  cases h with
  | inside h => exact ⟨rfl, h.effects.symm⟩
  | finished heffects => exact ⟨rfl, heffects.symm⟩

section Abreast

variable {done rest' : List Instruction} {args : List V}

theorem Abreast.run_labels
    (h : Abreast g live planned moves I v b done rest rest' σ σ' effects effects')
    (blocks' : List Block) : Run blocks' I ⟨.inside b.name rest', σ', effects'⟩ []
      ⟨.inside b.name (((kept (takenBy planned) v done.length rest).dropWhile
        (·.isLabel)).map (HoistPlan.redirectAll moves b.name)), σ', effects'⟩ := by
  have hrun := Execution.run_labels blocks' I b.name rest' σ' effects'
  rwa [h.code, dropWhile_isLabel_redirectAll] at hrun

theorem Abreast.map_args
    (h : Abreast g live planned moves I v b done (i :: rest) rest' σ σ' effects effects')
    (ha : i.args.map σ = args.map some) : i.args.map σ' = args.map some := by
  rw [← ha]
  exact List.map_congr_left fun x hx =>
    (h.store x (.of_arg hx (h.no_phi i List.mem_cons_self))).symm

theorem Abreast.advance
    (h : Abreast g live planned moves I v b done (i :: rest) rest' σ σ' effects effects')
    (hi : i.isTerminator = false) {rest'' : List Instruction} {σ₁ σ₁' : Store V}
    {effects₁ effects₁' : List (Effect V)}
    (hcode : rest''.dropWhile (·.isLabel) = ((kept (takenBy planned) v (done.length + 1) rest).map
      (HoistPlan.redirectAll moves b.name)).dropWhile (·.isLabel))
    (hstore : ∀ x, LiveFrom (g.LiveOut live v) rest x → σ₁ x = σ₁' x)
    (hheld : ∀ e ∈ planned, e.1.contains v = true → ∀ s ∈ e.2.sites, Holds I σ₁' s.instr)
    (heffects : observable effects₁ = observable effects₁') :
    Abreast g live planned moves I v b (done ++ [i]) rest rest'' σ₁ σ₁' effects₁ effects₁' where
  node := h.node
  own := h.own
  instrs := (Block.passed_concat h.instrs h.passed hi).1
  passed := (Block.passed_concat h.instrs h.passed hi).2
  no_phi j hj := h.no_phi j (List.mem_cons_of_mem _ hj)
  code := by rwa [List.length_append, List.length_singleton]
  store := hstore
  held := hheld
  effects := heffects

end Abreast

def StopsInPreheader (blocks' : List Block) (moves : List Move) (I : Interp V) (st : State V) :
    Prop :=
  ∃ m ∈ moves, ∃ s ∈ m.1.sites, StopsBefore blocks' I m.2 s.instr st

structure Hides {E : Type} (g : FlowGraph) (planned : List PlannedLoop) (moves : List Move)
    (shown : RunEvent V → Option E) : Prop where
  preheader : ∀ m ∈ moves, ∀ e : RunEvent V, e.block = m.2 → shown e = none
  taken : ∀ s ∈ takenBy planned, ∀ args r,
    shown ⟨g.nameOf s.node, .operation s.instr args r⟩ = none

theorem Hides.filterMap_preheader {E : Type} {shown : RunEvent V → Option E}
    (hshown : Hides g planned moves shown) (hm : m ∈ moves) (hes : ∀ e ∈ es, e.block = m.2) :
    es.filterMap shown = [] :=
  List.filterMap_eq_nil_iff.2 fun e he => hshown.preheader m hm e (hes e he)

/-- From where a block or its preheader was entered with some events, the hoisted code comes to
match the code and has shown the same, or it stops in a preheader and has shown nothing. -/
def Arrives {E : Type} (blocks' : List Block) (g : FlowGraph) (live : Results)
    (planned : List PlannedLoop) (moves : List Move) (I : Interp V)
    (shown : RunEvent V → Option E) (entry : List (RunEvent V)) (start : State V)
    (es : List (RunEvent V)) (st : State V) : Prop :=
  (∃ es' st', Run blocks' I start es' st' ∧ Matches g live planned moves I st st' ∧
      (entry ++ es').filterMap shown = es.filterMap shown) ∨
    ∃ es' st', Run blocks' I start es' st' ∧ StopsInPreheader blocks' moves I st' ∧
      (entry ++ es').filterMap shown = []

theorem Hoistable.head_cases (hcode : Hoistable g blocks planned) (hb : b ∈ blocks)
    (hi : i ∈ b.instrs.takeWhile Block.isHead) :
    (∃ l, i = .atLabel l) ∨ (i ∈ b.headPhis ∧ i.isPhi = true) := by
  have hhead : Block.isHead i = true := List.all_eq_true.1 List.all_takeWhile i hi
  rw [Block.isHead, Bool.or_eq_true] at hhead
  rcases hhead with hl | hphi
  · exact .inl (hcode.labels b hb i ((List.takeWhile_sublist _).subset hi) hl)
  · exact .inr ⟨List.mem_filter.2 ⟨hi, hphi⟩, hphi⟩

theorem Hoistable.mem_operations_of_headPhis (hcode : Hoistable g blocks planned)
    (hc : c ∈ blocks) (hi : i ∈ c.headPhis) :
    i ∈ c.operations ∧ i.isPhi = true := by
  obtain ⟨hhead, hphi⟩ := List.mem_filter.1 hi
  have hic := (List.takeWhile_sublist _).subset hhead
  refine ⟨List.mem_filter.2 ⟨hic, ?_⟩, hphi⟩
  by_contra hl
  obtain ⟨l, rfl⟩ := hcode.labels c hc i hic (by simpa using hl)
  cases hphi

namespace Rearranged

variable (h : Rearranged stem blocks g live planned moves blocks')
  (hcode : Hoistable g blocks planned)
include h

theorem eq_of_name (hb : b ∈ blocks) (hw : g.blocks[w]? = some c) (hname : b.name = c.name) :
    b = c := by
  obtain ⟨v, hv, -⟩ := h.own_of_mem hb
  obtain rfl := h.wellFormed.eq_of_name_eq hv hw hname
  exact Option.some.inj (hv.symm.trans hw)

theorem headPhis_spare (hw : g.blocks[w]? = some c) (he : e ∈ planned)
    (hc : e.1.contains w = true) (hs : s ∈ e.2.sites) (hi : i ∈ c.headPhis) :
    (∀ x ∈ s.instr.args, i.dest ≠ some x) ∧ ∀ x, s.instr.dest = some x → i.dest ≠ some x := by
  obtain ⟨hhead, hphi⟩ := List.mem_filter.1 hi
  obtain ⟨k, hk⟩ := List.mem_iff_getElem?.1 ((List.takeWhile_sublist _).subset hhead)
  have hmovable : i.isMovable = false := by
    apply Instruction.isMovable_of_isHead
    rw [Block.isHead, hphi, Bool.or_true]
  exact h.spares he hc ⟨c, hw, hk⟩ (h.not_taken ⟨c, hw, hk⟩ hmovable) hs

theorem holds_behind_phis (hw : g.blocks[w]? = some c) (he : e ∈ planned)
    (hc : e.1.contains w = true) (hs : s ∈ e.2.sites) (hheld : Holds I σ s.instr)
    (values : List (Option V)) :
    Holds I (σ.assignAll (c.headPhis.map (HoistPlan.redirectAll moves c.name)) values) s.instr := by
  have hkeeps : ∀ x, (∀ i ∈ c.headPhis, i.dest ≠ some x) →
      σ.assignAll (c.headPhis.map (HoistPlan.redirectAll moves c.name)) values x = σ x := by
    intro x hx
    have hdest : ∀ i : Instruction, (HoistPlan.redirectAll moves c.name i).dest = i.dest :=
      dest_redirectAll c.name
    apply Store.assignAll_of_not_mem
    simpa [hdest] using hx
  apply hheld.congr
  · exact fun x hx => hkeeps x fun i hi => (h.headPhis_spare hw he hc hs hi).1 x hx
  · exact fun x hx => hkeeps x fun i hi => (h.headPhis_spare hw he hc hs hi).2 x hx

/-- Behind a preheader everything hoisted out of a loop around it holds its value. -/
theorem holds_behind_preheader (he : e ∈ planned)
    (hsame : ∀ x, (∀ s ∈ e.2.sites, s.instr.dest ≠ some x) → σ x = σ' x)
    (hholds : ∀ s ∈ e.2.sites, Holds I σ s.instr)
    (hheld : ∀ e' ∈ planned, e'.1.header ≠ e.1.header → e'.1.contains e.1.header = true →
      ∀ s ∈ e'.2.sites, Holds I σ' s.instr) :
    ∀ e' ∈ planned, e'.1.contains e.1.header = true → ∀ s ∈ e'.2.sites, Holds I σ s.instr := by
  intro e' he' hc s hs
  by_cases heq : e'.1.header = e.1.header
  · obtain rfl := h.header_inj he' he heq
    exact hholds s hs
  · -- Loops around the header are apart: neither reads nor assigns what the other hoists.
    have hapart := fun t ht => h.isPlanned.apart h.wellFormed he' he heq hc (s := s) (t := t) hs ht
    apply (hheld e' he' heq hc s hs).congr
    · exact fun x hx => hsame x fun t ht => (hapart t ht).1 x hx
    · exact fun x hx => hsame x fun t ht hd => (hapart t ht).2 (hx.trans hd.symm)

include hcode

/-- Behind the phis at the head of a block the stores agree on what is live there. -/
theorem eq_behind_phis (hw : g.blocks[w]? = some c) (hc : c ∈ blocks)
    (hlive : ∀ x, g.LiveIn live w x → σ x = σ' x) {values : List (Option V)}
    (hlen : values.length = c.headPhis.length) (hx : LiveFrom (g.LiveOut live w) c.body x) :
    σ.assignAll c.headPhis values x =
      σ'.assignAll (c.headPhis.map (HoistPlan.redirectAll moves c.name)) values x := by
  have hdests : (c.headPhis.map (HoistPlan.redirectAll moves c.name)).map (·.dest) =
      c.headPhis.map (·.dest) := by
    rw [List.map_map]
    exact List.map_congr_left fun i _ => dest_redirectAll c.name i
  apply Store.assignAll_congr hdests hlen
  intro hnot
  apply hlive
  apply FlowGraph.liveIn_of_liveFrom h.wellFormed h.solved hw
  rw [Block.instrs_eq_append_body c]
  apply hx.of_append
  intro i hi hd
  rcases hcode.head_cases hc hi with ⟨l, rfl⟩ | ⟨hphi, -⟩
  · cases hd
  · exact hnot (List.mem_filterMap.2 ⟨i, hphi, hd⟩)

/-- A block is entered as before, if its phis read the same values and the stores agree on what is
live at its start. -/
theorem enters (hw : g.blocks[w]? = some c) (hown : (g.node? w).any (·.synthetic) = false)
    {source source' : Option String} (henter : Enters blocks source c.name σ effects es st)
    (hreads : ∀ i ∈ c.headPhis, ∀ x, operand? source i = some x →
      operand? source' (HoistPlan.redirectAll moves c.name i) = some x ∧ σ x = σ' x)
    (hlive : ∀ x, g.LiveIn live w x → σ x = σ' x)
    (hheld : ∀ e ∈ planned, e.1.contains w = true → ∀ s ∈ e.2.sites, Holds I σ' s.instr)
    (heffects : observable effects = observable effects') :
    ∃ st', Enters blocks' source' c.name σ' effects' es st' ∧
      Matches g live planned moves I st st' := by
  obtain ⟨hb, hname, hvalues⟩ := henter
  next b values =>
  obtain rfl := h.eq_of_name hb hw hname
  obtain ⟨hphis, hbody⟩ := h.movedBlock_head moves hw (hcode.heads b hb)
  have hreads' : List.Forall₂ (fun i v => ∃ x, operand? source' i = some x ∧ v = σ' x)
      (movedBlock planned moves w b).headPhis values := by
    rw [List.forall₂_iff_zip] at hvalues
    rw [hphis, List.forall₂_map_left_iff, List.forall₂_iff_zip]
    refine ⟨hvalues.1, fun hmem => ?_⟩
    obtain ⟨x, hx, hvx⟩ := hvalues.2 hmem
    obtain ⟨hx', hsame⟩ := hreads _ (List.of_mem_zip hmem).1 x hx
    exact ⟨x, hx', hvx.trans hsame⟩
  have hevents : entryEvents (movedBlock planned moves w b) values = entryEvents b values := by
    rw [entryEvents, entryEvents, hphis, List.zip_map_left, List.map_map]
    congr 1
    apply List.map_congr_left
    intro e _
    exact congrArg (fun d => (⟨b.name, .phi d e.2⟩ : RunEvent V)) (dest_redirectAll b.name e.1)
  have henters : Enters blocks' source' b.name σ' effects' _ _ :=
    .intro (h.movedBlock_mem hw hown) rfl hreads'
  rw [hevents, hphis] at henters
  refine ⟨_, henters, .inside ⟨hw, hown, Block.instrs_eq_append_body b, ?_, hcode.heads b hb, hbody,
    ?_, ?_, heffects⟩⟩
  · exact fun i hi => Block.isTerminator_of_mem_head (hcode.labels b hb) hi
  · exact fun x hx => h.eq_behind_phis hcode hw hb hlive hvalues.length_eq.symm hx
  · exact fun e he hc s hs => h.holds_behind_phis hw he hc hs (hheld e he hc s hs) values

omit hcode in
theorem preheader_head (he : e ∈ planned) (name : String) :
    (e.2.preheaderBlock name).headPhis = [] ∧
      (e.2.preheaderBlock name).body = e.2.sites.map (·.instr) ++ [.jump e.2.header] := by
  have hlabel : (e.2.preheaderBlock name).instrs =
      [.atLabel name] ++ (e.2.sites.map (·.instr) ++ [.jump e.2.header]) := rfl
  have hheads : ∀ i ∈ [Instruction.atLabel name], Block.isHead i = true := by
    intro i hi
    rw [List.mem_singleton.1 hi]
    rfl
  have hrest : ∀ i ∈ e.2.sites.map (·.instr) ++ [.jump e.2.header], Block.isHead i = false := by
    intro i hi
    rcases List.mem_append.1 hi with hi | hi
    · by_contra hhead
      rw [Bool.not_eq_false] at hhead
      have hmovable := (h.independent he).movable i hi
      rw [Instruction.isMovable_of_isHead hhead] at hmovable
      cases hmovable
    · rw [List.mem_singleton.1 hi]
      rfl
  exact Block.head_of_append hlabel hheads fun i hi => hrest i (List.mem_of_mem_head? hi)

/-- Where a loop is entered the preheader is passed and then the header entered as before, unless
the preheader stops. -/
theorem passes (hI : I.Regular) {E : Type} {shown : RunEvent V → Option E}
    (hshown : Hides g planned moves shown) (hm : m ∈ moves) (he : e ∈ planned) (hme : m.1 = e.2)
    (hc : g.blocks[e.1.header]? = some c) {source : Option String}
    (henter : Enters blocks source c.name σ effects es st)
    (hreads : ∀ i ∈ c.headPhis, ∀ x, operand? source i = some x →
      operand? (some m.2) (HoistPlan.redirectAll moves c.name i) = some x ∧ σ x = σ' x ∧
        ∀ s ∈ e.2.sites, s.instr.dest ≠ some x)
    (hlive : ∀ x, g.LiveIn live e.1.header x → σ x = σ' x)
    (hheld : ∀ e' ∈ planned, e'.1.header ≠ e.1.header → e'.1.contains e.1.header = true →
      ∀ s ∈ e'.2.sites, Holds I σ' s.instr)
    (heffects : observable effects = observable effects') (source' : Option String) :
    ∃ st₀, Enters blocks' source' m.2 σ' effects' [⟨m.2, .enter⟩] st₀ ∧
      Arrives blocks' g live planned moves I shown [⟨m.2, .enter⟩] st₀ es st := by
  obtain ⟨hphis, hbody⟩ := h.preheader_head he m.2
  have hmem := h.preheader_mem hm
  rw [hme] at hmem
  have hentered := Enters.of_headPhis_eq_nil hmem hphis source' σ' effects'
  rw [hbody] at hentered
  refine ⟨_, hentered, ?_⟩
  have hentry : ∀ es : List (RunEvent V), (∀ e ∈ es, e.block = m.2) →
      (([⟨m.2, .enter⟩] : List (RunEvent V)) ++ es).filterMap shown = [] := by
    intro es hes
    apply hshown.filterMap_preheader hm
    simpa using hes
  rcases run_independent hI blocks' m.2 (h.independent he) [.jump e.2.header] σ' effects' with
    ⟨es₁, σ₁, effects₁, hrun, hes, heffects₁, hholds, hsame⟩ | ⟨es₁, st₁, hrun, hes, i, hi, hstop⟩
  · left
    -- Every site has been executed, and none assigns what is live at the header.
    have hkeeps : ∀ x, (∀ s ∈ e.2.sites, s.instr.dest ≠ some x) → σ₁ x = σ' x := by
      intro x hx
      apply hsame
      simpa using hx
    have hown := h.own_of_contains he
      (LoopForest.contains_header h.wellFormed.graph (h.mem_loops he))
    have hheader : c.name = e.2.header := by rw [h.header_eq he, FlowGraph.nameOf_eq hc]
    have hreads' : ∀ i ∈ c.headPhis, ∀ x, operand? source i = some x →
        operand? (some m.2) (HoistPlan.redirectAll moves c.name i) = some x ∧ σ x = σ₁ x := by
      intro i hi x hx
      obtain ⟨hx', hsame', hne⟩ := hreads i hi x hx
      exact ⟨hx', hsame'.trans (hkeeps x hne).symm⟩
    have hlive' : ∀ x, g.LiveIn live e.1.header x → σ x = σ₁ x := by
      intro x hx
      rw [hkeeps x fun s hs => h.dest_ne_of_liveIn he hs hx]
      exact hlive x hx
    have hheld' := h.holds_behind_preheader he hkeeps
      (fun s hs => hholds _ (List.mem_map_of_mem hs)) hheld
    obtain ⟨st', henter', hmatches⟩ := h.enters hcode hc hown henter hreads' hlive' hheld'
      (heffects.trans heffects₁.symm)
    have hjump : Step blocks' I ⟨.inside m.2 [.jump e.2.header], σ₁, effects₁⟩
        (⟨m.2, .branch (some "jmp") [] true⟩ :: es) st' :=
      .branch rfl rfl rfl rfl (hheader ▸ henter')
    refine ⟨_, st', hrun.trans (.single hjump), hmatches, ?_⟩
    rw [← List.append_assoc, List.filterMap_append, hentry es₁ hes, List.nil_append,
      List.filterMap_cons_none (hshown.preheader m hm _ rfl)]
  · right
    obtain ⟨s, hs, rfl⟩ := List.mem_map.1 hi
    exact ⟨es₁, st₁, hrun, ⟨m, hm, s, hme ▸ hs, hstop⟩, hentry es₁ hes⟩

omit h in
theorem liveOut_of_operand (hv : g.blocks[v]? = some b) (hw : g.blocks[w]? = some c)
    (hc : c ∈ blocks) (hi : i ∈ c.headPhis) (hx : operand? (some b.name) i = some x) :
    g.LiveOut live v x := by
  obtain ⟨hop, hphi⟩ := hcode.mem_operations_of_headPhis hc hi
  obtain ⟨hic, hl⟩ := List.mem_filter.1 hop
  right
  rw [FlowGraph.nameOf_eq hv]
  exact FlowGraph.mem_phiReads (List.mem_of_getElem? hw) hic (by simpa using hl) hphi
    (mem_zip_of_operand? hx)

/-- A branch that enters a loop leads to its preheader. -/
theorem branches_entering (hI : I.Regular) {E : Type} {shown : RunEvent V → Option E}
    (hshown : Hides g planned moves shown) (hv : g.blocks[v]? = some b)
    (hown : (g.node? v).any (·.synthetic) = false) (hbr : i.isBranch = true) (he : e ∈ planned)
    (hw : g.blocks[e.1.header]? = some c) (hc : c ∈ blocks)
    (hsucc : e.1.header ∈ g.graph.succs v) (hout : e.1.contains v = false)
    (henter : Enters blocks (some b.name) c.name σ effects es st)
    (hlive : ∀ x, g.LiveOut live v x → σ x = σ' x)
    (hheld : ∀ e ∈ planned, e.1.contains v = true → ∀ s ∈ e.2.sites, Holds I σ' s.instr)
    (heffects : observable effects = observable effects') :
    ∃ es₀ st₀, Enters blocks' (some b.name) (HoistPlan.relabelAll moves b.name i c.name) σ'
        effects' es₀ st₀ ∧ Arrives blocks' g live planned moves I shown es₀ st₀ es st := by
  have hg := h.wellFormed
  obtain ⟨m, hm, hme⟩ := h.exists_move he
  rw [h.relabel_entering hm he hme hv hown hw hbr hsucc hout]
  have hentering : v ∈ e.1.entering g.graph :=
    List.mem_filter.2 ⟨(hg.graph.symmetric v _).1 hsucc, by simp [hout]⟩
  have hreads : ∀ i ∈ c.headPhis, ∀ x, operand? (some b.name) i = some x →
      operand? (some m.2) (HoistPlan.redirectAll moves c.name i) = some x ∧ σ x = σ' x ∧
        ∀ s ∈ e.2.sites, s.instr.dest ≠ some x := by
    intro i hi x hx
    obtain ⟨hop, hphi⟩ := hcode.mem_operations_of_headPhis hc hi
    have hic := (List.mem_filter.1 hop).1
    obtain ⟨k, hk⟩ := List.mem_iff_getElem?.1 hic
    have hread := mem_zip_of_operand? hx
    rw [← FlowGraph.nameOf_eq hv] at hread
    refine ⟨?_, hlive x (liveOut_of_operand hcode hv hw hc hi hx),
      hcode.operands e he v hentering k i x ⟨c, hw, hk⟩ hphi hread⟩
    rw [h.operand_entering hm he hme hv hown hw hop hphi (hcode.sources c hc i hic hphi) hsucc
      hout, hx]
  have haround : ∀ e' ∈ planned, e'.1.header ≠ e.1.header → e'.1.contains e.1.header = true →
      ∀ s ∈ e'.2.sites, Holds I σ' s.instr := fun e' he' hne hc =>
    hheld e' he' (LoopForest.contains_pred hg.graph (h.mem_loops he') hc (Ne.symm hne) hsucc)
  exact ⟨_, h.passes hcode hI hshown hm he hme hw henter hreads
    (fun x hx => hlive x (.inl ⟨_, hsucc, hx⟩)) haround heffects (some b.name)⟩

theorem branches_direct {E : Type} {shown : RunEvent V → Option E}
    (hv : g.blocks[v]? = some b) (hown : (g.node? v).any (·.synthetic) = false)
    (hbr : i.isBranch = true) (hw : g.blocks[w]? = some c) (hc : c ∈ blocks)
    (hwown : (g.node? w).any (·.synthetic) = false) (hsucc : w ∈ g.graph.succs v)
    (hinside : ∀ e ∈ planned, e.1.header = w → e.1.contains v = true)
    (henter : Enters blocks (some b.name) c.name σ effects es st)
    (hlive : ∀ x, g.LiveOut live v x → σ x = σ' x)
    (hheld : ∀ e ∈ planned, e.1.contains v = true → ∀ s ∈ e.2.sites, Holds I σ' s.instr)
    (heffects : observable effects = observable effects') :
    ∃ es₀ st₀, Enters blocks' (some b.name) (HoistPlan.relabelAll moves b.name i c.name) σ'
        effects' es₀ st₀ ∧ Arrives blocks' g live planned moves I shown es₀ st₀ es st := by
  rw [h.relabel_direct hv hown hw hbr hinside]
  have hreads : ∀ i ∈ c.headPhis, ∀ x, operand? (some b.name) i = some x →
      operand? (some b.name) (HoistPlan.redirectAll moves c.name i) = some x ∧ σ x = σ' x := by
    intro i hi x hx
    obtain ⟨-, hphi⟩ := hcode.mem_operations_of_headPhis hc hi
    refine ⟨?_, hlive x (liveOut_of_operand hcode hv hw hc hi hx)⟩
    rw [h.operand_direct hv hown hw hphi fun e he hheader _ => hinside e he hheader, hx]
  -- A loop around the target that it does not head is a loop around the source.
  have hheld' : ∀ e ∈ planned, e.1.contains w = true → ∀ s ∈ e.2.sites, Holds I σ' s.instr := by
    intro e he hc
    by_cases hheader : e.1.header = w
    · exact hheld e he (hinside e he hheader)
    · exact hheld e he (LoopForest.contains_pred h.wellFormed.graph (h.mem_loops he) hc
        (Ne.symm hheader) hsucc)
  obtain ⟨st', henter', hmatches⟩ := h.enters hcode hw hwown henter hreads
    (fun x hx => hlive x (.inl ⟨w, hsucc, hx⟩)) hheld' heffects
  exact ⟨es, st', henter', .inl ⟨[], st', .refl _, hmatches, by rw [List.append_nil]⟩⟩

theorem branches (hI : I.Regular) {E : Type} {shown : RunEvent V → Option E}
    (hshown : Hides g planned moves shown) (hv : g.blocks[v]? = some b)
    (hown : (g.node? v).any (·.synthetic) = false) (hi : i ∈ b.instrs) (hbr : i.isBranch = true)
    {target : String} (ht : target ∈ i.labels)
    (henter : Enters blocks (some b.name) target σ effects es st)
    (hlive : ∀ x, g.LiveOut live v x → σ x = σ' x)
    (hheld : ∀ e ∈ planned, e.1.contains v = true → ∀ s ∈ e.2.sites, Holds I σ' s.instr)
    (heffects : observable effects = observable effects') :
    ∃ es₀ st₀, Enters blocks' (some b.name) (HoistPlan.relabelAll moves b.name i target) σ'
        effects' es₀ st₀ ∧ Arrives blocks' g live planned moves I shown es₀ st₀ es st := by
  obtain ⟨c, hcb, rfl⟩ : ∃ c ∈ blocks, c.name = target := by
    cases henter with
    | intro hb hn _ => exact ⟨_, hb, hn⟩
  obtain ⟨w, hw, hwown⟩ := h.own_of_mem hcb
  have hsucc : w ∈ g.graph.succs v := by
    refine (h.wellFormed.mem_succs v w).2 ⟨b, c, hv, hw, mem_distinct.2 ?_⟩
    exact List.mem_flatMap.2 ⟨i, List.mem_filter.2 ⟨hi, hbr⟩, ht⟩
  by_cases hentering : ∃ e ∈ planned, e.1.header = w ∧ e.1.contains v = false
  · obtain ⟨e, he, rfl, hout⟩ := hentering
    exact h.branches_entering hcode hI hshown hv hown hbr he hw hcb hsucc hout henter hlive hheld
      heffects
  · have hinside : ∀ e ∈ planned, e.1.header = w → e.1.contains v = true := by
      intro e he hheader
      by_contra hout
      exact hentering ⟨e, he, hheader, by simpa using hout⟩
    exact h.branches_direct hcode hv hown hbr hw hcb hwown hsucc hinside henter hlive hheld heffects

section Inside

variable {done rest' : List Instruction} {args : List V} {r : V}

omit hcode in
theorem kept_cons (hat : Abreast g live planned moves I v b done (i :: rest) rest' σ σ' effects
    effects') (hi : i.isMovable = false) : kept (takenBy planned) v done.length (i :: rest) =
      i :: kept (takenBy planned) v (done.length + 1) rest :=
  kept_cons_of_not (h.not_taken ⟨b, hat.node, by simp [hat.instrs]⟩ hi)

omit hcode in
/-- Where a taken instruction stood its destination has the value already. -/
theorem eq_of_taken (hat : Abreast g live planned moves I v b done (i :: rest) rest' σ σ' effects
    effects') (hs : s ∈ takenBy planned) (hnode : s.node = v) (hindex : s.index = done.length)
    (ha : i.args.map σ = args.map some)
    (hr : I.result { i with dest := none } args effects = some r) :
    s.instr = i ∧ ∃ x, i.dest = some x ∧ σ' x = some r := by
  subst hnode
  have hi : g.InstrAt s.node s.index i := ⟨b, hat.node, by simp [hat.instrs, hindex]⟩
  obtain rfl := h.instr_eq_of_taken hs hi
  obtain ⟨e, he, hse⟩ := mem_takenBy.1 hs
  obtain ⟨args', r', x, ha', hr', hx, hvalue⟩ := hat.held e he (h.contains_site he hse).1 s hse
  obtain rfl := args_unique ha' (hat.map_args ha)
  obtain rfl : r' = r := Option.some.inj ((hr' effects).symm.trans hr)
  exact ⟨rfl, x, hx, hvalue⟩

omit hcode in
/-- An operation that is taken is skipped: its destination has held this very value since the
preheader. -/
theorem skips {E : Type} {shown : RunEvent V → Option E} (hshown : Hides g planned moves shown)
    (hat : Abreast g live planned moves I v b done (i :: rest) rest' σ σ' effects effects')
    (hi : i.isTerminator = false) (hs : s ∈ takenBy planned) (hnode : s.node = v)
    (hindex : s.index = done.length) (ha : i.args.map σ = args.map some)
    (hr : I.result { i with dest := none } args effects = some r) :
    Matches g live planned moves I
        ⟨.inside b.name rest, σ.assign i.dest (some r), effects ++ [effectOf i args r]⟩
        ⟨.inside b.name rest', σ', effects'⟩ ∧ shown ⟨b.name, .operation i args r⟩ = none := by
  obtain ⟨rfl, x, hx, hvalue⟩ := h.eq_of_taken hat hs hnode hindex ha hr
  have hpure := Instruction.hasSideEffects_of_isMovable (h.isMovable_of_taken hs)
  have hname : g.nameOf s.node = b.name := FlowGraph.nameOf_eq (hnode ▸ hat.node)
  have hhidden := hshown.taken s hs args r
  rw [hname] at hhidden
  refine ⟨.inside (hat.advance hi ?_ ?_ hat.held ?_), hhidden⟩
  · rw [← kept_cons_of_mem hs hnode hindex]
    exact hat.code
  · intro y hy
    by_cases hyx : s.instr.dest = some y
    · obtain rfl := Option.some.inj (hx.symm.trans hyx)
      rw [hx, Store.assign_self, hvalue]
    · rw [Store.assign_of_ne hyx]
      exact hat.store y (hy.of_cons hyx)
  · rw [observable_append_of_pure hpure]
    exact hat.effects

omit hcode in
/-- An operation that stays is executed with the same values, and what is hoisted keeps its own. -/
theorem executes_kept (hI : I.Regular)
    (hat : Abreast g live planned moves I v b done (i :: rest) rest' σ σ' effects effects')
    (hl : i.isLabel = false) (hi : i.isTerminator = false)
    (hnot : ∀ s ∈ takenBy planned, s.node = v → s.index ≠ done.length)
    (ha : i.args.map σ = args.map some)
    (hr : I.result { i with dest := none } args effects = some r) :
    ∃ t, Run blocks' I ⟨.inside b.name rest', σ', effects'⟩ [⟨b.name, .operation i args r⟩] t ∧
      Matches g live planned moves I
        ⟨.inside b.name rest, σ.assign i.dest (some r), effects ++ [effectOf i args r]⟩ t := by
  have hbranch : i.isBranch = false := by
    by_contra hbr
    rw [Instruction.isTerminator_of_isBranch (by simpa using hbr)] at hi
    cases hi
  have hrun := hat.run_labels blocks'
  rw [kept_cons_of_not hnot, List.dropWhile_cons_of_neg (by simp [hl]), List.map_cons,
    HoistPlan.redirectAll_of_not hbranch (hat.no_phi i List.mem_cons_self)] at hrun
  have hr' : I.result { i with dest := none } args effects' = some r := by
    rw [← hr]
    exact hI.observed _ _ _ _ hat.effects.symm
  refine ⟨_, hrun.trans (.single (.operation hl hi (hat.map_args ha) hr')),
    .inside (hat.advance hi rfl ?_ ?_ (observable_append hat.effects _))⟩
  · intro y hy
    by_cases hyx : i.dest = some y
    · rw [hyx, Store.assign_self, Store.assign_self]
    · rw [Store.assign_of_ne hyx, Store.assign_of_ne hyx]
      exact hat.store y (hy.of_cons hyx)
  · intro e he hc s hs
    have hi : g.InstrAt v done.length i := ⟨b, hat.node, by simp [hat.instrs]⟩
    obtain ⟨hargs, hdest⟩ := h.spares he hc hi hnot hs
    exact (hat.held e he hc s hs).assign_of_ne hargs hdest

omit hcode in
/-- An operation that is taken is skipped, any other one is executed. -/
theorem executes (hI : I.Regular) {E : Type} {shown : RunEvent V → Option E}
    (hshown : Hides g planned moves shown)
    (hat : Abreast g live planned moves I v b done (i :: rest) rest' σ σ' effects effects')
    (hl : i.isLabel = false) (hi : i.isTerminator = false) (ha : i.args.map σ = args.map some)
    (hr : I.result { i with dest := none } args effects = some r) :
    ∃ es' t, Run blocks' I ⟨.inside b.name rest', σ', effects'⟩ es' t ∧
      Matches g live planned moves I
        ⟨.inside b.name rest, σ.assign i.dest (some r), effects ++ [effectOf i args r]⟩ t ∧
      es'.filterMap shown = [⟨b.name, .operation i args r⟩].filterMap shown := by
  by_cases htaken : ∃ s ∈ takenBy planned, s.node = v ∧ s.index = done.length
  · obtain ⟨s, hs, hnode, hindex⟩ := htaken
    obtain ⟨hmatches, hhidden⟩ := h.skips hshown hat hi hs hnode hindex ha hr
    exact ⟨[], _, .refl _, hmatches, by rw [List.filterMap_cons_none hhidden]⟩
  · obtain ⟨t, hrun, hmatches⟩ := h.executes_kept hI hat hl hi
      (fun s hs hnode hindex => htaken ⟨s, hs, hnode, hindex⟩) ha hr
    exact ⟨_, t, hrun, hmatches, rfl⟩

theorem comes_to_terminator
    (hat : Abreast g live planned moves I v b done (i :: rest) rest' σ σ' effects effects')
    (hl : i.isLabel = false) (hi : i.isTerminator = true) : rest = [] ∧ i.dest = none ∧
      Run blocks' I ⟨.inside b.name rest', σ', effects'⟩ []
        ⟨.inside b.name [HoistPlan.redirectAll moves b.name i], σ', effects'⟩ := by
  obtain ⟨hdest, rfl⟩ := hcode.ends b (h.block_of_own hat.node hat.own) _ _ _ hat.instrs hi
  have hmovable : i.isMovable = false := by
    by_contra hm
    rw [Instruction.isTerminator_of_isMovable (by simpa using hm)] at hi
    cases hi
  have hrun := hat.run_labels blocks'
  rw [h.kept_cons hat hmovable, kept, List.dropWhile_cons_of_neg (by simp [hl]), List.map_singleton]
    at hrun
  exact ⟨rfl, hdest, hrun⟩

theorem returns
    (hat : Abreast g live planned moves I v b done (i :: rest) rest' σ σ' effects effects')
    (hl : i.isLabel = false) (hi : i.op = some "ret") (ha : i.args.map σ = args.map some) :
    Run blocks' I ⟨.inside b.name rest', σ', effects'⟩ [] ⟨.inside b.name [i], σ', effects'⟩ ∧
      Step blocks' I ⟨.inside b.name [i], σ', effects'⟩ [⟨b.name, .leave (some args)⟩]
        ⟨.finished, σ', effects'⟩ := by
  have hterm : i.isTerminator = true := by
    rw [Instruction.isTerminator, hi]
    rfl
  have hbranch : i.isBranch = false := by
    rw [Instruction.isBranch, hi]
    rfl
  obtain ⟨-, -, hrun⟩ := h.comes_to_terminator hcode hat hl hterm
  rw [HoistPlan.redirectAll_of_not hbranch (hat.no_phi i List.mem_cons_self)] at hrun
  exact ⟨hrun, .ret hl hi (hat.map_args ha)⟩

theorem takes_branch (hI : I.Regular) {E : Type} {shown : RunEvent V → Option E}
    (hshown : Hides g planned moves shown) {target : String}
    (hat : Abreast g live planned moves I v b done (i :: rest) rest' σ σ' effects effects')
    (hl : i.isLabel = false) (hi : i.isBranch = true) (ha : i.args.map σ = args.map some)
    (ht : i.labels[if decision I i args then 0 else 1]? = some target)
    (henter : Enters blocks (some b.name) target σ effects es st) :
    ∃ es₀ st₀, Run blocks' I ⟨.inside b.name rest', σ', effects'⟩ []
        ⟨.inside b.name [HoistPlan.redirectAll moves b.name i], σ', effects'⟩ ∧
      Step blocks' I ⟨.inside b.name [HoistPlan.redirectAll moves b.name i], σ', effects'⟩
        (⟨b.name, .branch i.op args (decision I i args)⟩ :: es₀) st₀ ∧
      Arrives blocks' g live planned moves I shown es₀ st₀ es st := by
  obtain ⟨rfl, hdest, hrun⟩ := h.comes_to_terminator hcode hat hl
    (Instruction.isTerminator_of_isBranch hi)
  have hib : i ∈ b.instrs := by simp [hat.instrs]
  have hlive : ∀ x, g.LiveOut live v x → σ x = σ' x := by
    intro x hx
    exact hat.store x (LiveFrom.of_cons hx (by simp [hdest]))
  obtain ⟨es₀, st₀, henter', hrest⟩ := h.branches hcode hI hshown hat.node hat.own hib hi
    (List.mem_of_getElem? ht) henter hlive hat.held hat.effects
  refine ⟨es₀, st₀, hrun, ?_, hrest⟩
  rw [HoistPlan.redirectAll_eq]
  refine .branch hl hi (hat.map_args ha) ?_ henter'
  rw [List.getElem?_map]
  exact congrArg (Option.map _) ht

theorem passes_label
    (hat : Abreast g live planned moves I v b done (i :: rest) rest' σ σ' effects effects')
    (hl : i.isLabel = true) : Matches g live planned moves I ⟨.inside b.name rest, σ, effects⟩
      ⟨.inside b.name rest', σ', effects'⟩ := by
  have hib : i ∈ b.instrs := by simp [hat.instrs]
  obtain ⟨l, rfl⟩ := hcode.labels b (h.block_of_own hat.node hat.own) i hib hl
  refine .inside (hat.advance rfl ?_ ?_ hat.held hat.effects)
  · rw [hat.code, h.kept_cons hat rfl, List.map_cons, List.dropWhile_cons_of_pos]
    exact isLabel_redirectAll b.name _
  · intro x hx
    exact hat.store x (hx.of_cons (by simp [Instruction.atLabel]))

/-- Only the last block ends without a branch or return, and it stays the last. -/
theorem is_last (hat : Abreast g live planned moves I v b done [] rest' σ σ' effects effects') :
    Block.following (blocks.map (·.name)) b.name = none ∧
      Block.following (blocks'.map (·.name)) b.name = none := by
  have hb := h.block_of_own hat.node hat.own
  have hinstrs : b.instrs = done := by rw [hat.instrs, List.append_nil]
  have hlast := hcode.falls b hb
    (b.fallsThrough_of_forall fun i hi => hat.passed i (hinstrs ▸ hi))
  refine ⟨hlast, h.carried.following_eq_none ?_ ?_⟩
  · rw [h.names_remaining]
    exact List.mem_map_of_mem hb
  · rwa [h.names_remaining]

end Inside

/-- Every step of the code is answered, unless a preheader stops. If it is answered with no step,
then fewer instructions are left. -/
theorem steps (hI : I.Regular) {E : Type} {shown : RunEvent V → Option E}
    (hshown : Hides g planned moves shown) {st' t : State V} (hstep : Step blocks I st es st')
    (hmatches : Matches g live planned moves I st t) :
    (∃ es' t', Run blocks' I t es' t' ∧ Matches g live planned moves I st' t' ∧
        es'.filterMap shown = es.filterMap shown ∧
        (Advances blocks' I t t' ∨ st'.left < st.left)) ∨
      ∃ es' t', Run blocks' I t es' t' ∧ StopsInPreheader blocks' moves I t' ∧
        es'.filterMap shown <+: es.filterMap shown := by
  cases hmatches with
  | finished _ => cases hstep
  | @inside v b done rest rest' σ σ' effects effects' hat =>
    cases hstep with
    | label hl =>
      exact .inl ⟨[], _, .refl _, h.passes_label hcode hat hl, rfl, .inr (State.left_lt_cons ..)⟩
    | operation hl hi ha hr =>
      obtain ⟨es', t, hrun, hmatches, heq⟩ := h.executes hI hshown hat hl hi ha hr
      exact .inl ⟨es', t, hrun, hmatches, heq, .inr (State.left_lt_cons ..)⟩
    | ret hl hi ha =>
      obtain ⟨hrun, hret⟩ := h.returns hcode hat hl hi ha
      exact .inl ⟨_, _, hrun.trans (.single hret), .finished hat.effects, rfl,
        .inl (.of_run_step hrun hret)⟩
    | @branch _ _ i _ _ _ args _ _ hl hi ha ht henter =>
      obtain ⟨es₀, st₀, hrun, hbranch, hrest⟩ :=
        h.takes_branch hcode hI hshown hat hl hi ha ht henter
      have hfirst := hrun.trans (.single hbranch)
      generalize (⟨b.name, .branch i.op args (decision I i args)⟩ : RunEvent V) = event at *
      have hshow : ∀ es : List (RunEvent V),
          (event :: es).filterMap shown = (shown event).toList ++ es.filterMap shown := by
        intro es
        rw [List.filterMap_cons]
        cases shown event <;> rfl
      refine hrest.imp ?_ ?_
      · rintro ⟨es', t, hr, hmatches, heq⟩
        refine ⟨_, t, hfirst.trans hr, hmatches, ?_, .inl (.run (.of_run_step hrun hbranch) hr)⟩
        rw [List.nil_append, List.cons_append, hshow, hshow, heq]
      · rintro ⟨es', t, hr, hstop, heq⟩
        refine ⟨_, t, hfirst.trans hr, hstop, ?_⟩
        rw [List.nil_append, List.cons_append, hshow, hshow, heq, List.append_nil]
        exact List.prefix_append _ _
    | runOn hf _ =>
      rw [(h.is_last hcode hat).1] at hf
      cases hf
    | finish _ =>
      have hrun := hat.run_labels blocks'
      have hfinish : Step blocks' I ⟨.inside b.name [], σ', effects'⟩ [⟨b.name, .leave none⟩]
          ⟨.finished, σ', effects'⟩ := .finish (h.is_last hcode hat).2
      exact .inl ⟨_, _, hrun.trans (.single hfinish), .finished hat.effects, rfl,
        .inl (.of_run_step hrun hfinish)⟩

omit hcode in
theorem header_of_contains_first {first : Block} (hfirst : blocks.head? = some first)
    (hw : g.blocks[w]? = some first) (he : e ∈ planned) (hc : e.1.contains w = true) :
    e.1.header = w := by
  have hg := h.wellFormed
  obtain ⟨first', rest, front, hblocks, hfront, hall⟩ := FlowGraph.blocks_of_ofBlocks h.graph
  obtain rfl : first' = first := by simpa [hblocks] using hfirst
  by_contra hne
  have hentry := h.not_contains_entry he
  cases hfront with
  | none _ =>
    have h0 : g.blocks[0]? = some first' := by rw [hall]; rfl
    rw [hg.eq_of_name_eq hw h0 rfl, hentry] at hc
    cases hc
  | jump name _ =>
    have h0 : g.blocks[0]? = some (.labeled name [.jump first'.name]) := by rw [hall]; rfl
    have hsucc : w ∈ g.graph.succs 0 :=
      (hg.mem_succs 0 w).2 ⟨_, first', h0, hw, by simp⟩
    rw [LoopForest.contains_pred hg.graph (h.mem_loops he) hc (Ne.symm hne) hsucc] at hentry
    cases hentry

theorem starts (hI : I.Regular) {E : Type} {shown : RunEvent V → Option E}
    (hshown : Hides g planned moves shown) {first : Block} (hfirst : blocks.head? = some first)
    (henter : Enters blocks none first.name σ [] es st) :
    ∃ first' es₀ st₀, blocks'.head? = some first' ∧
      Enters blocks' none first'.name σ [] es₀ st₀ ∧
      Arrives blocks' g live planned moves I shown es₀ st₀ es st := by
  obtain ⟨w, hw, hown⟩ := h.own_of_mem (List.mem_of_mem_head? hfirst)
  have hhead : ((g.remaining (planned.map (·.2))).map (·.name)).head? = some first.name := by
    rw [h.names_remaining, List.head?_map, hfirst]
    rfl
  have hnamed : ∀ {name : String}, (blocks'.map (·.name)).head? = some name →
      ∃ first', blocks'.head? = some first' ∧ first'.name = name := by
    intro name hname
    rwa [List.head?_map, Option.map_eq_some_iff] at hname
  by_cases hheader : ∃ e ∈ planned, e.1.header = w
  · obtain ⟨e, he, rfl⟩ := hheader
    obtain ⟨m, hm, hme⟩ := h.exists_move he
    have hmfirst : first.name = m.1.header := by
      rw [hme, h.header_eq he, FlowGraph.nameOf_eq hw]
    obtain ⟨first', hfirst', hname⟩ := hnamed
      (h.carried.head_of_header h.within h.pairwise_header (hmfirst ▸ hhead) hm)
    have hpasses := h.passes hcode hI hshown hm he hme hw henter
      (fun i _ x hx => by cases hx) (fun x _ => rfl)
      (fun e' he' hne hc => absurd (h.header_of_contains_first hfirst hw he' hc) hne) rfl none
    rw [← hname] at hpasses
    exact ⟨first', _, _, hfirst', hpasses.choose_spec⟩
  · have hnot : ∀ m ∈ moves, m.1.header ≠ first.name := by
      intro m hm heq
      obtain ⟨e, he, hme⟩ := h.exists_loop hm
      exact hheader ⟨e, he, h.eq_of_header he hw (heq.symm.trans (congrArg _ hme))⟩
    obtain ⟨first', hfirst', hname⟩ := hnamed (h.carried.head_of_not_header hhead hnot)
    have hheld : ∀ e ∈ planned, e.1.contains w = true → ∀ s ∈ e.2.sites, Holds I σ s.instr :=
      fun e he hc => (hheader ⟨e, he, h.header_of_contains_first hfirst hw he hc⟩).elim
    have hreads : ∀ i ∈ first.headPhis, ∀ x, operand? none i = some x →
        operand? none (HoistPlan.redirectAll moves first.name i) = some x ∧ σ x = σ x := by
      intro i _ x hx
      cases hx
    obtain ⟨st', henter', hmatches⟩ := h.enters hcode hw hown henter hreads (fun x _ => rfl) hheld
      rfl
    exact ⟨first', es, st', hfirst', hname ▸ henter',
      .inl ⟨[], st', .refl _, hmatches, by rw [List.append_nil]⟩⟩

/-- Every run of the code is answered by a run of the hoisted code, unless that stops in a
preheader. -/
theorem runs (hI : I.Regular) {E : Type} {shown : RunEvent V → Option E}
    (hshown : Hides g planned moves shown) (hrun : RunsFrom blocks I σ es st) :
    (∃ es' st', RunsFrom blocks' I σ es' st' ∧ Matches g live planned moves I st st' ∧
        es'.filterMap shown = es.filterMap shown) ∨
      ∃ es' st', RunsFrom blocks' I σ es' st' ∧ StopsInPreheader blocks' moves I st' ∧
        es'.filterMap shown <+: es.filterMap shown := by
  obtain ⟨first, es₁, es₂, t, hfirst, henter, hr, rfl⟩ := hrun
  obtain ⟨first', es₀, st₀, hfirst', henter', hstart⟩ := h.starts hcode hI hshown hfirst henter
  rw [List.filterMap_append]
  rcases hstart with ⟨es', t', hr', hmatches, heq⟩ | ⟨es', t', hr', hstop, heq⟩
  · have hstep : ∀ s es s' t, Step blocks I s es s' → Matches g live planned moves I s t →
        (∃ es' t', Run blocks' I t es' t' ∧ Matches g live planned moves I s' t' ∧
          es'.filterMap shown = es.filterMap shown) ∨
        ∃ es' t', Run blocks' I t es' t' ∧ StopsInPreheader blocks' moves I t' ∧
          es'.filterMap shown <+: es.filterMap shown :=
      fun s es s' t hs hm => (h.steps hcode hI hshown hs hm).imp_left
        fun ⟨es', t', hr', hm', heq', _⟩ => ⟨es', t', hr', hm', heq'⟩
    rcases hr.simulate_unless hstep hmatches with
      ⟨es'', t'', hr'', hmatches', heq'⟩ | ⟨es'', t'', hr'', hstop, hpre⟩
    · refine .inl ⟨_, t'', ⟨first', es₀, es' ++ es'', st₀, hfirst', henter', hr'.trans hr'', rfl⟩,
        hmatches', ?_⟩
      rw [← List.append_assoc, List.filterMap_append, heq, heq']
    · refine .inr ⟨_, t'', ⟨first', es₀, es' ++ es'', st₀, hfirst', henter', hr'.trans hr'', rfl⟩,
        hstop, ?_⟩
      rw [← List.append_assoc, List.filterMap_append, heq]
      exact (List.prefix_append_right_inj _).2 hpre
  · refine .inr ⟨_, t', ⟨first', es₀, es', st₀, hfirst', henter', hr', rfl⟩, hstop, ?_⟩
    rw [heq]
    exact List.nil_prefix

end Rearranged

end FlowOpt
