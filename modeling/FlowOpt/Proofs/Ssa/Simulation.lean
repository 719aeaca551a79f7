import FlowOpt.Proofs.Block
import FlowOpt.Proofs.Ssa.Strict

/-!
# What a form computes

A run of the code is answered by a run of its form. Wherever control is, a variable that has a
value is called something that has the same value in the form. Along an edge this is kept by the
phis of the node entered: each one reads what its variable is called at the end of the node left,
and a variable without a phi is called the same at both ends of the edge.
-/

namespace FlowOpt

namespace Execution

variable {V : Type}

/-- Operators compare records by their names, functions and literals alone. -/
def Interp.ByOperator (I : Interp V) : Prop :=
  ∀ i j : Instruction, i.op = j.op → i.funcs = j.funcs → i.value = j.value →
    I.result i = I.result j

/-- What an event shows when the names of destinations are read by `variableOf` and phis are left
out. -/
def RunEvent.shown (variableOf : String → String) (e : RunEvent V) : Option (RunEvent V) :=
  match e.action with
  | .phi _ _ => none
  | .operation i args result =>
    some ⟨e.block, .operation { i with dest := i.dest.map variableOf, args := [] } args result⟩
  | _ => some e

/-- What is shown when control passes through a block that only jumps. -/
def passage (name : String) : List (RunEvent V) :=
  [⟨name, .enter⟩, ⟨name, .branch (some "jmp") [] true⟩]

end Execution

namespace Ssa

open FlowOpt.Execution

variable {V : Type} {name : String} {phis kept written : List Instruction}

theorem WithPhis.head (h : WithPhis name phis kept written) (hphis : ∀ p ∈ phis, p.isPhi = true)
    (hkept : ∀ i ∈ kept, i.isPhi = false) :
    (written.takeWhile Block.isHead).filter (·.isPhi) = phis ∧
      written.dropWhile Block.isHead = kept.dropWhile Block.isHead := by
  have hheads : ∀ p ∈ phis, Block.isHead p = true := by
    intro p hp
    simp [Block.isHead, hphis p hp]
  have hbody : ∀ rest : List Instruction, (∀ i ∈ rest, i.isPhi = false) →
      ((phis ++ rest).takeWhile Block.isHead).filter (·.isPhi) = phis ∧
        (phis ++ rest).dropWhile Block.isHead = rest.dropWhile Block.isHead := by
    intro rest hrest
    constructor
    · rw [List.takeWhile_append_of_pos hheads, List.filter_append, List.filter_eq_self.2 hphis,
        Block.filter_isPhi_head hrest, List.append_nil]
    · exact List.dropWhile_append_of_pos hheads
  cases h with
  | @behindLabel i rest hi =>
    have hhead : Block.isHead i = true := by simp [Block.isHead, hi]
    have hphi : i.isPhi = false := hkept i List.mem_cons_self
    obtain ⟨htake, hdrop⟩ := hbody rest fun j hj => hkept j (List.mem_cons_of_mem _ hj)
    constructor
    · rw [List.takeWhile_cons_of_pos hhead, List.filter_cons_of_neg (by simp [hphi]), htake]
    · rw [List.dropWhile_cons_of_pos hhead, hdrop, List.dropWhile_cons_of_pos hhead]
  | newLabel _ =>
    have hhead : Block.isHead (.atLabel name) = true := rfl
    obtain ⟨htake, hdrop⟩ := hbody kept hkept
    constructor
    · rw [List.takeWhile_cons_of_pos hhead, List.filter_cons_of_neg Bool.false_ne_true, htake]
    · rw [List.dropWhile_cons_of_pos hhead, hdrop]
  | inFront _ => exact hbody kept hkept

variable {undefined : String} {env env' : Env} {instrs instrs' rest : List Instruction}
  {i : Instruction}

theorem Renamed.isPhi_eq_false (h : Renamed undefined env instrs instrs' env')
    (hphi : ∀ i ∈ instrs, i.isPhi = false) : ∀ i ∈ instrs', i.isPhi = false := by
  intro i' hi'
  obtain ⟨k, hk⟩ := List.mem_iff_getElem?.1 hi'
  obtain ⟨i, env₁, hi, heq, -⟩ := h.take hk
  rw [heq]
  exact hphi i (List.mem_of_getElem? hi)

theorem Renamed.cons (h : Renamed undefined env (i :: rest) instrs' env') : ∃ d rest',
    instrs' = { i with args := i.args.map (called undefined env), dest := d } :: rest' ∧
      ((i.dest = none ∧ d = none ∧ Renamed undefined env rest rest' env') ∨
        ∃ x n, i.dest = some x ∧ d = some (FlowGraph.numbered x n) ∧
          Renamed undefined (env.insert x (FlowGraph.numbered x n)) rest rest' env') := by
  cases h with
  | effect hi h => exact ⟨_, _, rfl, .inl ⟨hi, hi, h⟩⟩
  | assign hi h => exact ⟨_, _, rfl, .inr ⟨_, _, hi, rfl, h⟩⟩

theorem Renamed.dropHead (h : Renamed undefined env instrs instrs' env')
    (hphi : ∀ i ∈ instrs, i.isPhi = false)
    (hlabel : ∀ i ∈ instrs, i.isLabel = true → i.dest = none) :
    Renamed undefined env (instrs.dropWhile Block.isHead) (instrs'.dropWhile Block.isHead)
      env' := by
  induction h with
  | nil => exact .nil _
  | @effect env _ i _ _ hi hrest ih =>
    have hsame : Block.isHead { i with args := i.args.map (called undefined env) } =
        Block.isHead i := rfl
    by_cases hhead : Block.isHead i = true
    · rw [List.dropWhile_cons_of_pos hhead, List.dropWhile_cons_of_pos (hsame.trans hhead)]
      exact ih (fun j hj => hphi j (List.mem_cons_of_mem _ hj))
        (fun j hj => hlabel j (List.mem_cons_of_mem _ hj))
    · rw [List.dropWhile_cons_of_neg hhead, List.dropWhile_cons_of_neg (hsame ▸ hhead)]
      exact .effect hi hrest
  | @assign env _ i _ _ x n hi hrest _ =>
    have hsame : Block.isHead { i with
        args := i.args.map (called undefined env)
        dest := some (FlowGraph.numbered x n) } = Block.isHead i := rfl
    have hhead : ¬ Block.isHead i = true := by
      intro hhead
      have hl : i.isLabel = true := by
        simpa [Block.isHead, hphi i List.mem_cons_self] using hhead
      simp [hlabel i List.mem_cons_self hl] at hi
    rw [List.dropWhile_cons_of_neg hhead, List.dropWhile_cons_of_neg (hsame ▸ hhead)]
    exact .assign hi hrest

def Agrees (env : Env) (σ σ' : Store V) : Prop :=
  ∀ x a, σ x = some a → ∃ d, env.get? x = some d ∧ σ' d = some a

variable {σ σ' : Store V} {args : List V} {names : List String} {params : List String} {x : String}
  {n : Nat} {a : Option V}

theorem Agrees.map_called (h : Agrees env σ σ') (ha : names.map σ = args.map some) :
    (names.map (called undefined env)).map σ' = args.map some := by
  induction names generalizing args with
  | nil => simpa using ha
  | cons x names ih =>
    cases args with
    | nil => simp at ha
    | cons a args =>
      simp only [List.map_cons, List.cons.injEq] at ha ⊢
      obtain ⟨d, hd, hval⟩ := h x a ha.1
      constructor
      · simp only [called, hd, Option.getD_some, hval]
      · exact ih ha.2

theorem Agrees.assign (h : Agrees env σ σ') (hv : NamesVersions params env)
    (hparam : FlowGraph.numbered x n ∉ params) :
    Agrees (env.insert x (FlowGraph.numbered x n)) (σ.assign (some x) a)
      (σ'.assign (some (FlowGraph.numbered x n)) a) := by
  intro y c hy
  rw [NameMap.get?_insert]
  by_cases hyx : y = x
  · subst hyx
    rw [Store.assign_self] at hy
    rw [if_pos rfl]
    exact ⟨_, rfl, Store.assign_self.trans hy⟩
  · rw [Store.assign_of_ne (by simpa using Ne.symm hyx)] at hy
    obtain ⟨d, hd, hval⟩ := h y c hy
    rw [if_neg hyx]
    refine ⟨d, hd, ?_⟩
    rw [Store.assign_of_ne, hval]
    intro heq
    obtain rfl := Option.some.inj heq
    rcases hv y _ hd with ⟨rfl, hy⟩ | ⟨m, hm⟩
    · exact hparam hy
    · exact hyx (FlowGraph.numbered_inj.1 hm).1.symm

/-- Code without phis whose labels carry nothing else, whose branches and returns stand at the end
of their blocks, and where no parameter is called like a version. Only the last block is left at its
end. -/
structure Plain (g : FlowGraph) (params : List String) : Prop where
  labels : ∀ b ∈ g.blocks, ∀ i ∈ b.instrs, i.isLabel = true → ∃ l, i = .atLabel l
  no_phi : ∀ b ∈ g.blocks, ∀ i ∈ b.instrs, i.isPhi = false
  ends : ∀ b ∈ g.blocks, b.EndsProperly
  params : ∀ b ∈ g.blocks, ∀ x ∈ b.destinations, ∀ n, FlowGraph.numbered x n ∉ params
  falls : ∀ b ∈ g.blocks, b.fallsThrough = true → Block.following g.names b.name = none

inductive Matches (g : FlowGraph) (params : List String) (undefined : String)
    (names : Nat → NodeNames) (blocks : List Block) : State V → State V → Prop
  | inside {v : Nat} {b : Block} {done rest rest' : List Instruction} {env : Env}
      {σ σ' : Store V} {effects : List (Effect V)} (hv : g.graph.Reachable 0 v)
      (hb : g.blocks[v]? = some b) (hmem : b ∈ blocks) (hi : b.instrs = done ++ rest)
      (hdone : ∀ i ∈ done, i.isTerminator = false)
      (hren : Renamed undefined env rest rest' (names v).leaving)
      (hvers : NamesVersions params env) (hag : Agrees env σ σ') :
      Matches g params undefined names blocks ⟨.inside b.name rest, σ, effects⟩
        ⟨.inside b.name rest', σ', effects⟩
  | finished {σ σ' : Store V} {effects : List (Effect V)} :
      Matches g params undefined names blocks ⟨.finished, σ, effects⟩ ⟨.finished, σ', effects⟩

variable {g : FlowGraph} {form : SsaForm} {nodeNames : Nat → NodeNames} {s : Walk} {v w : Nat}
  {b b' c : Block} {blocks : List Block} {effects : List (Effect V)} {p : Phi}

theorem Matches.same_place {st t : State V} (h : Matches g params undefined nodeNames blocks st t) :
    t.point.block? = st.point.block? ∧ t.effects = st.effects := by
  cases h with
  | inside => exact ⟨rfl, rfl⟩
  | finished => exact ⟨rfl, rfl⟩

theorem Plain.dest_eq_none (hp : Plain g params) (hb : b ∈ g.blocks) (hi : i ∈ b.instrs)
    (hl : i.isLabel = true) : i.dest = none := by
  obtain ⟨l, rfl⟩ := hp.labels b hb i hi hl
  rfl

theorem Plain.isTerminator_eq_false (hp : Plain g params) (hb : b ∈ g.blocks) (hi : i ∈ b.instrs)
    (hl : i.isLabel = true) : i.isTerminator = false := by
  obtain ⟨l, rfl⟩ := hp.labels b hb i hi hl
  rfl

theorem Plain.headPhis_eq_nil (hp : Plain g params) (hb : b ∈ g.blocks) : b.headPhis = [] :=
  Block.headPhis_eq_nil (hp.no_phi b hb)

theorem Plain.head_done (hp : Plain g params) (hb : b ∈ g.blocks) :
    b.instrs = b.instrs.takeWhile Block.isHead ++ b.body ∧
      ∀ i ∈ b.instrs.takeWhile Block.isHead, i.isTerminator = false := by
  constructor
  · exact List.takeWhile_append_dropWhile.symm
  · intro i hi
    have him := (List.takeWhile_prefix _).mem hi
    have hhead := List.mem_takeWhile_imp hi
    rw [Block.isHead, hp.no_phi b hb i him, Bool.or_false] at hhead
    exact hp.isTerminator_eq_false hb him hhead

section Naming

variable (h : Naming g params undefined nodeNames s) (hg : g.WellFormed)
include h hg

omit hg in
theorem Naming.exists_defines (hphi : s.phi? v x = some p) : ∃ u, Defines g u x := by
  have hplaced := (h.placed v x).1 (by rw [hphi]; rfl)
  by_contra hnone
  have hsites : sitesOf (definitionSites g) x = [] := by
    rw [List.eq_nil_iff_forall_not_mem]
    intro u hu
    exact hnone ⟨u, mem_definitionSites.1 hu⟩
  rw [hsites, Dominance.iteratedFrontier_nil] at hplaced
  simp at hplaced

theorem Naming.exists_block (hform : form = SsaForm.ofWalk g s) (hp : Plain g params)
    (hv : g.graph.Reachable 0 v) (hb : g.blocks[v]? = some b) :
    ∃ b', form.blocks[v]? = some b' ∧ b'.name = b.name ∧
      b'.headPhis = (s.phisOf v).map (·.toInstruction) ∧
      Renamed undefined (nodeNames v).inside b.body b'.body (nodeNames v).leaving := by
  have hmem := List.mem_of_getElem? hb
  obtain ⟨instrs, hcode, hren, -⟩ := h.code v b hv hb
  obtain ⟨b', hb', hname, hlay⟩ := SsaForm.exists_block_ofWalk hg s hb
  rw [SsaForm.insertedPhis_ofWalk hg s hb, hcode, Option.getD_some] at hlay
  have hnew : ∀ i ∈ (s.phisOf v).map (·.toInstruction), i.isPhi = true := by
    intro i hi
    obtain ⟨p, -, rfl⟩ := List.mem_map.1 hi
    rfl
  obtain ⟨hphis, hbody⟩ := hlay.head hnew (hren.isPhi_eq_false (hp.no_phi b hmem))
  refine ⟨b', hform ▸ hb', hname, hphis, ?_⟩
  rw [Block.body, Block.body, hbody]
  exact hren.dropHead (hp.no_phi b hmem) fun i hi hl => hp.dest_eq_none hmem hi hl

theorem Naming.not_mem_targets (hp : Plain g params) (hv : g.graph.Reachable 0 v)
    (hnone : s.phi? v x = none) {d : String} (hd : (nodeNames v).entering.get? x = some d) :
    d ∉ (s.phisOf v).map (·.target) := by
  intro htarget
  obtain ⟨p, hmem, rfl⟩ := List.mem_map.1 htarget
  obtain ⟨z, hz⟩ := mem_phisOf.1 hmem
  obtain ⟨m, hdest, -⟩ := h.phi v z p hv hz
  have htarget : p.target = FlowGraph.numbered z m := by simp [Phi.target, hdest]
  rw [htarget] at hd
  rcases h.entering_origin hg hv hd with ⟨heq, hparam⟩ | ⟨⟨n, hn⟩, -⟩
  · obtain ⟨u, b, hb, hzb⟩ := h.exists_defines hz
    exact hp.params b (List.mem_of_getElem? hb) z hzb m (heq ▸ hparam)
  · obtain ⟨rfl, -⟩ := FlowGraph.numbered_inj.1 hn
    exact Option.some_ne_none p (hz.symm.trans hnone)

/-- Behind the phis of a block the values are kept: the targets of the phis hold what the operands
held, and all else is called as it was at the entrance. -/
theorem Naming.agrees_inside (hp : Plain g params) (hv : g.graph.Reachable 0 v)
    {source : Option String} (hphis : b'.headPhis = (s.phisOf v).map (·.toInstruction))
    (hread : ∀ x p, s.phi? v x = some p → ∃ d,
      operand? source p.toInstruction = some d ∧ ∀ a, σ x = some a → σ' d = some a)
    (hkeep : ∀ x a, s.phi? v x = none → σ x = some a → ∃ d,
      (nodeNames v).entering.get? x = some d ∧ σ' d = some a) :
    Agrees (nodeNames v).inside σ (σ'.assignAll b'.headPhis
      (b'.headPhis.map fun i => (operand? source i).bind σ')) := by
  have htargets : b'.headPhis.filterMap (·.dest) = (s.phisOf v).map (·.target) := by
    rw [hphis, List.filterMap_map, ← List.filterMap_eq_map]
    rfl
  intro x a hx
  cases hphi : s.phi? v x with
  | some p =>
    obtain ⟨n, hdest, hin⟩ := h.phi v x p hv hphi
    obtain ⟨d, hd, hval⟩ := hread x p hphi
    have hpm : p.toInstruction ∈ b'.headPhis := by
      rw [hphis]
      exact List.mem_map_of_mem (mem_phisOf.2 ⟨x, hphi⟩)
    have hpd : p.toInstruction.dest = some (FlowGraph.numbered x n) := by
      simp [Phi.toInstruction, Instruction.phi, Phi.target, hdest]
    refine ⟨_, hin, ?_⟩
    rw [Store.assignAll_map_of_mem (htargets ▸ h.nodup_targets hv) hpm hpd, hd,
      Option.bind_some, hval a hx]
  | none =>
    obtain ⟨d, hd, hval⟩ := hkeep x a hphi hx
    refine ⟨d, (h.no_phi v x hv hphi).trans hd, ?_⟩
    rw [Store.assignAll_of_not_mem, hval]
    rw [htargets]
    exact h.not_mem_targets hg hp hv hphi hd

/-- Entering a block keeps the values, if its phis read them and the other variables are called the
same. -/
theorem Naming.enters (hform : form = SsaForm.ofWalk g s) (hp : Plain g params)
    (hv : g.graph.Reachable 0 v) (hb : g.blocks[v]? = some b) {source : Option String}
    (hread : ∀ x p, s.phi? v x = some p → ∃ d,
      operand? source p.toInstruction = some d ∧ ∀ a, σ x = some a → σ' d = some a)
    (hkeep : ∀ x a, s.phi? v x = none → σ x = some a → ∃ d,
      (nodeNames v).entering.get? x = some d ∧ σ' d = some a) (effects : List (Effect V)) :
    ∃ events rest' σ₁,
      Enters form.blocks source b.name σ' effects events ⟨.inside b.name rest', σ₁, effects⟩ ∧
      Renamed undefined (nodeNames v).inside b.body rest' (nodeNames v).leaving ∧
      Agrees (nodeNames v).inside σ σ₁ ∧
      events.filterMap (RunEvent.shown FlowGraph.stem) = [⟨b.name, .enter⟩] := by
  obtain ⟨b', hb', hname, hphis, hren⟩ := h.exists_block hg hform hp hv hb
  have hreads : List.Forall₂ (fun i value => ∃ x, operand? source i = some x ∧ value = σ' x)
      b'.headPhis (b'.headPhis.map fun i => (operand? source i).bind σ') := by
    rw [List.forall₂_map_right_iff, List.forall₂_same, hphis]
    intro i hi
    obtain ⟨p, hpm, rfl⟩ := List.mem_map.1 hi
    obtain ⟨x, hx⟩ := mem_phisOf.1 hpm
    obtain ⟨d, hd, -⟩ := hread x p hx
    exact ⟨d, hd, by rw [hd, Option.bind_some]⟩
  have henters : Enters form.blocks source b.name σ' effects _ _ :=
    .intro (List.mem_of_getElem? hb') hname hreads
  rw [hname] at henters
  refine ⟨_, _, _, henters, hren, h.agrees_inside hg hp hv hphis hread hkeep, ?_⟩
  rw [entryEvents, List.filterMap_cons]
  simp [RunEvent.shown, hname, List.filterMap_map, Function.comp_def]

/-- Along an edge the values are kept: each phi reads what its variable is called at the end of the
node left. -/
theorem Naming.enters_succ (hform : form = SsaForm.ofWalk g s) (hp : Plain g params)
    (hv : g.graph.Reachable 0 v) (hb : g.blocks[v]? = some b) (hw : w ∈ g.graph.succs v)
    (hc : g.blocks[w]? = some c) (hmem : c ∈ blocks) (hag : Agrees (nodeNames v).leaving σ σ')
    (effects : List (Effect V)) :
    ∃ events t, Enters form.blocks (some b.name) c.name σ' effects events t ∧
      Matches g params undefined nodeNames blocks ⟨.inside c.name c.body, σ, effects⟩ t ∧
      events.filterMap (RunEvent.shown FlowGraph.stem) = [⟨c.name, .enter⟩] := by
  have hwr := hv.step hw (hg.graph.succs_lt v w hw).2
  have hread : ∀ x p, s.phi? w x = some p → ∃ d,
      operand? (some b.name) p.toInstruction = some d ∧ ∀ a, σ x = some a → σ' d = some a := by
    intro x p hphi
    refine ⟨called undefined (nodeNames v).leaving x, ?_, ?_⟩
    · have ho := (h.operands w x p hphi _).2 ⟨v, hv, hw, rfl⟩
      have hzip : p.toInstruction.labels.zip p.toInstruction.args =
          p.operands.map fun o => (o.predecessor, o.value) := by
        simp only [Phi.toInstruction, Instruction.phi, List.zip_map']
      rw [operand?, Option.bind_some, hzip]
      apply NameMap.lookup_eq_some_of_mem
      · rw [List.map_map]
        exact h.operands_nodup w x p hphi
      · exact List.mem_map.2 ⟨_, ho, by rw [FlowGraph.nameOf_eq hb]⟩
    · intro a hx
      obtain ⟨d, hd, hval⟩ := hag x a hx
      rw [called, hd, Option.getD_some, hval]
  have hkeep : ∀ x a, s.phi? w x = none → σ x = some a → ∃ d,
      (nodeNames w).entering.get? x = some d ∧ σ' d = some a := by
    intro x a hphi hx
    rw [h.entering_eq hg hv hw hphi]
    exact hag x a hx
  obtain ⟨events, rest', σ₁, henters, hren, hag₁, hshown⟩ :=
    h.enters hg hform hp hwr hc hread hkeep effects
  obtain ⟨hinstrs, hdone⟩ := hp.head_done (List.mem_of_getElem? hc)
  exact ⟨events, _, henters,
    .inside hwr hc hmem hinstrs hdone hren (h.inside_versions hg hwr) hag₁, hshown⟩

section Step

variable (hform : form = SsaForm.ofWalk g s) (hp : Plain g params)
  (hsub : ∀ b ∈ blocks, b ∈ g.blocks) {I : Interp V} {σ₁ : Store V} {effects₁ : List (Effect V)}
  {done : List Instruction} {args : List V} {result : V} {target : String} {st : State V}
  {events : List (RunEvent V)}
include hform hp hsub

/-- A branch enters the same block, where the names at the end of its own block count. -/
theorem Naming.simulate_branch (hv : g.graph.Reachable 0 v) (hb : g.blocks[v]? = some b)
    (hi : b.instrs = done ++ i :: rest) (hl : i.isLabel = false) (hbr : i.isBranch = true)
    (hren : Renamed undefined env (i :: rest) instrs' (nodeNames v).leaving)
    (hag : Agrees env σ σ') (ha : i.args.map σ = args.map some)
    (ht : i.labels[if decision I i args then 0 else 1]? = some target)
    (he : Enters blocks (some b.name) target σ effects events st) :
    ∃ events' t, Step form.blocks I ⟨.inside b.name instrs', σ', effects⟩ events' t ∧
      Matches g params undefined nodeNames blocks st t ∧
      events'.filterMap (RunEvent.shown FlowGraph.stem) =
        (⟨b.name, .branch i.op args (decision I i args)⟩ :: events).filterMap (RunEvent.shown id) := by
  have hterm := Instruction.isTerminator_of_isBranch hbr
  obtain ⟨hdest, rfl⟩ := hp.ends b (List.mem_of_getElem? hb) done i rest hi hterm
  obtain ⟨d, rest', rfl, ⟨-, rfl, hrest⟩ | ⟨x, n, hx, -⟩⟩ := hren.cons
  · have henv : env = (nodeNames v).leaving := by
      cases hrest
      rfl
    obtain ⟨c, hc, rfl, rfl, rfl⟩ := he.eq_of_headPhis_eq_nil fun c hc =>
      hp.headPhis_eq_nil (hsub c hc)
    have htarget : c.name ∈ b.targets := by
      rw [Block.targets, mem_distinct, List.mem_flatMap]
      exact ⟨i, List.mem_filter.2 ⟨by simp [hi], hbr⟩, List.mem_of_getElem? ht⟩
    obtain ⟨w, hcg⟩ := List.mem_iff_getElem?.1 (hsub c hc)
    have hsucc : w ∈ g.graph.succs v := (hg.mem_succs v w).2 ⟨b, c, hb, hcg, htarget⟩
    obtain ⟨events', t, he', hm, hshown⟩ := h.enters_succ hg hform hp hv hb hsucc hcg hc
      (henv ▸ hag) effects
    refine ⟨_, t, .branch hl hbr (hag.map_called ha) ht he', hm, ?_⟩
    rw [List.filterMap_cons, List.filterMap_cons, hshown]
    rfl
  · simp [hdest] at hx

omit h hg hform hsub in
/-- An operation computes the same, and what it assigns is called by the new version. -/
theorem Naming.simulate_operation (hI : I.ByOperator) (hv : g.graph.Reachable 0 v)
    (hb : g.blocks[v]? = some b) (hmem : b ∈ blocks) (hi : b.instrs = done ++ i :: rest)
    (hdone : ∀ j ∈ done, j.isTerminator = false) (hl : i.isLabel = false)
    (hop : i.isTerminator = false)
    (hren : Renamed undefined env (i :: rest) instrs' (nodeNames v).leaving)
    (hvers : NamesVersions params env) (hag : Agrees env σ σ') (ha : i.args.map σ = args.map some)
    (hr : I.result { i with dest := none } args effects = some result) :
    ∃ events' t, Step form.blocks I ⟨.inside b.name instrs', σ', effects⟩ events' t ∧
      Matches g params undefined nodeNames blocks ⟨.inside b.name rest,
        σ.assign i.dest (some result), effects ++ [effectOf i args result]⟩ t ∧
      events'.filterMap (RunEvent.shown FlowGraph.stem) =
        [⟨b.name, .operation i args result⟩].filterMap (RunEvent.shown id) := by
  obtain ⟨hi₁, hdone₁⟩ := Block.passed_concat hi hdone hop
  obtain ⟨d, rest', rfl, hrest⟩ := hren.cons
  have hsame : I.result { i with args := i.args.map (called undefined env), dest := none } =
      I.result { i with dest := none } := hI _ _ rfl rfl rfl
  have hr' : I.result { i with args := i.args.map (called undefined env), dest := none } args
      effects = some result := (congrFun₂ hsame args effects).trans hr
  refine ⟨_, _, .operation hl hop (hag.map_called ha) hr', ?_, ?_⟩
  · rcases hrest with ⟨hd, rfl, hrest⟩ | ⟨x, n, hd, rfl, hrest⟩
    · rw [hd]
      exact .inside hv hb hmem hi₁ hdone₁ hrest hvers hag
    · rw [hd]
      have hx : x ∈ b.destinations := List.mem_filterMap.2 ⟨i, by simp [hi], hd⟩
      have hparam := hp.params b (List.mem_of_getElem? hb) x hx n
      exact .inside hv hb hmem hi₁ hdone₁ hrest (hvers.insert x n) (hag.assign hvers hparam)
  · have hstem : d.map FlowGraph.stem = i.dest := by
      rcases hrest with ⟨hd, rfl, -⟩ | ⟨x, n, hd, rfl, -⟩
      · rw [hd, Option.map_none]
      · rw [hd, Option.map_some, FlowGraph.stem_numbered]
    simp only [RunEvent.shown, List.filterMap_cons, List.filterMap_nil, hstem, Option.map_id_fun,
      id_eq]

/-- Every step of the code is answered by a step of the form at the same place. -/
theorem Naming.simulate_step (hI : I.ByOperator)
    (hfalls : ∀ b ∈ blocks, b.fallsThrough = true →
      Block.following (blocks.map (·.name)) b.name = none)
    {st₁ t : State V} (hstep : Step blocks I st events st₁)
    (hm : Matches g params undefined nodeNames blocks st t) :
    ∃ events' t₁, Step form.blocks I t events' t₁ ∧
      Matches g params undefined nodeNames blocks st₁ t₁ ∧
      events'.filterMap (RunEvent.shown FlowGraph.stem) = events.filterMap (RunEvent.shown id) := by
  cases hm with
  | finished => cases hstep
  | @inside v b done rest rest' env σ σ' effects hv hb hmem hi hdone hren hvers hag =>
    have hgb := List.mem_of_getElem? hb
    cases hstep with
    | @label _ i rest _ _ hl =>
      have him : i ∈ b.instrs := by simp [hi]
      obtain ⟨d, rest', rfl, ⟨-, rfl, hrest⟩ | ⟨x, n, hx, -⟩⟩ := hren.cons
      · obtain ⟨hi₁, hdone₁⟩ :=
          Block.passed_concat hi hdone (hp.isTerminator_eq_false hgb him hl)
        exact ⟨[], _, .label hl, .inside hv hb hmem hi₁ hdone₁ hrest hvers hag, rfl⟩
      · simp [hp.dest_eq_none hgb him hl] at hx
    | branch hl hbr ha ht he =>
      exact h.simulate_branch hg hform hp hsub hv hb hi hl hbr hren hag ha ht he
    | @ret _ i rest _ _ args hl hret ha =>
      obtain ⟨d, rest', rfl, -⟩ := hren.cons
      exact ⟨_, _, .ret hl hret (hag.map_called ha), .finished, rfl⟩
    | operation hl hop ha hr =>
      exact Naming.simulate_operation hp hI hv hb hmem hi hdone hl hop hren hvers hag ha hr
    | runOn hf _ =>
      have hfall := b.fallsThrough_of_forall fun i hi' => hdone i (by simpa [hi] using hi')
      simp [hfalls b hmem hfall] at hf
    | finish _ =>
      have hfall := b.fallsThrough_of_forall fun i hi' => hdone i (by simpa [hi] using hi')
      have hend : Block.following (form.blocks.map (·.name)) b.name = none := by
        rw [hform, SsaForm.names_ofWalk]
        exact hp.falls b hgb hfall
      cases hren
      exact ⟨_, _, .finish hend, .finished, rfl⟩

omit hsub in
theorem Naming.enters_first (hb : g.blocks[0]? = some b)
    (hσ : ∀ x, σ x ≠ none → x ∈ params) (effects : List (Effect V)) :
    ∃ events rest' σ₁,
      Enters form.blocks none b.name σ effects events ⟨.inside b.name rest', σ₁, effects⟩ ∧
      Renamed undefined (nodeNames 0).inside b.body rest' (nodeNames 0).leaving ∧
      Agrees (nodeNames 0).inside σ σ₁ ∧
      events.filterMap (RunEvent.shown FlowGraph.stem) = [⟨b.name, .enter⟩] := by
  have hread : ∀ x p, s.phi? 0 x = some p → ∃ d,
      operand? none p.toInstruction = some d ∧ ∀ a, σ x = some a → σ d = some a := by
    intro x p hphi
    have hreach := h.reachable_of_phi hg (v := 0) (x := x) (by rw [hphi]; rfl)
    exact absurd rfl hreach.2
  have hkeep : ∀ x a, s.phi? 0 x = none → σ x = some a → ∃ d,
      (nodeNames 0).entering.get? x = some d ∧ σ d = some a := by
    intro x a _ hx
    refine ⟨x, ?_, hx⟩
    rw [h.entry]
    exact paramEnv_get? (hσ x (by simp [hx]))
  exact h.enters hg hform hp (.of_lt hg.nonempty) hb hread hkeep effects

omit hsub in
/-- The form starts where the code does, or in the block put in front, which jumps there. -/
theorem Naming.simulate_start {first : Block} {more : List Block} {front : List FlowNode}
    (hblocks : g.blocks = front.map (·.block) ++ first :: more)
    (hfront : FlowGraph.FrontOf first (first :: more) front) (hσ : ∀ x, σ x ≠ none → x ∈ params)
    (he : Enters (first :: more) none first.name σ effects events st) :
    ∃ head' events' events'' t t', form.blocks.head? = some head' ∧
      Enters form.blocks none head'.name σ effects events' t ∧
      Run form.blocks I t events'' t' ∧
      Matches g params undefined nodeNames (first :: more) st t' ∧
      (events' ++ events'').filterMap (RunEvent.shown FlowGraph.stem) =
        (front.map (·.block.name)).flatMap passage ++ events.filterMap (RunEvent.shown id) := by
  have hmem : ∀ b ∈ first :: more, b ∈ g.blocks := by
    intro b hb
    rw [hblocks]
    exact List.mem_append_right _ hb
  have hnil : ∀ b ∈ first :: more, b.headPhis = [] := fun b hb => hp.headPhis_eq_nil (hmem b hb)
  obtain ⟨c, hc, hname, rfl, rfl⟩ := he.eq_of_headPhis_eq_nil hnil
  obtain ⟨v, hv⟩ := List.mem_iff_getElem?.1 (hmem c hc)
  have h0 : g.graph.Reachable 0 0 := .of_lt hg.nonempty
  obtain ⟨b, hb⟩ := exists_getElem?_blocks h0
  obtain ⟨b', hb', hname', -⟩ := h.exists_block hg hform hp h0 hb
  obtain ⟨events', rest', σ₁, henters, hren, hag, hshown⟩ :=
    h.enters_first hg hform hp hb hσ effects
  rw [List.head?_eq_getElem?]
  rw [← hname'] at henters
  cases hfront with
  | none _ =>
    obtain rfl : first = b := by simpa [hblocks] using hb
    obtain rfl := hg.eq_of_name_eq hv hb hname
    obtain rfl := Option.some.inj (hv.symm.trans hb)
    obtain ⟨hinstrs, hdone⟩ := hp.head_done (List.mem_of_getElem? hb)
    refine ⟨b', events', [], _, _, hb', henters, .refl _, ?_, ?_⟩
    · rw [hname']
      exact .inside h0 hb hc hinstrs hdone hren (h.inside_versions hg h0) hag
    · rw [List.append_nil, hshown]
      rfl
  | jump name _ =>
    obtain rfl : Block.labeled name [.jump first.name] = b := by simpa [hblocks] using hb
    have hinstrs : (Block.labeled name [.jump first.name]).instrs =
        [.atLabel name] ++ .jump first.name :: [] := rfl
    have hargs : (Instruction.jump first.name).args.map σ = ([] : List V).map some := rfl
    have henter := Enters.of_headPhis_eq_nil hc (hnil c hc) (some name) σ effects
    obtain ⟨events'', t', hstep, hm, hshown'⟩ := h.simulate_branch hg hform hp hmem h0 hb hinstrs
      rfl rfl hren hag hargs (congrArg some hname.symm) henter (I := I)
    refine ⟨b', events', events'', _, t', hb', henters, ?_, hm, ?_⟩
    · rw [hname']
      exact .single hstep
    · rw [List.filterMap_append, hshown, hshown']
      rfl

end Step

end Naming

variable {entryPrefix : String} {params : List String} {undefined : String} {form : SsaForm}
  {blocks : List Block} {g : FlowGraph}

theorem following_names (hgraph : FlowGraph.ofBlocks blocks entryPrefix = .ok g) (hb : b ∈ blocks) :
    Block.following g.names b.name = Block.following (blocks.map (·.name)) b.name := by
  obtain ⟨first, rest, front, rfl, hfront, hblocks⟩ := FlowGraph.blocks_of_ofBlocks hgraph
  rw [FlowGraph.names_eq, hblocks]
  cases hfront with
  | none _ => rfl
  | jump name hname =>
    apply Block.following_cons_of_ne
    rintro rfl
    exact hname (List.mem_map_of_mem hb)

/-- The graph of plain code is plain, whatever block is put in front. -/
theorem Plain.of_ofBlocks (hgraph : FlowGraph.ofBlocks blocks entryPrefix = .ok g)
    (hlabels : ∀ b ∈ blocks, ∀ i ∈ b.instrs, i.isLabel = true → ∃ l, i = .atLabel l)
    (hphi : ∀ b ∈ blocks, ∀ i ∈ b.instrs, i.isPhi = false)
    (hends : ∀ b ∈ blocks, b.EndsProperly)
    (hparams : ∀ b ∈ blocks, ∀ x ∈ b.destinations, ∀ n, FlowGraph.numbered x n ∉ params)
    (hfalls : ∀ b ∈ blocks, b.fallsThrough = true →
      Block.following (blocks.map (·.name)) b.name = none) : Plain g params := by
  constructor
  case labels =>
    intro b hb i hi hl
    rcases FlowGraph.mem_blocks_cases hgraph hb with hb | ⟨name, target, rfl⟩
    · exact hlabels b hb i hi hl
    · rcases FlowGraph.mem_instrs_labeled_jump.1 hi with rfl | rfl
      · exact ⟨name, rfl⟩
      · cases hl
  case no_phi =>
    intro b hb i hi
    rcases FlowGraph.mem_blocks_cases hgraph hb with hb | ⟨name, target, rfl⟩
    · exact hphi b hb i hi
    · rcases FlowGraph.mem_instrs_labeled_jump.1 hi with rfl | rfl
      · rfl
      · rfl
  case ends =>
    intro b hb
    rcases FlowGraph.mem_blocks_cases hgraph hb with hb | ⟨name, target, rfl⟩
    · exact hends b hb
    · exact Block.endsProperly_labeled_jump name target
  case params =>
    intro b hb x hx
    rcases FlowGraph.mem_blocks_cases hgraph hb with hb | ⟨name, target, rfl⟩
    · exact hparams b hb x hx
    · simp at hx
  case falls =>
    intro b hb hf
    rcases FlowGraph.mem_blocks_cases hgraph hb with hb | ⟨name, target, rfl⟩
    · rw [following_names hgraph hb]
      exact hfalls b hb hf
    · cases hf

end Ssa

end FlowOpt
