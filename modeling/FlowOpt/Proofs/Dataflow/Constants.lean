import FlowOpt.Proofs.Dataflow.Facts
import FlowOpt.Proofs.Dataflow.Worklist
import FlowOpt.Proofs.Split
import FlowOpt.Proofs.Ssa.Meaning

/-!
# Constants hold

Along a run every variable that was assigned has a fact where control is, and the fact allows the
value that the variable holds. An assignment sets the fact of its destination, and where control
goes from one block to another the facts at the end of the one are among those that flow into the
other. A variable that was not assigned may hold a value as well, if it is a parameter. The facts
say nothing of that value.
-/

namespace FlowOpt

open FlowOpt.Execution

namespace Execution

variable {V : Type} {blocks : List Block} {I : Interp V} {σ : Store V} {source : Option String}
  {target name x : String} {effects : List (Effect V)} {es es' : List (RunEvent V)}
  {s t : State V}

def Action.dest? : Action V → Option String
  | .phi dest _ => dest
  | .operation i _ _ => i.dest
  | _ => none

def assigned (events : List (RunEvent V)) : List String := events.filterMap (·.action.dest?)

def Interp.Loads (I : Interp V) (lit : Literal → V) : Prop :=
  ∀ i args effects c r, i.op = some "const" → i.value = some c →
    I.result i args effects = some r → r = lit c

/-- After some events a run comes to the start of a block with a store: the code begins there, or a
step enters the block. -/
inductive ComesTo (blocks : List Block) (I : Interp V) (σ : Store V) :
    List (RunEvent V) → String → Store V → Prop
  | start {first : Block} (hfirst : blocks.head? = some first) : ComesTo blocks I σ [] first.name σ
  | step {events es : List (RunEvent V)} {s t : State V} {name : String}
      (hrun : RunsFrom blocks I σ events s) (hstep : Step blocks I s es t)
      (henter : ⟨name, .enter⟩ ∈ es) : ComesTo blocks I σ events name s.store

theorem assigned_append (es es' : List (RunEvent V)) :
    assigned (es ++ es') = assigned es ++ assigned es' := List.filterMap_append

theorem assigned_entryEvents {b : Block} {values : List (Option V)}
    (h : b.headPhis.length = values.length) :
    assigned (entryEvents b values) = b.headPhis.filterMap (·.dest) := by
  have hphis : (b.headPhis.zip values).map (·.1) = b.headPhis := List.map_fst_zip h.le
  conv_rhs => rw [← hphis]
  rw [List.filterMap_map]
  exact List.filterMap_map

theorem Enters.enter_mem_iff (h : Enters blocks source target σ effects es s) :
    ⟨name, .enter⟩ ∈ es ↔ name = target := by
  obtain ⟨_, rfl, _⟩ := h
  simp [entryEvents]

theorem Enters.exists_mem (h : Enters blocks source target σ effects es s) :
    ∃ b ∈ blocks, b.name = target := by
  obtain ⟨hb, hn, _⟩ := h
  exact ⟨_, hb, hn⟩

theorem Step.exists_mem (h : Step blocks I s es t) (hmem : ⟨name, .enter⟩ ∈ es) :
    ∃ b ∈ blocks, b.name = name := by
  cases h with
  | branch _ _ _ _ he =>
    rcases List.mem_cons.1 hmem with heq | hmem
    · cases heq
    · rw [he.enter_mem_iff.1 hmem]
      exact he.exists_mem
  | runOn _ he =>
    rw [he.enter_mem_iff.1 hmem]
    exact he.exists_mem
  | label _ => cases hmem
  | _ => simp at hmem

/-- What is not assigned keeps its value. -/
theorem Enters.store_eq (h : Enters blocks source target σ effects es s) (hx : x ∉ assigned es) :
    s.store x = σ x := by
  obtain ⟨hb, _, hv⟩ := h
  rw [assigned_entryEvents hv.length_eq] at hx
  exact Store.assignAll_of_not_mem hx

theorem Step.store_eq (h : Step blocks I s es t) (hx : x ∉ assigned es) :
    t.store x = s.store x := by
  cases h with
  | branch _ _ _ _ he => exact he.store_eq hx
  | runOn _ he => exact he.store_eq hx
  | @operation b i _ _ _ args r _ _ _ _ =>
    apply Store.assign_of_ne
    intro hd
    exact hx (List.mem_filterMap.2 ⟨⟨b, .operation i args r⟩, List.mem_singleton_self _, hd⟩)
  | _ => rfl

theorem Run.store_eq (h : Run blocks I s es t) (hx : x ∉ assigned es) : t.store x = s.store x := by
  induction h with
  | refl s => rfl
  | step hs _ ih =>
    rw [assigned_append, List.mem_append, not_or] at hx
    rw [ih hx.2, hs.store_eq hx.1]

theorem RunsFrom.store_eq (h : RunsFrom blocks I σ es s) (hx : x ∉ assigned es) :
    s.store x = σ x := by
  obtain ⟨first, es₁, es₂, t, -, he, hr, rfl⟩ := h
  rw [assigned_append, List.mem_append, not_or] at hx
  rw [hr.store_eq hx.2, he.store_eq hx.1]

end Execution

namespace FlowGraph

/-- The blocks are blocks of the graph, and control goes from one to another only along its edges.
In front of a label stands nothing that is assigned. -/
structure Charts (g : FlowGraph) (blocks : List Block) : Prop where
  mem : ∀ b ∈ blocks, b ∈ g.blocks
  labels : ∀ b ∈ blocks, ∀ before i after, b.instrs = before ++ i :: after → i.isLabel = true →
    i.isTerminator = false ∧ ∀ j ∈ before, j.dest = none
  ends : ∀ b ∈ blocks, ∀ i ∈ b.instrs.dropLast, i.isTerminator = false
  falls : ∀ b ∈ blocks, b.fallsThrough = true →
    Block.following (blocks.map (·.name)) b.name = none

variable {g : FlowGraph} {blocks : List Block} {outputs : Array FactMap} {V : Type} {I : Interp V}
  {lit : Literal → V} {b c : Block} {v w : Nat} {x name target : String} {value : Option V}
  {xs : List String} {σ : Store V} {es : List (RunEvent V)} {s t : State V}

def inflow (g : FlowGraph) (outputs : Array FactMap) (v : Nat) : FactMap :=
  Worklist.incoming constantPropagation g.graph outputs v

theorem allows_inflow (hg : g.WellFormed)
    (hsettled : ∀ v, Worklist.Settled constantPropagation g.graph outputs v)
    (hb : g.blocks[v]? = some b) (hc : g.blocks[w]? = some c) (ht : c.name ∈ b.targets)
    (h : (factsBehind b.instrs (g.inflow outputs v)).Allows lit x value) :
    (g.inflow outputs w).Allows lit x value := by
  have hpred : v ∈ g.graph.preds w :=
    (hg.graph.symmetric v w).1 ((hg.mem_succs v w).2 ⟨b, c, hb, hc, ht⟩)
  obtain ⟨node, hnode, rfl⟩ := Option.map_eq_some_iff.1 ((map_block_node? g v).trans hb)
  have hout : FactMap.Allows lit (outputs[v]?.getD {}) x value := by
    rcases hsettled v node hnode with heq | heq
    · rw [heq, Option.getD_some, transfer_constants]
      exact h
    · rw [transfer_constants] at heq
      cases ho : outputs[v]? with
      | none => simp [ho] at heq
      | some m =>
        rw [ho] at heq
        exact h.of_beq heq
  unfold inflow Worklist.incoming
  split
  · next hnil =>
    rw [hnil] at hpred
    cases hpred
  · exact .merge (List.mem_map.2 ⟨v, hpred, rfl⟩) hout

/-- Labels and phis at the head of a block leave nothing known of what the phis assign. -/
theorem get?_constantsOf_heads {heads : List Instruction} {i : Instruction}
    (hheads : ∀ i ∈ heads, Block.isHead i = true)
    (hlabels : ∀ before i after, heads = before ++ i :: after → i.isLabel = true →
      ∀ j ∈ before, j.dest = none)
    (hi : i ∈ heads) (hphi : i.isPhi = true) (hd : i.dest = some x) :
    (constantsOf heads).get? x = some .notConst := by
  induction heads using List.reverseRecOn with
  | nil => cases hi
  | append_singleton heads j ih =>
    have hbefore : i ∈ heads → j.isPhi = true := by
      intro hi
      have hj := hheads j (by simp)
      rw [Block.isHead, Bool.or_eq_true] at hj
      rcases hj with hl | hp
      · have hnone := hlabels heads j [] rfl hl i hi
        rw [hd] at hnone
        cases hnone
      · exact hp
    rw [get?_constantsOf_concat]
    rcases List.mem_append.1 hi with hi | hi
    · split
      · rw [Instruction.fact_of_isPhi (hbefore hi)]
      · refine ih (fun k hk => hheads k (List.mem_append_left _ hk)) ?_ hi
        intro before k after hk
        exact hlabels before k (after ++ [j]) (by simp [hk])
    · obtain rfl := List.mem_singleton.1 hi
      rw [if_pos hd, Instruction.fact_of_isPhi hphi]

def Arriving (g : FlowGraph) (outputs : Array FactMap) (lit : Literal → V) (xs : List String)
    (name : String) (σ : Store V) : Prop :=
  ∀ (w : Nat) (c : Block), g.blocks[w]? = some c → c.name = name →
    ∀ x ∈ xs, (g.inflow outputs w).Allows lit x (σ x)

/-- Of some variables the facts where control is allow the values they hold. -/
inductive Known (g : FlowGraph) (outputs : Array FactMap) (lit : Literal → V)
    (blocks : List Block) (xs : List String) : State V → Prop
  | inside {v : Nat} {b : Block} {before rest : List Instruction} {σ : Store V}
      {effects : List (Effect V)} (hb : b ∈ blocks) (hv : g.blocks[v]? = some b)
      (hinstrs : b.instrs = before ++ rest) (hbefore : ∀ i ∈ before, i.isTerminator = false)
      (hfacts : ∀ x ∈ xs, (factsBehind before (g.inflow outputs v)).Allows lit x (σ x)) :
      Known g outputs lit blocks xs ⟨.inside b.name rest, σ, effects⟩
  | finished {σ : Store V} {effects : List (Effect V)} :
      Known g outputs lit blocks xs ⟨.finished, σ, effects⟩

/-- A block that is entered with such values executes its phis, of which nothing is known. -/
theorem Known.enters (hcharts : g.Charts blocks) {source : Option String}
    {effects : List (Effect V)} (harr : g.Arriving outputs lit xs target σ)
    (h : Enters blocks source target σ effects es s) :
    Known g outputs lit blocks (xs ++ assigned es) s := by
  obtain ⟨hb, hn, hvalues⟩ := h
  next b values =>
  obtain ⟨v, hv⟩ := List.mem_iff_getElem?.1 (hcharts.mem b hb)
  have hinstrs := Block.instrs_eq_append_body b
  have hheads : ∀ i ∈ b.instrs.takeWhile Block.isHead, Block.isHead i = true :=
    List.all_eq_true.1 List.all_takeWhile
  have hat : ∀ before i after, b.instrs.takeWhile Block.isHead = before ++ i :: after →
      b.instrs = before ++ i :: (after ++ b.body) := by
    intro before i after heq
    rw [hinstrs, heq, List.append_assoc, List.cons_append]
  refine .inside hb hv hinstrs (fun i hi => ?_) (fun x hx => ?_)
  · obtain ⟨before, after, heq⟩ := List.append_of_mem hi
    apply Block.isTerminator_of_isHead (hheads i hi)
    exact fun hl => (hcharts.labels b hb before i _ (hat before i after heq) hl).1
  · rw [assigned_entryEvents hvalues.length_eq] at hx
    by_cases hphi : x ∈ b.headPhis.filterMap (·.dest)
    · obtain ⟨i, hi, hd⟩ := List.mem_filterMap.1 hphi
      obtain ⟨hi, hp⟩ := List.mem_filter.1 hi
      have hown : (constantsOf (b.instrs.takeWhile Block.isHead)).Allows lit x
          (σ.assignAll b.headPhis values x) := by
        refine ⟨.notConst, get?_constantsOf_heads hheads ?_ hi hp hd, fun _ _ => trivial⟩
        intro before i after heq hl
        exact (hcharts.labels b hb before i _ (hat before i after heq) hl).2
      exact hown.join_left _
    · have hold : x ∈ xs := (List.mem_append.1 hx).resolve_right hphi
      rw [Store.assignAll_of_not_mem hphi]
      exact (harr v b hv hn x hold).join_right _

variable (hg : g.WellFormed) (hcharts : g.Charts blocks)
  (hsettled : ∀ v, Worklist.Settled constantPropagation g.graph outputs v)
include hg hcharts hsettled

/-- What is known at the end of a block flows into the block that a step enters. -/
theorem Known.arriving (h : Known g outputs lit blocks xs s) (hstep : Step blocks I s es t)
    (hmem : ⟨name, .enter⟩ ∈ es) : g.Arriving outputs lit xs name s.store := by
  cases h with
  | finished => cases hstep
  | @inside v b before rest σ effects hb hv hinstrs hbefore hfacts =>
    cases hstep with
    | label _ => cases hmem
    | ret _ _ _ => simp at hmem
    | operation _ _ _ _ => simp at hmem
    | finish _ => simp at hmem
    | @branch _ target i rest _ _ args events _ hl hi ha ht he =>
      obtain rfl : name = target := by
        rcases List.mem_cons.1 hmem with heq | hmem
        · cases heq
        · exact he.enter_mem_iff.1 hmem
      have hlast : b.instrs = before ++ [i] := by
        cases rest with
        | nil => exact hinstrs
        | cons j rest =>
          have hdrop : i ∈ b.instrs.dropLast := hinstrs ▸ Block.mem_dropLast_append before i j rest
          have hends := hcharts.ends b hb i hdrop
          rw [Instruction.isTerminator_of_isBranch hi] at hends
          cases hends
      intro w c hc hname x hx
      have htarget : c.name ∈ b.targets := by
        rw [hname, Block.targets, mem_distinct, List.mem_flatMap]
        exact ⟨i, List.mem_filter.2 ⟨by simp [hlast], hi⟩, List.mem_of_getElem? ht⟩
      apply allows_inflow hg hsettled hv hc htarget
      rw [hlast]
      refine .concat (fun _ => hfacts x hx) (fun _ v _ => ?_)
      have hop : i.op ≠ some "const" := by
        intro hop
        simp [Instruction.isBranch, hop] at hi
      rw [Instruction.fact_of_op hop]
      trivial
    | runOn hf he =>
      have hfalls : b.fallsThrough = true := by
        apply Block.fallsThrough_of_forall
        rw [hinstrs, List.append_nil]
        exact hbefore
      rw [hcharts.falls b hb hfalls] at hf
      cases hf

theorem Known.step (hI : I.Loads lit) (h : Known g outputs lit blocks xs s)
    (hstep : Step blocks I s es t) : Known g outputs lit blocks (xs ++ assigned es) t := by
  have harriving : ∀ name, ⟨name, .enter⟩ ∈ es → g.Arriving outputs lit xs name s.store :=
    fun _ hmem => h.arriving hg hcharts hsettled hstep hmem
  cases h with
  | finished => cases hstep
  | @inside v b before rest σ effects hb hv hinstrs hbefore hfacts =>
    cases hstep with
    | @label _ i rest _ _ hl =>
      obtain ⟨hi, hnone⟩ := hcharts.labels b hb before i rest hinstrs hl
      obtain ⟨hinstrs', hbefore'⟩ := Block.passed_concat hinstrs hbefore hi
      refine .inside hb hv hinstrs' hbefore' fun x hx => ?_
      have hx : x ∈ xs := by simpa [assigned] using hx
      exact ((hfacts x hx).of_dest_eq_none hnone).join_right _
    | @branch _ target _ _ _ _ _ events _ hl hi ha ht he =>
      have hentered : Known g outputs lit blocks (xs ++ assigned events) t :=
        .enters hcharts (harriving target (List.mem_cons_of_mem _ (he.enter_mem_iff.2 rfl))) he
      exact hentered
    | ret _ _ _ => exact .finished
    | @operation _ i rest _ _ args r hl hi ha hr =>
      obtain ⟨hinstrs', hbefore'⟩ := Block.passed_concat hinstrs hbefore hi
      refine .inside hb hv hinstrs' hbefore' fun x hx => ?_
      refine .concat (fun hd => ?_) (fun hd v hvalue => ?_)
      · have hassigned : x ∉ assigned [(⟨b.name, .operation i args r⟩ : RunEvent V)] := by
          simpa [assigned, Action.dest?] using hd
        rw [Store.assign_of_ne hd]
        exact hfacts x ((List.mem_append.1 hx).resolve_right hassigned)
      · rw [hd, Store.assign_self] at hvalue
        obtain rfl := Option.some.inj hvalue
        unfold Instruction.fact
        split
        · next c hc =>
          split
          · next hop => exact ⟨c, .inl rfl, hI { i with dest := none } _ _ c r hop hc hr⟩
          · trivial
        · trivial
    | runOn hf he => exact .enters hcharts (harriving _ (he.enter_mem_iff.2 rfl)) he
    | finish _ => exact .finished

theorem Known.run (hI : I.Loads lit) (h : Known g outputs lit blocks xs s)
    (hrun : Run blocks I s es t) : Known g outputs lit blocks (xs ++ assigned es) t := by
  induction hrun generalizing xs with
  | refl s => simpa [assigned] using h
  | step hs _ ih =>
    rw [assigned_append, ← List.append_assoc]
    exact ih (h.step hg hcharts hsettled hI hs)

theorem Known.runsFrom (hI : I.Loads lit) (h : RunsFrom blocks I σ es s) :
    Known g outputs lit blocks (assigned es) s := by
  obtain ⟨first, es₁, es₂, t, -, he, hr, rfl⟩ := h
  have hstart : g.Arriving outputs lit [] first.name σ := by
    rintro w c - - x ⟨⟩
  have hknown := (Known.enters hcharts hstart he).run hg hcharts hsettled hI hr
  rwa [List.nil_append, ← assigned_append] at hknown

end FlowGraph

section Split

variable {instrs : List Instruction} {split : List Block} {b c : Block} {stem : String}
  {g : FlowGraph}

theorem Block.isTerminator_of_fallsThrough
    (hends : ∀ i ∈ c.instrs.dropLast, i.isTerminator = false) (hf : c.fallsThrough = true) :
    ∀ i ∈ c.instrs, i.isTerminator = false := by
  intro i hi
  have hne := List.ne_nil_of_mem hi
  rw [← List.dropLast_append_getLast hne, List.mem_append, List.mem_singleton] at hi
  rcases hi with hi | rfl
  · exact hends i hi
  · simpa [Block.fallsThrough, Block.terminator, List.getLast?_eq_some_getLast hne] using hf

/-- In front of a label in a block with its jumps written out nothing is assigned: behind the first
instruction that the block had there is no label. -/
theorem Block.dest_eq_none_before_label (hs : Block.split instrs = .ok split)
    (hb : b ∈ Block.addTerminators split) {before after : List Instruction} {i : Instruction}
    (hinstrs : b.instrs = before ++ i :: after) (hl : i.isLabel = true) :
    ∀ j ∈ before, j.dest = none := by
  obtain ⟨c, hc, front, back, hparts, hfront, hback⟩ := Block.exists_of_mem_addTerminators hb
  have hfront : ∀ j ∈ front, j.dest = none := by
    intro j hj
    obtain ⟨l, rfl⟩ := hfront j hj
    rfl
  rw [hinstrs, List.append_assoc, List.append_eq_append_iff] at hparts
  rcases hparts with ⟨mid, rfl, -⟩ | ⟨mid, rfl, hparts⟩
  · exact fun j hj => hfront j (List.mem_append_left _ hj)
  · cases mid with
    | nil => simpa using hfront
    | cons k mid =>
      obtain ⟨k', tail, hcut⟩ := List.exists_cons_of_ne_nil (Block.ne_nil_of_mem_split hs hc)
      rw [hcut, List.cons_append, List.cons_append, List.cons.injEq] at hparts
      have hi : i ∈ tail ++ back := by simp [hparts.2]
      rcases List.mem_append.1 hi with hi | hi
      · have htail : i ∈ c.instrs.tail := by rwa [hcut]
        rw [Block.isLabel_of_mem_tail_split hs hc htail] at hl
        cases hl
      · rcases hback with rfl | ⟨-, n, rfl⟩
        · cases hi
        · obtain rfl := List.mem_singleton.1 hi
          cases hl

/-- A graph of code with its jumps written out has an edge wherever control goes. -/
theorem FlowGraph.Charts.of_split (hs : Block.split instrs = .ok split)
    (hg : FlowGraph.ofBlocks (Block.addTerminators split) stem = .ok g)
    (hlabels : ∀ i ∈ instrs, i.isLabel = true → i.isTerminator = false)
    (hends : ∀ b ∈ split, ∀ i ∈ b.instrs.dropLast, i.isTerminator = false) :
    g.Charts (Block.addTerminators split) where
  mem b hb := by
    obtain ⟨first, rest, front, hfirst, -, hblocks⟩ := FlowGraph.blocks_of_ofBlocks hg
    rw [hblocks, ← hfirst]
    exact List.mem_append_right _ hb
  labels b hb before i after hinstrs hl := by
    constructor
    · have hi : i ∈ b.instrs := by simp [hinstrs]
      rcases Block.mem_instrs_addTerminators hb hi with ⟨c, hc, hi⟩ | ⟨l, rfl⟩ | ⟨l, rfl⟩
      · exact hlabels i (Block.mem_of_mem_split hs hc hi) hl
      · rfl
      · cases hl
    · exact Block.dest_eq_none_before_label hs hb hinstrs hl
  ends b hb i hi := by
    obtain ⟨c, hc, front, back, hparts, hfront, hback⟩ := Block.exists_of_mem_addTerminators hb
    have hfront : i ∈ front → i.isTerminator = false := by
      intro hi
      obtain ⟨l, rfl⟩ := hfront i hi
      rfl
    rcases hback with rfl | ⟨hf, n, rfl⟩
    · rw [hparts, List.append_nil, List.dropLast_append_of_ne_nil (Block.ne_nil_of_mem_split hs hc),
        List.mem_append] at hi
      exact hi.elim hfront (hends c hc i)
    · rw [hparts, List.dropLast_concat, List.mem_append] at hi
      exact hi.elim hfront (Block.isTerminator_of_fallsThrough (hends c hc) hf i)
  falls b hb hf := Function.following_of_ofBlocks hg hb hf

end Split

namespace Function

variable {V : Type}

/-- Constants are sound for what was assigned: if the facts that flow into a block say that a
variable is a constant, and the variable holds a value when a run comes there, the value is that
constant, or the other zero for a zero. A parameter that was not assigned yet is left out. -/
theorem constants_hold (f : Function) (split : List Block) (stem : String) (g : FlowGraph)
    (results : Results) (hs : Block.split f.instrs = .ok split)
    (hg : FlowGraph.ofBlocks (Block.addTerminators split) stem = .ok g)
    (hr : g.solve constantPropagation = .ok results)
    (hlabels : ∀ i ∈ f.instrs, i.isLabel = true → i.isTerminator = false)
    (hends : ∀ b ∈ split, ∀ i ∈ b.instrs.dropLast, i.isTerminator = false)
    (I : Interp V) (lit : Literal → V) (hI : I.Loads lit) (σ : Store V)
    (hσ : ∀ x, σ x ≠ none → x ∈ f.paramNames) (events : List (RunEvent V)) (name : String)
    (τ : Store V) (harr : ComesTo (Block.addTerminators split) I σ events name τ) :
    ∃ facts, results.inputs.get? name = some facts ∧
      ∀ x c v, facts.get? x = some (.const c) → τ x = some v →
        x ∉ f.paramNames ∨ x ∈ assigned events →
          ∃ c', (c' = c ∨ (c' == c) = true) ∧ v = lit c' := by
  have hwf := FlowGraph.WellFormed.of_ofBlocks hg
  have hcharts := FlowGraph.Charts.of_split hs hg hlabels hends
  obtain ⟨outputs, hsettled, hinputs⟩ := FlowGraph.exists_outputs_of_forward hwf rfl hr
  -- Whatever holds a value was assigned, apart from parameters.
  have hassigned : ∀ x v, (x ∉ assigned events → τ x = σ x) → τ x = some v →
      x ∉ f.paramNames ∨ x ∈ assigned events → x ∈ assigned events := by
    intro x v hkept hv hx
    rcases hx with hx | hx
    · by_contra hnot
      apply hx
      apply hσ
      rw [← hkept hnot, hv]
      exact Option.some_ne_none v
    · exact hx
  cases harr with
  | @start first hfirst =>
    obtain ⟨v, hv⟩ := List.mem_iff_getElem?.1 (hcharts.mem first (List.mem_of_head? hfirst))
    refine ⟨_, hinputs v first hv, fun x c v hc hval hx => ?_⟩
    cases hassigned x v (fun _ => rfl) hval hx
  | step hrun hstep henter =>
    obtain ⟨b, hb, rfl⟩ := hstep.exists_mem henter
    obtain ⟨w, hw⟩ := List.mem_iff_getElem?.1 (hcharts.mem b hb)
    have hknown := FlowGraph.Known.runsFrom hwf hcharts hsettled hI hrun
    have harriving := hknown.arriving hwf hcharts hsettled hstep henter
    refine ⟨_, hinputs w b hw, fun x c v hc hval hx => ?_⟩
    have hmem := hassigned x v hrun.store_eq hval hx
    obtain ⟨fact, hfact, hallows⟩ := harriving w b hw rfl x hmem
    obtain rfl := Option.some.inj (hfact.symm.trans hc)
    exact hallows v hval

/-- A parameter is overwritten on one of two ways. -/
def overwriting : Function where
  name := "f"
  params := [⟨"c", .named "bool"⟩, ⟨"x", .named "int"⟩]
  instrs := [.branch "c" "left" "join", .atLabel "left", .constant "x" (.named "int") (.int 1),
    .jump "join", .atLabel "join", .effect "print" ["x"], .ret []]

def overwritingBlocks : List Block :=
  [⟨"b0", [.branch "c" "left" "join"]⟩,
    ⟨"left", [.atLabel "left", .constant "x" (.named "int") (.int 1), .jump "join"]⟩,
    ⟨"join", [.atLabel "join", .effect "print" ["x"], .ret []]⟩]

def overwritingStore (c x : Int) : Store Int :=
  Function.update (Function.update (fun _ => none) "c" (some c)) "x" (some x)

def integerOf : Literal → Int
  | .int n => n.toInt
  | _ => 0

theorem integers_loads : integers.Loads integerOf := by
  intro i args effects c r hop hvalue hr
  simp only [integers, hvalue] at hr
  cases c with
  | int n => exact (Option.some.inj hr).symm
  | _ => cases hr

theorem overwriting_split : Block.split overwriting.instrs = .ok overwritingBlocks := by
  decide +kernel

theorem overwriting_terminated : Block.addTerminators overwritingBlocks = overwritingBlocks := by
  decide +kernel

theorem overwriting_labels : ∀ i ∈ overwriting.instrs, i.isLabel = true →
    i.isTerminator = false := by
  decide

theorem overwriting_ends : ∀ b ∈ overwritingBlocks, ∀ i ∈ b.instrs.dropLast,
    i.isTerminator = false := by
  decide

theorem overwritingStore_params (c v : Int) :
    ∀ x, overwritingStore c v x ≠ none → x ∈ overwriting.paramNames := by
  intro x hx
  by_cases hc : x = "c"
  · subst hc
    decide
  · by_cases hxx : x = "x"
    · subst hxx
      decide
    · simp [overwritingStore, hc, hxx] at hx

theorem overwriting_constant : ∃ g results facts,
    FlowGraph.ofBlocks (Block.addTerminators overwritingBlocks) FlowGraph.defaultEntryPrefix =
      .ok g ∧
    g.solve constantPropagation = .ok results ∧ results.inputs.get? "join" = some facts ∧
    facts.get? "x" = some (.const (.int 1)) := by
  have hresult : ((FlowGraph.ofBlocks (Block.addTerminators overwritingBlocks)
      FlowGraph.defaultEntryPrefix).toOption.bind fun g =>
        (g.solve constantPropagation).toOption.bind fun results =>
          (results.inputs.get? "join").bind fun facts => facts.get? "x") =
      some (.const (.int 1)) := by
    decide +kernel
  obtain ⟨g, hg, hresult⟩ := Option.bind_eq_some_iff.1 hresult
  obtain ⟨results, hr, hresult⟩ := Option.bind_eq_some_iff.1 hresult
  obtain ⟨facts, hfacts, hx⟩ := Option.bind_eq_some_iff.1 hresult
  exact ⟨g, results, facts, toOption_eq_some.1 hg, toOption_eq_some.1 hr, hfacts, hx⟩

theorem overwriting_enters (b : Block) (hb : b ∈ overwritingBlocks) (source : Option String)
    (σ : Store Int) (effects : List (Effect Int)) :
    Enters overwritingBlocks source b.name σ effects [⟨b.name, .enter⟩]
      ⟨.inside b.name b.body, σ, effects⟩ := by
  apply Enters.of_headPhis_eq_nil hb
  revert b
  decide

theorem overwriting_arrives : ∃ events τ,
    ComesTo overwritingBlocks integers (overwritingStore 1 5) events "join" τ ∧
      "x" ∈ assigned events ∧ τ "x" = some 1 := by
  have hstart := overwriting_enters overwritingBlocks[0] (List.getElem_mem _) none
    (overwritingStore 1 5) []
  have hbranch : Step overwritingBlocks integers
      ⟨.inside "b0" [.branch "c" "left" "join"], overwritingStore 1 5, []⟩
      [⟨"b0", .branch (some "br") [1] true⟩, ⟨"left", .enter⟩]
      ⟨.inside "left" overwritingBlocks[1].body, overwritingStore 1 5, []⟩ :=
    .branch rfl rfl rfl rfl (overwriting_enters overwritingBlocks[1] (List.getElem_mem _) _ _ _)
  have hconst : Step overwritingBlocks integers
      ⟨.inside "left" [.constant "x" (.named "int") (.int 1), .jump "join"],
        overwritingStore 1 5, []⟩
      [⟨"left", .operation (.constant "x" (.named "int") (.int 1)) [] 1⟩]
      ⟨.inside "left" [.jump "join"], (overwritingStore 1 5).assign (some "x") (some 1), [_]⟩ :=
    .operation rfl rfl rfl rfl
  have hjump : ∀ (σ : Store Int) effects, Step overwritingBlocks integers
      ⟨.inside "left" [.jump "join"], σ, effects⟩
      [⟨"left", .branch (some "jmp") [] true⟩, ⟨"join", .enter⟩]
      ⟨.inside "join" overwritingBlocks[2].body, σ, effects⟩ := fun σ effects =>
    .branch rfl rfl rfl rfl (overwriting_enters overwritingBlocks[2] (List.getElem_mem _) _ _ _)
  have hrun := Run.step hbranch (.single hconst)
  refine ⟨_, _, .step ⟨overwritingBlocks[0], _, _, _, rfl, hstart, hrun, rfl⟩ (hjump _ _) ?_,
    ?_, rfl⟩
  · simp
  · exact List.mem_filterMap.2 ⟨⟨"left", .operation (.constant "x" (.named "int") (.int 1)) [] 1⟩,
      by simp, rfl⟩

theorem overwriting_constants_hold : ∃ g results facts events τ,
    Block.split overwriting.instrs = .ok overwritingBlocks ∧
    FlowGraph.ofBlocks (Block.addTerminators overwritingBlocks) FlowGraph.defaultEntryPrefix =
      .ok g ∧
    g.solve constantPropagation = .ok results ∧
    (∀ i ∈ overwriting.instrs, i.isLabel = true → i.isTerminator = false) ∧
    (∀ b ∈ overwritingBlocks, ∀ i ∈ b.instrs.dropLast, i.isTerminator = false) ∧
    integers.Loads integerOf ∧
    (∀ x, overwritingStore 1 5 x ≠ none → x ∈ overwriting.paramNames) ∧
    ComesTo (Block.addTerminators overwritingBlocks) integers (overwritingStore 1 5) events "join"
      τ ∧
    results.inputs.get? "join" = some facts ∧ facts.get? "x" = some (.const (.int 1)) ∧
    "x" ∈ assigned events ∧ τ "x" = some 1 ∧
    ∃ c', (c' = Literal.int 1 ∨ (c' == Literal.int 1) = true) ∧ (1 : Int) = integerOf c' := by
  obtain ⟨g, results, facts, hg, hr, hfacts, hx⟩ := overwriting_constant
  obtain ⟨events, τ, harr, hassigned, hτ⟩ := overwriting_arrives
  rw [← overwriting_terminated] at harr
  obtain ⟨facts', hfacts', hall⟩ := constants_hold overwriting overwritingBlocks _ g results
    overwriting_split hg hr overwriting_labels overwriting_ends integers integerOf integers_loads
    (overwritingStore 1 5) (overwritingStore_params 1 5) events "join" τ harr
  obtain rfl := Option.some.inj (hfacts.symm.trans hfacts')
  exact ⟨g, results, facts, events, τ, overwriting_split, hg, hr, overwriting_labels,
    overwriting_ends, integers_loads, overwritingStore_params 1 5, harr, hfacts, hx, hassigned, hτ,
    hall "x" (.int 1) 1 hx hτ (.inr hassigned)⟩

/-- On the other way the parameter keeps the value it was given. -/
theorem overwriting_not_constant : ∃ g results facts,
    Block.split overwriting.instrs = .ok overwritingBlocks ∧
    FlowGraph.ofBlocks (Block.addTerminators overwritingBlocks) FlowGraph.defaultEntryPrefix =
      .ok g ∧
    g.solve constantPropagation = .ok results ∧
    (∀ b ∈ overwritingBlocks, ∀ i ∈ b.instrs.dropLast, i.isTerminator = false) ∧
    integers.Loads integerOf ∧
    (∀ x, overwritingStore 0 5 x ≠ none → x ∈ overwriting.paramNames) ∧
    ComesTo (Block.addTerminators overwritingBlocks) integers (overwritingStore 0 5)
      [⟨"b0", .enter⟩] "join" (overwritingStore 0 5) ∧
    results.inputs.get? "join" = some facts ∧ facts.get? "x" = some (.const (.int 1)) ∧
    overwritingStore 0 5 "x" = some 5 ∧ (5 : Int) ≠ integerOf (.int 1) := by
  obtain ⟨g, results, facts, hg, hr, hfacts, hx⟩ := overwriting_constant
  have hstart := overwriting_enters overwritingBlocks[0] (List.getElem_mem _) none
    (overwritingStore 0 5) []
  have hbranch : Step overwritingBlocks integers
      ⟨.inside "b0" [.branch "c" "left" "join"], overwritingStore 0 5, []⟩
      [⟨"b0", .branch (some "br") [0] false⟩, ⟨"join", .enter⟩]
      ⟨.inside "join" overwritingBlocks[2].body, overwritingStore 0 5, []⟩ :=
    .branch rfl rfl rfl rfl (overwriting_enters overwritingBlocks[2] (List.getElem_mem _) _ _ _)
  have harr : ComesTo overwritingBlocks integers (overwritingStore 0 5) [⟨"b0", .enter⟩] "join"
      (overwritingStore 0 5) :=
    .step ⟨overwritingBlocks[0], _, _, _, rfl, hstart, .refl _, rfl⟩ hbranch (by simp)
  exact ⟨g, results, facts, overwriting_split, hg, hr, overwriting_ends, integers_loads,
    overwritingStore_params 0 5, overwriting_terminated.symm ▸ harr, hfacts, hx, rfl, by decide⟩

end Function

end FlowOpt
