import FlowOpt.Proofs.Dataflow.ConstantOrder
import FlowOpt.Proofs.Except

/-!
# Constants in closed form

What the analysis of constants ends with can be told without its steps. Every block says something
of a variable by its last assignment to it, and at the start or end of a block stands the join of
what the blocks say from which edges lead there. An output never says more than that: what it says
is backed by such blocks at every step. And at the end it says no less, since along every edge it
says what was said before.
-/

namespace FlowOpt

namespace Block

/-- What the last assignment of the block to the variable makes of it. -/
def lastFact? (b : Block) (x : String) : Option Fact :=
  (b.instrs.filter (·.dest == some x)).getLast?.map Instruction.fact

theorem get?_constantsOf (b : Block) (x : String) :
    (constantsOf b.instrs).get? x = b.lastFact? x := by
  have hfold : ∀ instrs : List Instruction, (constantsOf instrs).get? x =
      (instrs.filter (·.dest == some x)).getLast?.map Instruction.fact := by
    intro instrs
    induction instrs using List.reverseRecOn with
    | nil => rfl
    | append_singleton before i ih =>
      rw [get?_constantsOf_concat, ih, List.filter_append]
      by_cases h : i.dest = some x
      · simp [h]
      · simp [h]
  exact hfold b.instrs

theorem exists_of_lastFact? {b : Block} {x : String} {f : Fact} (h : b.lastFact? x = some f) :
    ∃ i ∈ b.instrs, i.dest = some x ∧ i.fact = f := by
  obtain ⟨i, hi, rfl⟩ := Option.map_eq_some_iff.1 h
  obtain ⟨hi, hd⟩ := List.mem_filter.1 (List.mem_of_getLast? hi)
  exact ⟨i, hi, beq_iff_eq.1 hd, rfl⟩

end Block

theorem Instruction.fact_cases (i : Instruction) : i.fact = .notConst ∨ ∃ c, i.fact = .const c := by
  unfold fact
  split
  · next c _ =>
    split
    · exact .inr ⟨c, rfl⟩
    · exact .inl rfl
  · exact .inl rfl

/-- The join of some facts: nothing if there are none, a constant among them if all equal it, and
otherwise that there is no constant. -/
inductive IsJoin (facts : Fact → Prop) : Option Fact → Prop
  | absent (h : ∀ f, ¬ facts f) : IsJoin facts none
  | constant {c : Literal} (hc : facts (.const c)) (h : ∀ f, facts f → (f == .const c) = true) :
      IsJoin facts (some (.const c))
  | conflicting {f : Fact} (hf : facts f)
      (h : ¬ ∃ c : Literal, ∀ f, facts f → (f == .const c) = true) :
      IsJoin facts (some .notConst)

section Backed

variable {facts facts' : Fact → Prop} {f : Fact} {o o' : Option Fact}

/-- A constant is one of the facts, and where there is none, that is one of them or two of them are
constants that differ. -/
def Backed (facts : Fact → Prop) : Fact → Prop
  | .const c => facts (.const c)
  | .notConst => facts .notConst ∨
      ∃ c c', facts (.const c) ∧ facts (.const c') ∧ ((Fact.const c) == .const c') = false
  | _ => False

theorem Backed.mono (h : Backed facts f) (hle : ∀ f, facts f → facts' f) : Backed facts' f := by
  cases f with
  | const c => exact hle _ h
  | notConst =>
    rcases h with h | ⟨c, c', hc, hc', hne⟩
    · exact .inl (hle _ h)
    · exact .inr ⟨c, c', hle _ hc, hle _ hc', hne⟩
  | _ => cases h

theorem Backed.of_fact {i : Instruction} (h : facts i.fact) : Backed facts i.fact := by
  rcases i.fact_cases with hi | ⟨c, hi⟩
  · rw [hi] at h ⊢
    exact .inl h
  · rw [hi] at h ⊢
    exact h

/-- Where two backed facts differ, that there is no constant is backed. -/
theorem Backed.merged (h : ∀ f, o = some f → Backed facts f)
    (h' : ∀ f, o' = some f → Backed facts f) :
    ∀ f, Fact.merged o o' = some f → Backed facts f := by
  intro f hf
  cases o with
  | none => exact h' f hf
  | some old =>
    cases o' with
    | none => exact h f hf
    | some fact =>
      obtain rfl := Option.some.inj hf
      have hold := h old rfl
      have hfact := h' fact rfl
      split
      · exact hold
      · next hne =>
        cases old with
        | const c =>
          cases fact with
          | const c' => exact .inr ⟨c, c', hold, hfact, Bool.eq_false_iff.2 hne⟩
          | notConst => exact hfact
          | _ => cases hfact
        | notConst => exact hold
        | _ => cases hold

theorem Backed.exists (h : Backed facts f) : ∃ f, facts f := by
  cases f with
  | const c => exact ⟨_, h⟩
  | notConst =>
    rcases h with h | ⟨c, -, hc, -⟩
    · exact ⟨_, h⟩
    · exact ⟨_, hc⟩
  | _ => cases h

/-- What is backed by the facts and says no less than any of them is their join. -/
theorem IsJoin.of_backed (hall : ∀ f, facts f → Fact.Below (some f) o)
    (hbacked : ∀ f, o = some f → Backed facts f) : IsJoin facts o := by
  cases o with
  | none => exact .absent hall
  | some f =>
    have h := hbacked f rfl
    cases f with
    | const c =>
      refine .constant h fun f hf => ?_
      rcases hall f hf with hne | heq
      · cases hne
      · exact heq
    | notConst =>
      obtain ⟨f, hf⟩ := h.exists
      refine .conflicting hf fun ⟨c, hc⟩ => ?_
      rcases h with h | ⟨c₁, c₂, h₁, h₂, hne⟩
      · exact Fact.noConfusion (Fact.notConst_beq_iff.1 (hc _ h))
      · have heq := PartialEquivBEq.trans (hc _ h₁) (PartialEquivBEq.symm (hc _ h₂))
        exact Bool.false_ne_true (hne.symm.trans heq)
    | _ => cases h

end Backed

namespace FlowGraph

variable {g : FlowGraph} {b : Block} {node : FlowNode} {outputs : Array FactMap} {v : Nat}
  {x : String} {f : Fact}

def NaNFree (g : FlowGraph) : Prop := ∀ b ∈ g.blocks, ∀ i ∈ b.instrs, i.NaNFree

instance (g : FlowGraph) : Decidable g.NaNFree :=
  inferInstanceAs (Decidable (∀ b ∈ g.blocks, ∀ i ∈ b.instrs, i.NaNFree))

theorem NaNFree.ofConstants (hf : g.NaNFree) (hb : b ∈ g.blocks) :
    (constantsOf b.instrs).OfConstants g.varNames := by
  intro x f hfact
  rw [b.get?_constantsOf] at hfact
  obtain ⟨i, hi, hd, rfl⟩ := b.exists_of_lastFact? hfact
  refine ⟨?_, mem_varNames_of_dest hb hi hd⟩
  unfold Instruction.fact
  split
  · next c hv =>
    split
    · exact Literal.beq_self fun y hy => hf b hb i hi y (hy ▸ hv)
    · trivial
  · trivial

theorem NaNFree.monotone (hf : g.NaNFree) :
    (constantOrder g.varNames).Monotone constantPropagation g.graph where
  merge := FactMap.OfConstants.merge
  merge_le {maps maps'} _ h' hle := by
    have hself : (constantPropagation.merge maps').Below (constantPropagation.merge maps') :=
      FactOrder.refl (o := constantOrder g.varNames) (FactMap.OfConstants.merge h')
    refine FactMap.merge_below_iff.2 fun m hm => ?_
    obtain ⟨k, hk, rfl⟩ := List.mem_iff_getElem.1 hm
    obtain ⟨hlen, hbelow⟩ := List.forall₂_iff_get.1 hle
    have hmn : (maps.get ⟨k, hk⟩).Below (maps'.get ⟨k, hlen ▸ hk⟩) := hbelow k hk (hlen ▸ hk)
    exact hmn.trans (FactMap.merge_below_iff.1 hself _ (List.getElem_mem _))
  transfer {v node m} hn hm := by
    rw [transfer_constants]
    exact (hf.ofConstants (List.mem_map.2 ⟨node, mem_nodes hn, rfl⟩)).join hm
  transfer_le {v node m n} hn _ hm hle := by
    have hown := hf.ofConstants (List.mem_map.2 ⟨node, mem_nodes hn, rfl⟩)
    have hself : (factsBehind node.block.instrs n).Below (factsBehind node.block.instrs n) :=
      FactOrder.refl (o := constantOrder g.varNames) (hown.join hm)
    obtain ⟨hkeeps, hflows⟩ := FactMap.join_below_iff.1 hself
    rw [transfer_constants, transfer_constants]
    exact FactMap.join_below_iff.2 ⟨hkeeps, FactMap.Below.trans hle hflows⟩

theorem NaNFree.exists_constants (hf : g.NaNFree) (hg : g.Built) :
    ∃ results, g.solve constantPropagation = .ok results := by
  have hroom : constantRoom g.varNames {} ≤ 2 * g.varNames.length := by
    simp only [constantRoom, NameMap.get?_default, Fact.room, Finset.sum_const, smul_eq_mul]
    rw [Nat.mul_comm]
    exact Nat.mul_le_mul_left 2 (List.toFinset_card_le _)
  have hbound : g.size * constantRoom g.varNames {} ≤ 2 * (g.size * g.varNames.length) := by
    rw [← Nat.mul_assoc, Nat.mul_comm 2, Nat.mul_assoc]
    exact Nat.mul_le_mul_left _ hroom
  obtain ⟨st, hrun⟩ := Worklist.exists_run_of_room hf.monotone hg.graph
    (constantRoom g.varNames) (fun m n => constantRoom_lt) (rounds_le_stateBound hg.nonempty hbound)
  have hsome : Worklist.run constantPropagation g.graph g.stateBound
      (Worklist.start g.size) = some st := hrun
  unfold solve solveWithin?
  simp only [constantPropagation] at hsome ⊢
  rw [hsome]
  exact ⟨_, rfl⟩

/-- What blocks of some kind say of a variable by their last assignments to it. -/
def LastFacts (g : FlowGraph) (kind : Nat → Prop) (x : String) (f : Fact) : Prop :=
  ∃ d b, kind d ∧ g.blocks[d]? = some b ∧ b.lastFact? x = some f

theorem LastFacts.mono {kind kind' : Nat → Prop} (h : g.LastFacts kind x f)
    (hle : ∀ d, kind d → kind' d) : g.LastFacts kind' x f := by
  obtain ⟨d, b, hd, hb, hf⟩ := h
  exact ⟨d, b, hle d hd, hb, hf⟩

theorem get?_transfer_constants (node : FlowNode) (input : FactMap) (x : String) :
    NameMap.get? (constantPropagation.transfer node input) x =
      Fact.merged (node.block.lastFact? x) (input.get? x) := by
  rw [transfer_constants, factsBehind, FactMap.get?_join, Block.get?_constantsOf]

theorem backed_merge {facts : Fact → Prop} {maps : List FactMap}
    (h : ∀ m ∈ maps, ∀ f, NameMap.get? m x = some f → Backed facts f) :
    ∀ f, NameMap.get? (constantPropagation.merge maps) x = some f → Backed facts f := by
  refine List.foldlRecOn (motive := fun m => ∀ f, NameMap.get? m x = some f → Backed facts f) maps
    FactMap.join (by simp) fun m hm n hn f hf => ?_
  rw [FactMap.get?_join] at hf
  exact Backed.merged hm (h n hn) f hf

theorem backed_incoming {facts : Fact → Prop} (h : ∀ u ∈ g.graph.preds v, ∀ f,
      NameMap.get? (outputs[u]?.getD {}) x = some f → Backed facts f) :
    ∀ f, NameMap.get? (Worklist.incoming constantPropagation g.graph outputs v) x = some f →
      Backed facts f := by
  unfold Worklist.incoming
  split
  · exact backed_merge (by simp)
  · apply backed_merge
    intro m hm
    obtain ⟨u, hu, rfl⟩ := List.mem_map.1 hm
    exact h u hu

section Run

variable {st : Worklist.State} {fuel : Nat}

/-- At every step of a run the outputs are backed by blocks from which edges lead there. -/
theorem Built.backed_outputs (hg : g.Built)
    (hr : Worklist.run constantPropagation g.graph fuel (Worklist.start g.size) = some st)
    (v : Nat) (x : String) : ∀ f, NameMap.get? (st.outputs[v]?.getD {}) x = some f →
      Backed (g.LastFacts (g.graph.Reachable · v) x) f := by
  refine Worklist.outputs_induction (P := fun v m => ∀ x f, NameMap.get? m x = some f →
    Backed (g.LastFacts (g.graph.Reachable · v) x) f) (by simp) ?_ (by simp) hr v x
  intro outputs u node hn ih x f hf
  have hlt : u < g.size := (Array.getElem?_eq_some_iff.1 hn).1
  rw [get?_transfer_constants] at hf
  refine Backed.merged (fun f hown => ?_) (backed_incoming fun w hw f hout => ?_) f hf
  · obtain ⟨i, -, -, rfl⟩ := Block.exists_of_lastFact? hown
    refine Backed.of_fact ⟨u, node.block, .of_lt hlt, ?_, hown⟩
    rw [← map_block_node?, show g.node? u = some node from hn, Option.map_some]
  · refine (ih w x f hout).mono fun f h => h.mono fun d hd => ?_
    exact hd.step ((hg.graph.symmetric w u).2 hw) hlt

variable (hf : g.NaNFree) (hdom : ∀ v : Nat, (outputs[v]?.getD {}).OfConstants g.varNames)
include hf hdom

omit hf in
theorem below_incoming {u : Nat} (hu : u ∈ g.graph.preds v) : FactMap.Below (outputs[u]?.getD {})
    (Worklist.incoming constantPropagation g.graph outputs v) := by
  have hne : g.graph.preds v ≠ [] := List.ne_nil_of_mem hu
  have hmaps : ∀ m ∈ (g.graph.preds v).map fun p => outputs[p]?.getD {},
      FactMap.OfConstants g.varNames m := by
    intro m hm
    obtain ⟨p, -, rfl⟩ := List.mem_map.1 hm
    exact hdom p
  have hmerge : Worklist.incoming constantPropagation g.graph outputs v =
      constantPropagation.merge ((g.graph.preds v).map fun p => outputs[p]?.getD {}) := by
    unfold Worklist.incoming
    split
    · next hnil => exact absurd hnil hne
    · rfl
  rw [hmerge]
  refine FactMap.merge_below_iff.1 ?_ _
    (List.mem_map_of_mem (f := fun p => outputs[p]?.getD {}) hu)
  exact FactOrder.refl (o := constantOrder g.varNames) (FactMap.OfConstants.merge hmaps)

theorem below_settled (hs : Worklist.Settled constantPropagation g.graph outputs v)
    (hn : g.node? v = some node) :
    (constantsOf node.block.instrs).Below (outputs[v]?.getD {}) ∧
      (Worklist.incoming constantPropagation g.graph outputs v).Below (outputs[v]?.getD {}) := by
  have hout : (constantPropagation.transfer node
      (Worklist.incoming constantPropagation g.graph outputs v)).OfConstants g.varNames :=
    hf.monotone.transfer hn (Worklist.dom_incoming hf.monotone hdom v)
  apply FactMap.join_below_iff.1
  rw [← factsBehind, ← transfer_constants]
  rcases hs node hn with heq | heq
  · rw [heq, Option.getD_some]
    exact FactOrder.refl (o := constantOrder g.varNames) hout
  · cases ho : outputs[v]? with
    | none => simp [ho] at heq
    | some m =>
      rw [ho] at heq
      exact .of_beq (FactMap.beq_symm heq)

/-- At the end the outputs say no less than any block from which edges lead there. -/
theorem Built.below_outputs (hg : g.Built)
    (hs : ∀ v, Worklist.Settled constantPropagation g.graph outputs v) {d : Nat}
    (hb : g.blocks[d]? = some b) (hr : g.graph.Reachable d v) (hx : b.lastFact? x = some f) :
    Fact.Below (some f) (NameMap.get? (outputs[v]?.getD {}) x) := by
  apply hr.induction
  · obtain ⟨n, hn, rfl⟩ := Option.map_eq_some_iff.1 ((map_block_node? g d).trans hb)
    have hown := (below_settled hf hdom (hs d) hn).1 x
    rwa [Block.get?_constantsOf, hx] at hown
  · intro u w _ hu hw hlt
    have hn : g.node? w = some g.graph.nodes[w] := Array.getElem?_eq_getElem hlt
    have hin := below_incoming hdom ((hg.graph.symmetric u w).1 hw) x
    exact (hu.trans hin).trans ((below_settled hf hdom (hs w) hn).2 x)

end Run

/-- Without NaN the analysis of constants ends. Behind a block it has the join of what the blocks say
from which edges lead there, by their last assignments, itself included; before a block the join of
what those say from which one edge or more lead there. -/
theorem constants_closed_form (hg : g.Built) (hf : g.NaNFree) :
    ∃ results, g.solve constantPropagation = .ok results ∧
      ∀ v b, g.blocks[v]? = some b →
        (∃ m, results.outputs.get? b.name = some m ∧
          ∀ x, IsJoin (g.LastFacts (g.graph.Reachable · v) x) (NameMap.get? m x)) ∧
        ∃ m, results.inputs.get? b.name = some m ∧
          ∀ x, IsJoin (g.LastFacts (g.graph.LeadsTo · v) x) (NameMap.get? m x) := by
  obtain ⟨results, hok⟩ := hf.exists_constants hg
  obtain ⟨st, hrun, hsettled, hresults⟩ := exists_run_of_forward hg.graph.symmetric
    hg.names_nodup rfl (solveWithin?_of_solve hok)
  have hdom := (Worklist.Ascending.run hf.monotone hrun).dom
  refine ⟨results, hok, fun v b hb => ⟨⟨_, (hresults v b hb).2, fun x => ?_⟩,
    ⟨_, (hresults v b hb).1, fun x => ?_⟩⟩⟩
  · refine .of_backed ?_ (hg.backed_outputs hrun v x)
    rintro f ⟨d, c, hd, hc, hx⟩
    exact hg.below_outputs hf hdom hsettled hc hd hx
  · refine .of_backed ?_ (backed_incoming fun u hu f hout => ?_)
    · rintro f ⟨d, c, ⟨u, hu, hv⟩, hc, hx⟩
      have hbefore := hg.below_outputs hf hdom hsettled hc hu hx
      exact hbefore.trans (below_incoming hdom ((hg.graph.symmetric u v).1 hv) x)
    · refine (hg.backed_outputs hrun u x f hout).mono fun f h => h.mono fun d hd => ?_
      exact ⟨u, hd, (hg.graph.symmetric u v).2 hu⟩

/-- Two blocks that agree on `x`, as the two zeros are equal, and not on `y`, before a loop that
computes `z`. -/
def agreeing : List Block :=
  [⟨"top", [.branch "c" "left" "right"]⟩,
    ⟨"left", [.atLabel "left", .constant "x" (.named "float") (.float (.zero false)),
      .constant "y" (.named "int") (.int 1), .jump "head"]⟩,
    ⟨"right", [.atLabel "right", .constant "x" (.named "float") (.float (.zero true)),
      .constant "y" (.named "int") (.int 2), .jump "head"]⟩,
    ⟨"head", [.atLabel "head", .compute "add" "z" (.named "int") ["y", "y"],
      .effect "print" ["x", "z"], .branch "c" "head" "done"]⟩,
    ⟨"done", [.atLabel "done", .ret []]⟩]

theorem agreeing_closed_form : ∃ g results, ofBlocks agreeing "entry" = .ok g ∧ g.NaNFree ∧
    g.solve constantPropagation = .ok results ∧
    (∀ v b, g.blocks[v]? = some b →
      (∃ m, results.outputs.get? b.name = some m ∧
        ∀ x, IsJoin (g.LastFacts (g.graph.Reachable · v) x) (NameMap.get? m x)) ∧
      ∃ m, results.inputs.get? b.name = some m ∧
        ∀ x, IsJoin (g.LastFacts (g.graph.LeadsTo · v) x) (NameMap.get? m x)) ∧
    (results.outputs.get? "left").map (·.entries) =
      some [("x", .const (.float (.zero false))), ("y", .const (.int 1))] ∧
    (results.inputs.get? "head").map (·.entries) =
      some [("x", .const (.float (.zero false))), ("y", .notConst), ("z", .notConst)] := by
  have hends : (ofBlocks agreeing "entry").toOption.any (fun g => decide g.NaNFree &&
      (g.solve constantPropagation).toOption.any fun results => decide (
        (results.outputs.get? "left").map (·.entries) =
          some [("x", .const (.float (.zero false))), ("y", .const (.int 1))] ∧
        (results.inputs.get? "head").map (·.entries) =
          some [("x", .const (.float (.zero false))), ("y", .notConst), ("z", .notConst)])) =
      true := by
    decide +kernel
  obtain ⟨g, hg, hends⟩ := exists_of_toOption_any hends
  obtain ⟨hf, hends⟩ := Bool.and_eq_true_iff.1 hends
  obtain ⟨results, hok, hfacts⟩ := exists_of_toOption_any hends
  have hf : g.NaNFree := of_decide_eq_true hf
  obtain ⟨results', hok', hjoins⟩ := constants_closed_form (.ofBlocks hg) hf
  obtain rfl : results' = results := Except.ok.inj (hok'.symm.trans hok)
  exact ⟨g, results', hg, hf, hok, hjoins, of_decide_eq_true hfacts⟩

end FlowGraph

end FlowOpt
