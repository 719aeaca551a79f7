import FlowOpt.Dataflow.Kind
import FlowOpt.Proofs.Names
import FlowOpt.Proofs.Program.Equality

/-!
# What facts allow

A constant allows the value of its literal, or of one that compares equal to it; any other fact
allows every value. Joining two mappings never makes a fact stricter: what one of them allows, the
join allows. In front of an instruction of a block stands the join of what the instructions before
it assign with what flows into the block.
-/

namespace FlowOpt

namespace NameMap

variable {β : Type} [BEq β]

theorem lookup_of_beq {l l' : List (String × β)} (h : (l == l') = true) {x : String} {a' : β}
    (ha : l'.lookup x = some a') : ∃ a, l.lookup x = some a ∧ (a == a') = true := by
  induction l generalizing l' with
  | nil =>
    cases l' with
    | nil => cases ha
    | cons e' l' => cases h
  | cons e l ih =>
    cases l' with
    | nil => cases ha
    | cons e' l' =>
      obtain ⟨hname, hvalue, hl⟩ := cons_beq_cons_iff.1 h
      rw [lookup_cons_eq_ite e'.1 x e'.2] at ha
      rw [lookup_cons_eq_ite e.1 x e.2, hname]
      split at ha
      · next hx =>
        obtain rfl := Option.some.inj ha
        exact ⟨e.2, if_pos hx, hvalue⟩
      · next hx =>
        rw [if_neg hx]
        exact ih hl ha

end NameMap

variable {V : Type} {lit : Literal → V} {x : String} {v : V} {value : Option V}

namespace Fact

variable {f f' : Fact}

/-- Whether a variable that the fact is about may have the value. Literals that compare equal, as
the two zeros do, are not told apart. -/
def Allows (lit : Literal → V) : Fact → V → Prop
  | .const c, v => ∃ c', (c' = c ∨ (c' == c) = true) ∧ v = lit c'
  | _, _ => True

theorem Allows.of_beq (h : f'.Allows lit v) (heq : (f == f') = true) : f.Allows lit v := by
  cases f with
  | const c =>
    cases f' with
    | const c' =>
      have hc : (c' == c) = true := PartialEquivBEq.symm (show (c == c') = true from heq)
      obtain ⟨d, hd, rfl⟩ := h
      refine ⟨d, .inr ?_, rfl⟩
      rcases hd with rfl | hd
      · exact hc
      · exact PartialEquivBEq.trans hd hc
    | _ => cases heq
  | _ => trivial

def merged : Option Fact → Option Fact → Option Fact
  | some old, some fact => some (if old == fact then old else .notConst)
  | some old, none => some old
  | none, fact => fact

end Fact

namespace FactMap

variable {m n : FactMap} {maps : List FactMap}

def joinOne (m : FactMap) (x : String) (fact : Fact) : FactMap :=
  match NameMap.get? m x with
  | none => m.insert x fact
  | some old => if old == fact then m else m.insert x .notConst

theorem join_eq_foldl (m n : FactMap) :
    m.join n = n.entries.foldl (fun m e => m.joinOne e.1 e.2) m := rfl

theorem get?_joinOne (m : FactMap) (key x : String) (fact : Fact) :
    (m.joinOne key fact).get? x =
      if x = key then Fact.merged (m.get? x) (some fact) else m.get? x := by
  unfold joinOne
  by_cases hx : x = key
  · subst hx
    rw [if_pos rfl]
    cases hm : m.get? x with
    | none => simp [Fact.merged]
    | some old =>
      by_cases heq : (old == fact) = true
      · simp [hm, heq, Fact.merged]
      · simp [heq, Fact.merged]
  · rw [if_neg hx]
    split
    · rw [NameMap.get?_insert, if_neg hx]
    · split
      · rfl
      · rw [NameMap.get?_insert, if_neg hx]

theorem get?_join (m n : FactMap) (x : String) :
    (m.join n).get? x = Fact.merged (m.get? x) (n.get? x) := by
  have hfold : ∀ (entries : List (String × Fact)) (m : FactMap), (entries.map (·.1)).Nodup →
      (entries.foldl (fun m e => m.joinOne e.1 e.2) m).get? x =
        Fact.merged (m.get? x) (entries.lookup x) := by
    intro entries
    induction entries with
    | nil =>
      intro m _
      rw [List.foldl_nil, List.lookup_nil]
      cases m.get? x <;> rfl
    | cons e entries ih =>
      intro m hn
      rw [List.map_cons, List.nodup_cons] at hn
      rw [List.foldl_cons, ih _ hn.2, get?_joinOne, NameMap.lookup_cons_eq_ite e.1 x e.2]
      by_cases hx : x = e.1
      · have hnone : entries.lookup x = none := by
          rw [List.lookup_eq_none_iff]
          intro e' he'
          exact bne_iff_ne.2 fun h => hn.1 (List.mem_map.2 ⟨e', he', h.symm.trans hx⟩)
        rw [if_pos hx, if_pos hx, hnone]
        cases m.get? x <;> rfl
      · rw [if_neg hx, if_neg hx]
  rw [join_eq_foldl]
  exact hfold n.entries m n.nodup_keys

def Allows (lit : Literal → V) (m : FactMap) (x : String) (value : Option V) : Prop :=
  ∃ f, m.get? x = some f ∧ ∀ v, value = some v → f.Allows lit v

theorem Allows.congr (h : m.Allows lit x value) (hget : n.get? x = m.get? x) :
    n.Allows lit x value := by
  obtain ⟨f, hf, hv⟩ := h
  exact ⟨f, hget.trans hf, hv⟩

theorem Allows.of_beq (h : n.Allows lit x value) (heq : (m == n) = true) :
    m.Allows lit x value := by
  obtain ⟨f', hf', hv⟩ := h
  obtain ⟨f, hf, hbeq⟩ := NameMap.lookup_of_beq heq hf'
  exact ⟨f, hf, fun v hvalue => (hv v hvalue).of_beq hbeq⟩

theorem Allows.join_left (h : m.Allows lit x value) (n : FactMap) :
    (m.join n).Allows lit x value := by
  obtain ⟨f, hf, hv⟩ := h
  rw [Allows, get?_join, hf]
  cases n.get? x with
  | none => exact ⟨f, rfl, hv⟩
  | some f' =>
    refine ⟨_, rfl, fun v hvalue => ?_⟩
    split
    · exact hv v hvalue
    · trivial

theorem Allows.join_right (h : n.Allows lit x value) (m : FactMap) :
    (m.join n).Allows lit x value := by
  obtain ⟨f, hf, hv⟩ := h
  rw [Allows, get?_join, hf]
  cases m.get? x with
  | none => exact ⟨f, rfl, hv⟩
  | some old =>
    refine ⟨_, rfl, fun v hvalue => ?_⟩
    split
    · next heq => exact (hv v hvalue).of_beq heq
    · trivial

theorem Allows.merge (hm : m ∈ maps) (h : m.Allows lit x value) :
    (constantPropagation.merge maps).Allows lit x value := by
  have hfold : ∀ (maps : List FactMap) (into : FactMap),
      into.Allows lit x value ∨ (∃ m ∈ maps, m.Allows lit x value) →
        (maps.foldl FactMap.join into).Allows lit x value := by
    intro maps
    induction maps with
    | nil =>
      rintro into (h | ⟨_, hm, _⟩)
      · exact h
      · cases hm
    | cons n maps ih =>
      intro into h
      apply ih
      rcases h with h | ⟨m, hm, h⟩
      · exact .inl (h.join_left n)
      · rcases List.mem_cons.1 hm with rfl | hm
        · exact .inl (h.join_right into)
        · exact .inr ⟨m, hm, h⟩
  exact hfold maps {} (.inr ⟨m, hm, h⟩)

end FactMap

section Assigned

variable {before : List Instruction} {i : Instruction} {input : FactMap}

/-- What an assignment makes of its destination: a `const` with a literal that literal, and anything
else no constant. -/
def Instruction.fact (i : Instruction) : Fact :=
  match i.value with
  | some c => if i.op = some "const" then .const c else .notConst
  | none => .notConst

def constantsOf (instrs : List Instruction) : FactMap :=
  .ofList (instrs.filterMap fun i => i.dest.map (·, i.fact))

theorem Instruction.fact_eq (i : Instruction) :
    (i.constantValue.map Fact.const).getD .notConst = i.fact := by
  unfold constantValue fact
  split
  · cases i.value <;> rfl
  · cases i.value <;> rfl

theorem Instruction.fact_of_op (h : i.op ≠ some "const") : i.fact = .notConst := by
  unfold fact
  split
  · exact if_neg h
  · rfl

theorem Instruction.fact_of_isPhi (h : i.isPhi = true) : i.fact = .notConst := by
  apply fact_of_op
  rw [beq_iff_eq.1 h]
  decide

theorem get?_constantsOf_concat (before : List Instruction) (i : Instruction) (x : String) :
    (constantsOf (before ++ [i])).get? x =
      if i.dest = some x then some i.fact else (constantsOf before).get? x := by
  rw [constantsOf, constantsOf, NameMap.get?_ofList, NameMap.get?_ofList, List.filterMap_append,
    List.reverse_append, List.lookup_append]
  cases hi : i.dest with
  | none => simp [hi]
  | some y =>
    simp only [List.filterMap_cons, List.filterMap_nil, hi, Option.map_some, List.reverse_singleton,
      NameMap.lookup_cons_eq_ite, List.lookup_nil, Option.some.injEq]
    by_cases hx : x = y
    · simp [hx]
    · simp [hx, Ne.symm hx]

def factsBehind (before : List Instruction) (input : FactMap) : FactMap :=
  (constantsOf before).join input

theorem ownConstants_eq (node : FlowNode) : node.ownConstants = constantsOf node.block.instrs := by
  simp only [FlowNode.ownConstants, constantsOf, Instruction.fact_eq]

theorem transfer_constants (node : FlowNode) (input : FactMap) :
    constantPropagation.transfer node input = factsBehind node.block.instrs input := by
  rw [factsBehind, ← ownConstants_eq]
  rfl

/-- One instruction further, if its own fact allows what it assigns. -/
theorem FactMap.Allows.concat (h : i.dest ≠ some x → (factsBehind before input).Allows lit x value)
    (hi : i.dest = some x → ∀ v, value = some v → i.fact.Allows lit v) :
    (factsBehind (before ++ [i]) input).Allows lit x value := by
  by_cases hd : i.dest = some x
  · have hown : (constantsOf (before ++ [i])).Allows lit x value :=
      ⟨i.fact, (get?_constantsOf_concat before i x).trans (if_pos hd), hi hd⟩
    exact hown.join_left input
  · apply (h hd).congr
    rw [factsBehind, factsBehind, get?_join, get?_join, get?_constantsOf_concat, if_neg hd]

theorem FactMap.Allows.of_dest_eq_none (hb : ∀ i ∈ before, i.dest = none)
    (h : (factsBehind before input).Allows lit x value) : input.Allows lit x value := by
  have hnone : before.filterMap (fun i => i.dest.map (·, i.fact)) = [] := by
    rw [List.filterMap_eq_nil_iff]
    intro i hi
    rw [hb i hi]
    rfl
  have hempty : (constantsOf before).get? x = none := by
    rw [constantsOf, hnone]
    rfl
  apply h.congr
  rw [factsBehind, get?_join, hempty]
  rfl

end Assigned

end FlowOpt
