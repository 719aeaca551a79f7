import FlowOpt.Hoist.Invariant
import FlowOpt.Proofs.Execution

/-!
# Instructions that hold their values

An instruction without side effects computes the same value wherever its arguments are the same. Its
destination holds that value until something assigns the destination or an argument. Independent
instructions in a row all hold their values in the end.
-/

namespace FlowOpt

namespace Instruction

variable {i : Instruction}

theorem hasSideEffects_of_isTerminator (h : i.isTerminator = true) : i.hasSideEffects = true := by
  unfold isTerminator at h
  rw [Bool.or_eq_true, Bool.or_eq_true, beq_iff_eq, beq_iff_eq, beq_iff_eq] at h
  unfold hasSideEffects
  rcases h with (h | h) | h
  all_goals
    rw [h]
    decide

theorem hasSideEffects_of_isPhi (h : i.isPhi = true) : i.hasSideEffects = true := by
  unfold isPhi at h
  unfold hasSideEffects
  rw [beq_iff_eq.1 h]
  decide

theorem hasSideEffects_of_isMovable (h : i.isMovable = true) : i.hasSideEffects = false := by
  simp only [isMovable, Bool.and_eq_true, Bool.not_eq_true'] at h
  exact h.2

theorem isLabel_of_isMovable (h : i.isMovable = true) : i.isLabel = false := by
  simp only [isMovable, Bool.and_eq_true, Bool.not_eq_true'] at h
  exact h.1.1.1

theorem isTerminator_of_isMovable (h : i.isMovable = true) : i.isTerminator = false := by
  by_contra ht
  rw [Bool.not_eq_false] at ht
  have heffect := hasSideEffects_of_isTerminator ht
  rw [hasSideEffects_of_isMovable h] at heffect
  cases heffect

theorem isMovable_of_isHead (h : Block.isHead i = true) : i.isMovable = false := by
  by_contra hm
  rw [Bool.not_eq_false] at hm
  rw [Block.isHead, isLabel_of_isMovable hm, Bool.false_or] at h
  have heffect := hasSideEffects_of_isPhi h
  rw [hasSideEffects_of_isMovable hm] at heffect
  cases heffect

end Instruction

namespace Execution

variable {V : Type}

def Effect.isObservable (e : Effect V) : Bool := ({ op := e.op } : Instruction).hasSideEffects

def observable (effects : List (Effect V)) : List (Effect V) := effects.filter (·.isObservable)

/-- Operators without side effects compute from the record and the values of its arguments, the
others from those and from the side effects so far. -/
structure Interp.Regular (I : Interp V) : Prop where
  pure : ∀ i args effects effects', i.hasSideEffects = false →
    I.result i args effects = I.result i args effects'
  observed : ∀ i args effects effects', observable effects = observable effects' →
    I.result i args effects = I.result i args effects'

def Interp.Total (I : Interp V) : Prop :=
  ∀ i args effects, i.hasSideEffects = false → I.result i args effects ≠ none

def Holds (I : Interp V) (σ : Store V) (i : Instruction) : Prop :=
  ∃ args r x, i.args.map σ = args.map some ∧
    (∀ effects, I.result { i with dest := none } args effects = some r) ∧
    i.dest = some x ∧ σ x = some r

def StopsBefore (blocks : List Block) (I : Interp V) (block : String) (i : Instruction)
    (s : State V) : Prop :=
  (∃ rest, s.point = .inside block (i :: rest)) ∧ Stuck blocks I s

variable {blocks : List Block} {I : Interp V} {σ σ' : Store V} {effects : List (Effect V)}
  {i : Instruction} {rest : List Instruction} {block : String} {args : List V} {r : V}

theorem observable_append_of_pure (h : i.hasSideEffects = false) (args : List V) (r : V) :
    observable (effects ++ [effectOf i args r]) = observable effects := by
  have hpure : (effectOf i args r).isObservable = false := h
  rw [observable, List.filter_append, List.filter_cons_of_neg (by simp [hpure]), List.filter_nil,
    List.append_nil, observable]

theorem observable_append {effects' : List (Effect V)}
    (h : observable effects = observable effects') (more : List (Effect V)) :
    observable (effects ++ more) = observable (effects' ++ more) := by
  unfold observable at h ⊢
  rw [List.filter_append, List.filter_append, h]

theorem Holds.congr (h : Holds I σ i) (ha : ∀ x ∈ i.args, σ' x = σ x)
    (hd : ∀ x, i.dest = some x → σ' x = σ x) : Holds I σ' i := by
  obtain ⟨args, r, x, hargs, hr, hx, hv⟩ := h
  refine ⟨args, r, x, ?_, hr, hx, (hd x hx).trans hv⟩
  rw [← hargs]
  exact List.map_congr_left ha

theorem Holds.assign_of_ne (h : Holds I σ i) {dest : Option String} {value : Option V}
    (ha : ∀ x ∈ i.args, dest ≠ some x) (hd : ∀ x, i.dest = some x → dest ≠ some x) :
    Holds I (σ.assign dest value) i :=
  h.congr (fun x hx => Store.assign_of_ne (ha x hx)) fun x hx => Store.assign_of_ne (hd x hx)

theorem run_labels (blocks : List Block) (I : Interp V) (block : String)
    (rest : List Instruction) (σ : Store V) (effects : List (Effect V)) :
    Run blocks I ⟨.inside block rest, σ, effects⟩ []
      ⟨.inside block (rest.dropWhile (·.isLabel)), σ, effects⟩ := by
  induction rest with
  | nil => exact .refl _
  | cons i rest ih =>
    by_cases hi : i.isLabel = true
    · rw [List.dropWhile_cons_of_pos hi]
      exact .step (.label hi) ih
    · rw [List.dropWhile_cons_of_neg hi]
      exact .refl _

/-- A movable instruction executes and holds its value, or the code stops before it. -/
theorem step_movable (hI : I.Regular) (hi : i.isMovable = true)
    (hself : ∀ x ∈ i.args, i.dest ≠ some x) (blocks : List Block) (block : String)
    (rest : List Instruction) (σ : Store V) (effects : List (Effect V)) :
    (∃ args r, Step blocks I ⟨.inside block (i :: rest), σ, effects⟩
        [⟨block, .operation i args r⟩]
        ⟨.inside block rest, σ.assign i.dest (some r), effects ++ [effectOf i args r]⟩ ∧
      Holds I (σ.assign i.dest (some r)) i) ∨
    StopsBefore blocks I block i ⟨.inside block (i :: rest), σ, effects⟩ := by
  have hl := Instruction.isLabel_of_isMovable hi
  have ht := Instruction.isTerminator_of_isMovable hi
  by_cases hex : ∃ args r, i.args.map σ = args.map some ∧
      I.result { i with dest := none } args effects = some r
  · obtain ⟨args, r, ha, hr⟩ := hex
    obtain ⟨x, hx⟩ : ∃ x, i.dest = some x := by
      simp only [Instruction.isMovable, Bool.and_eq_true] at hi
      exact Option.isSome_iff_exists.1 hi.1.2
    have hheld : Holds I (σ.assign i.dest (some r)) i := by
      refine ⟨args, r, x, ?_, fun effects' => ?_, hx, by rw [hx, Store.assign_self]⟩
      · rw [← ha]
        exact List.map_congr_left fun y hy => Store.assign_of_ne (hself y hy)
      · have hpure := Instruction.hasSideEffects_of_isMovable hi
        rw [← hr]
        exact hI.pure _ _ _ _ hpure
    exact .inl ⟨args, r, .operation hl ht ha hr, hheld⟩
  · refine .inr ⟨⟨rest, rfl⟩, fun es t hstep => ?_⟩
    cases hstep with
    | label hlabel =>
      rw [hl] at hlabel
      cases hlabel
    | branch _ hbr =>
      rw [Instruction.isTerminator_of_isBranch hbr] at ht
      cases ht
    | ret _ hret => simp [Instruction.isTerminator, hret] at ht
    | operation _ _ ha hr => exact hex ⟨_, _, ha, hr⟩

structure Independent (instrs : List Instruction) : Prop where
  movable : ∀ i ∈ instrs, i.isMovable = true
  self : ∀ i ∈ instrs, ∀ x ∈ i.args, i.dest ≠ some x
  later : instrs.Pairwise fun i j => (∀ x ∈ i.args, j.dest ≠ some x) ∧ i.dest ≠ j.dest

/-- Independent instructions are executed until all hold their values, or the code stops before
one of them. -/
theorem run_independent (hI : I.Regular) (blocks : List Block) (block : String)
    {instrs : List Instruction} (h : Independent instrs) (rest : List Instruction) (σ : Store V)
    (effects : List (Effect V)) :
    (∃ es σ' effects', Run blocks I ⟨.inside block (instrs ++ rest), σ, effects⟩ es
        ⟨.inside block rest, σ', effects'⟩ ∧ (∀ e ∈ es, e.block = block) ∧
      observable effects' = observable effects ∧ (∀ i ∈ instrs, Holds I σ' i) ∧
      ∀ x, (∀ i ∈ instrs, i.dest ≠ some x) → σ' x = σ x) ∨
    ∃ es s, Run blocks I ⟨.inside block (instrs ++ rest), σ, effects⟩ es s ∧
      (∀ e ∈ es, e.block = block) ∧ ∃ i ∈ instrs, StopsBefore blocks I block i s := by
  induction instrs generalizing σ effects with
  | nil => exact .inl ⟨[], σ, effects, .refl _, by simp, rfl, by simp, fun _ _ => rfl⟩
  | cons i instrs ih =>
    obtain ⟨hlater, hpair⟩ := List.pairwise_cons.1 h.later
    have hi := h.movable i List.mem_cons_self
    have hrest : Independent instrs := ⟨fun j hj => h.movable j (List.mem_cons_of_mem _ hj),
      fun j hj => h.self j (List.mem_cons_of_mem _ hj), hpair⟩
    rw [List.cons_append]
    rcases step_movable hI hi (h.self i List.mem_cons_self) blocks block (instrs ++ rest) σ effects
      with ⟨args, r, hstep, hheld⟩ | hstop
    · rcases ih hrest (σ.assign i.dest (some r)) (effects ++ [effectOf i args r]) with
        ⟨es, σ', effects', hrun, hes, heffects, hholds, hsame⟩ | ⟨es, s, hrun, hes, hstop⟩
      · left
        refine ⟨_, σ', effects', .step hstep hrun, by simpa using hes, ?_, ?_, ?_⟩
        · rw [heffects, observable_append_of_pure (Instruction.hasSideEffects_of_isMovable hi)]
        · intro j hj
          rcases List.mem_cons.1 hj with rfl | hj
          · apply hheld.congr
            · exact fun x hx => hsame x fun k hk => (hlater k hk).1 x hx
            · exact fun x hx => hsame x fun k hk hd => (hlater k hk).2 (hx.trans hd.symm)
          · exact hholds j hj
        · intro x hx
          rw [hsame x fun j hj => hx j (List.mem_cons_of_mem _ hj)]
          exact Store.assign_of_ne (hx i List.mem_cons_self)
      · obtain ⟨j, hj, hstop⟩ := hstop
        exact .inr ⟨_, s, .step hstep hrun, by simpa using hes, j, List.mem_cons_of_mem _ hj,
          hstop⟩
    · exact .inr ⟨[], _, .refl _, by simp, i, List.mem_cons_self, hstop⟩

section Total

variable {s t : State V} {es : List (RunEvent V)}

theorem Store.assign_ne_none (hσ : ∀ x, σ x ≠ none) (dest : Option String) {value : Option V}
    (hv : value ≠ none) (x : String) : σ.assign dest value x ≠ none := by
  by_cases hx : dest = some x
  · rwa [hx, assign_self]
  · rw [assign_of_ne hx]
    exact hσ x

theorem Store.assignAll_ne_none (hσ : ∀ x, σ x ≠ none) (phis : List Instruction)
    {values : List (Option V)} (hv : ∀ v ∈ values, v ≠ none) (x : String) :
    σ.assignAll phis values x ≠ none := by
  induction phis generalizing σ values with
  | nil => exact hσ x
  | cons i phis ih =>
    cases values with
    | nil => exact hσ x
    | cons v values =>
      rw [assignAll_cons]
      exact ih (assign_ne_none hσ i.dest (hv v List.mem_cons_self))
        fun u hu => hv u (List.mem_cons_of_mem _ hu)

theorem Enters.store_ne_none {source : Option String} {target : String}
    (h : Enters blocks source target σ effects es s) (hσ : ∀ x, σ x ≠ none) :
    ∀ x, s.store x ≠ none := by
  obtain ⟨-, -, hvalues⟩ := h
  next b values =>
  apply Store.assignAll_ne_none hσ
  generalize b.headPhis = phis at hvalues
  induction hvalues with
  | nil => simp
  | cons hv _ ih =>
    obtain ⟨x, -, rfl⟩ := hv
    intro v hmem
    rcases List.mem_cons.1 hmem with rfl | hmem
    · exact hσ x
    · exact ih v hmem

theorem Step.store_ne_none (h : Step blocks I s es t) (hσ : ∀ x, s.store x ≠ none) :
    ∀ x, t.store x ≠ none := by
  cases h with
  | label _ => exact hσ
  | branch _ _ _ _ he => exact he.store_ne_none hσ
  | ret _ _ _ => exact hσ
  | operation _ _ _ _ => exact Store.assign_ne_none hσ _ (Option.some_ne_none _)
  | runOn _ he => exact he.store_ne_none hσ
  | finish _ => exact hσ

theorem Run.store_ne_none (h : Run blocks I s es t) (hσ : ∀ x, s.store x ≠ none) :
    ∀ x, t.store x ≠ none := by
  induction h with
  | refl => exact hσ
  | step hs _ ih => exact ih (hs.store_ne_none hσ)

/-- Where all variables have values at first, they have values all along. -/
theorem RunsFrom.store_ne_none (h : RunsFrom blocks I σ es s) (hσ : ∀ x, σ x ≠ none) :
    ∀ x, s.store x ≠ none := by
  obtain ⟨first, es₁, es₂, t, -, he, hr, -⟩ := h
  exact hr.store_ne_none (he.store_ne_none hσ)

theorem not_stopsBefore (htotal : I.Total) (hi : i.isMovable = true)
    (hσ : ∀ x, s.store x ≠ none) : ¬ StopsBefore blocks I block i s := by
  rintro ⟨⟨rest, hpoint⟩, hstuck⟩
  obtain ⟨point, σ, effects⟩ := s
  obtain rfl : point = .inside block (i :: rest) := hpoint
  obtain ⟨args, ha⟩ : ∃ args : List V, i.args.map σ = args.map some := by
    choose value hvalue using fun x => Option.ne_none_iff_exists'.1 (hσ x)
    refine ⟨i.args.map value, ?_⟩
    rw [List.map_map]
    exact List.map_congr_left fun x _ => hvalue x
  have hpure := Instruction.hasSideEffects_of_isMovable hi
  obtain ⟨r, hr⟩ := Option.ne_none_iff_exists'.1 (htotal { i with dest := none } args effects hpure)
  exact hstuck _ _ (.operation (Instruction.isLabel_of_isMovable hi)
    (Instruction.isTerminator_of_isMovable hi) ha hr)

end Total

end Execution

end FlowOpt
