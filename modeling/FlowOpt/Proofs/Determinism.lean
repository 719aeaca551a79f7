import FlowOpt.Proofs.Execution

/-!
# Code runs in one way

Where the names of blocks differ a state has at most one step. So a program that answers every step
of another one fails only where the other one does, or where it stops instead of answering.
-/

namespace FlowOpt

namespace Execution

variable {V : Type} {blocks : List Block} {I : Interp V} {σ : Store V}
  {effects : List (Effect V)} {source : Option String} {target : String}
  {es es' : List (RunEvent V)} {s t u : State V}

theorem args_unique {names : List String} {args args' : List V}
    (h : names.map σ = args.map some) (h' : names.map σ = args'.map some) : args = args' :=
  List.map_injective_iff.2 (Option.some_injective V) (h.symm.trans h')

section Deterministic

variable (hn : (blocks.map (·.name)).Nodup)
include hn

theorem Enters.deterministic (h : Enters blocks source target σ effects es s)
    (h' : Enters blocks source target σ effects es' t) : es = es' ∧ s = t := by
  obtain ⟨hb, hname, hvalues⟩ := h
  next b values =>
  obtain ⟨hb', hname', hvalues'⟩ := h'
  next b' values' =>
  obtain rfl : b = b' := List.inj_on_of_nodup_map hn hb hb' (hname.trans hname'.symm)
  have hunique : Relator.RightUnique fun (i : Instruction) (v : Option V) =>
      ∃ x, operand? source i = some x ∧ v = σ x := by
    rintro i _ _ ⟨x, hx, rfl⟩ ⟨y, hy, rfl⟩
    obtain rfl := Option.some.inj (hx.symm.trans hy)
    rfl
  have hsame : values = values' := List.right_unique_forall₂' hunique hvalues hvalues'
  exact ⟨by rw [hsame], by rw [hsame]⟩

theorem Step.deterministic (h : Step blocks I s es t) (h' : Step blocks I s es' u) :
    es = es' ∧ t = u := by
  cases h with
  | label hl =>
    cases h' with
    | label _ => exact ⟨rfl, rfl⟩
    | branch hl' => simp [hl] at hl'
    | ret hl' => simp [hl] at hl'
    | operation hl' => simp [hl] at hl'
  | branch hl hi ha ht he =>
    cases h' with
    | label hl' => simp [hl] at hl'
    | branch _ _ ha' ht' he' =>
      obtain rfl := args_unique ha ha'
      obtain rfl := Option.some.inj (ht.symm.trans ht')
      obtain ⟨rfl, rfl⟩ := he.deterministic hn he'
      exact ⟨rfl, rfl⟩
    | ret _ hi' => simp [Instruction.isBranch, hi'] at hi
    | operation _ hi' => simp [Instruction.isTerminator_of_isBranch hi] at hi'
  | ret hl hi ha =>
    cases h' with
    | label hl' => simp [hl] at hl'
    | branch _ hi' => simp [Instruction.isBranch, hi] at hi'
    | ret _ _ ha' =>
      obtain rfl := args_unique ha ha'
      exact ⟨rfl, rfl⟩
    | operation _ hi' => simp [Instruction.isTerminator, hi] at hi'
  | operation hl hi ha hr =>
    cases h' with
    | label hl' => simp [hl] at hl'
    | branch _ hi' => simp [Instruction.isTerminator_of_isBranch hi'] at hi
    | ret _ hi' => simp [Instruction.isTerminator, hi'] at hi
    | operation _ _ ha' hr' =>
      obtain rfl := args_unique ha ha'
      obtain rfl := Option.some.inj (hr.symm.trans hr')
      exact ⟨rfl, rfl⟩
  | runOn hf he =>
    cases h' with
    | runOn hf' he' =>
      obtain rfl := Option.some.inj (hf.symm.trans hf')
      exact he.deterministic hn he'
    | finish hf' => simp [hf] at hf'
  | finish hf =>
    cases h' with
    | runOn hf' _ => simp [hf] at hf'
    | finish _ => exact ⟨rfl, rfl⟩

/-- A run to where nothing executes passes every state that can be reached. -/
theorem Run.of_stuck (h : Run blocks I s es t) (h' : Run blocks I s es' u)
    (hu : Stuck blocks I u) : ∃ es'', Run blocks I t es'' u := by
  induction h generalizing es' with
  | refl s => exact ⟨es', h'⟩
  | step hs _ ih =>
    cases h' with
    | refl _ => exact (hu _ _ hs).elim
    | step hs' hr' =>
      obtain ⟨-, rfl⟩ := hs.deterministic hn hs'
      exact ih hr'

end Deterministic

theorem stuck_of_finished (blocks : List Block) (I : Interp V) (hs : s.point = .finished) :
    Stuck blocks I s := by
  obtain ⟨point, σ, effects⟩ := s
  obtain rfl : point = .finished := hs
  intro es t h
  cases h

theorem Run.eq_of_stuck (h : Run blocks I s es t) (hs : Stuck blocks I s) : s = t := by
  cases h with
  | refl => rfl
  | step hstep _ => exact (hs _ _ hstep).elim

def Faults (blocks : List Block) (I : Interp V) (σ : Store V) : Prop :=
  ∃ es s, RunsFrom blocks I σ es s ∧ s.point ≠ .finished ∧ Stuck blocks I s

theorem not_faults (hn : (blocks.map (·.name)).Nodup) (h : RunsFrom blocks I σ es s)
    (hs : s.point = .finished) : ¬ Faults blocks I σ := by
  rintro ⟨es', u, hu, hne, hstuck⟩
  obtain ⟨first, es₁, es₂, t, hfirst, he, hr, -⟩ := h
  obtain ⟨first', es₁', es₂', t', hfirst', he', hr', -⟩ := hu
  obtain rfl := Option.some.inj (hfirst.symm.trans hfirst')
  obtain ⟨-, rfl⟩ := he.deterministic hn he'
  obtain ⟨_, hrest⟩ := hr.of_stuck hn hr' hstuck
  obtain rfl := hrest.eq_of_stuck (stuck_of_finished blocks I hs)
  exact hne hs

theorem finished_of_not_faults (hsafe : ¬ Faults blocks I σ) {first : Block}
    (hfirst : blocks.head? = some first) (he : Enters blocks none first.name σ [] es s)
    (hr : Run blocks I s es' t) (ht : Stuck blocks I t) : t.point = .finished := by
  by_contra hne
  exact hsafe ⟨_, t, ⟨first, es, es', s, hfirst, he, hr, rfl⟩, hne, ht⟩

def State.left (s : State V) : Nat :=
  match s.point with
  | .inside _ rest => rest.length
  | .finished => 0

theorem State.left_lt_cons (b : String) (i : Instruction) (rest : List Instruction)
    (σ σ' : Store V) (effects effects' : List (Effect V)) :
    State.left ⟨.inside b rest, σ', effects'⟩ < State.left ⟨.inside b (i :: rest), σ, effects⟩ :=
  Nat.lt_succ_self rest.length

def Advances (blocks : List Block) (I : Interp V) (s t : State V) : Prop :=
  ∃ es u es', Step blocks I s es u ∧ Run blocks I u es' t

theorem Advances.of_run_step (h : Run blocks I s es t) (h' : Step blocks I t es' u) :
    Advances blocks I s u := by
  cases h with
  | refl => exact ⟨_, _, _, h', .refl u⟩
  | step hs hr => exact ⟨_, _, _, hs, hr.trans (.single h')⟩

theorem Advances.run (h : Advances blocks I s t) (h' : Run blocks I t es u) :
    Advances blocks I s u := by
  obtain ⟨_, _, _, hs, hr⟩ := h
  exact ⟨_, _, _, hs, hr.trans h'⟩

def Reaches (blocks : List Block) (I : Interp V) : Nat → State V → State V → Prop
  | 0, s, t => s = t
  | n + 1, s, t => ∃ es u, Step blocks I s es u ∧ Reaches blocks I n u t

theorem Run.exists_reaches (h : Run blocks I s es t) : ∃ n, Reaches blocks I n s t := by
  induction h with
  | refl s => exact ⟨0, rfl⟩
  | step hs _ ih =>
    obtain ⟨n, hn⟩ := ih
    exact ⟨n + 1, _, _, hs, hn⟩

theorem Reaches.of_step {n : Nat} (hu : Reaches blocks I n s u)
    (hn : (blocks.map (·.name)).Nodup) (hs : Step blocks I s es t) (hstuck : Stuck blocks I u) :
    ∃ k < n, Reaches blocks I k t u := by
  cases n with
  | zero =>
    obtain rfl := hu
    exact (hstuck _ _ hs).elim
  | succ n =>
    obtain ⟨_, _, hs', hrest⟩ := hu
    obtain ⟨-, rfl⟩ := hs.deterministic hn hs'
    exact ⟨n, Nat.lt_succ_self n, hrest⟩

theorem Reaches.of_run {n : Nat} (hu : Reaches blocks I n s u)
    (hn : (blocks.map (·.name)).Nodup) (h : Run blocks I s es t) (hstuck : Stuck blocks I u) :
    ∃ k ≤ n, Reaches blocks I k t u := by
  induction h generalizing n with
  | refl s => exact ⟨n, le_rfl, hu⟩
  | step hs _ ih =>
    obtain ⟨m, hm, hrest⟩ := hu.of_step hn hs hstuck
    obtain ⟨k, hk, hreach⟩ := ih hrest
    exact ⟨k, hk.trans hm.le, hreach⟩

theorem Reaches.of_advances {n : Nat} (hu : Reaches blocks I n s u)
    (hn : (blocks.map (·.name)).Nodup) (h : Advances blocks I s t) (hstuck : Stuck blocks I u) :
    ∃ k < n, Reaches blocks I k t u := by
  obtain ⟨_, v, _, hs, hr⟩ := h
  obtain ⟨m, hm, hrest⟩ := hu.of_step hn hs hstuck
  obtain ⟨k, hk, hreach⟩ := hrest.of_run hn hr hstuck
  exact ⟨k, hk.trans_lt hm, hreach⟩

section Simulation

variable {blocks' : List Block} {I' : Interp V} {R : State V → State V → Prop}
  {Stops : State V → Prop}

/-- If every step is answered with a step, or one instruction fewer is left, unless the answer
stops, then a program that answers one that does not fail only stops or comes to its end. -/
theorem finished_or_stops (hn : (blocks'.map (·.name)).Nodup)
    (hstep : ∀ s es s' t, Step blocks I s es s' → R s t →
      (∃ es' t', Run blocks' I' t es' t' ∧ R s' t' ∧
        (Advances blocks' I' t t' ∨ s'.left < s.left)) ∨
      ∃ es' t', Run blocks' I' t es' t' ∧ Stops t')
    (hplace : ∀ s t, R s t → t.point.block? = s.point.block?)
    (hstops : ∀ t, Stops t → Stuck blocks' I' t)
    (hsafe : ∀ es u, Run blocks I s es u → Stuck blocks I u → u.point = .finished)
    (hR : R s t) (hrun : Run blocks' I' t es u) (hu : Stuck blocks' I' u) :
    u.point = .finished ∨ Stops u := by
  obtain ⟨n, hreach⟩ := hrun.exists_reaches
  -- By induction on the steps left, and among equals on the instructions left.
  induction n using Nat.strong_induction_on generalizing s t es with
  | _ n ihn =>
  induction hl : s.left using Nat.strong_induction_on generalizing s t es with
  | _ l ihl =>
  by_cases hs : Stuck blocks I s
  · left
    have ht : t.point = .finished := by
      apply Point.eq_finished
      rw [hplace s t hR, hsafe [] s (.refl s) hs]
      rfl
    obtain rfl := hrun.eq_of_stuck (stuck_of_finished blocks' I' ht)
    exact ht
  · obtain ⟨es₁, s', hs'⟩ : ∃ es₁ s', Step blocks I s es₁ s' := by
      simpa only [Stuck, not_forall, not_not] using hs
    have hsafe' : ∀ es u, Run blocks I s' es u → Stuck blocks I u → u.point = .finished :=
      fun es u hr => hsafe (es₁ ++ es) u (.step hs' hr)
    rcases hstep s es₁ s' t hs' hR with ⟨es', t', hr', hR', hprogress⟩ | ⟨es', t', hr', hstop⟩
    · obtain ⟨es₂, hrest⟩ := hr'.of_stuck hn hrun hu
      rcases hprogress with hadvances | hless
      · obtain ⟨k, hk, hreach'⟩ := hreach.of_advances hn hadvances hu
        exact ihn k hk hsafe' hR' hrest hreach'
      · obtain ⟨k, hk, hreach'⟩ := hreach.of_run hn hr' hu
        rcases hk.lt_or_eq with hk | rfl
        · exact ihn k hk hsafe' hR' hrest hreach'
        · exact ihl _ (hl ▸ hless) hsafe' hR' hrest hreach' rfl
    · obtain ⟨es₂, hrest⟩ := hr'.of_stuck hn hrun hu
      obtain rfl := hrest.eq_of_stuck (hstops t' hstop)
      exact .inr hstop

end Simulation

end Execution

end FlowOpt
