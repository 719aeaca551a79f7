import FlowOpt.Proofs.Execution
import FlowOpt.Proofs.Pieces

/-!
# Executing code as one stream

Control is at a position of the code. A label does nothing, a jump or a decided branch moves to the
label it names, a return or the end of the code stops, and everything else goes on to the next
position. What has no defined result, and a jump to a label that does not stand, is stuck.

Jumps that are put in front of the labels they lead to change nothing but themselves: position by
position both streams execute the same instructions on the same values. The jumps that make running
on into the next block explicit are of this kind.
-/

namespace FlowOpt

namespace FlatCode

open Execution (Store)

variable {V : Type}

/-- What was executed and which labels were passed so far, without the jumps. -/
abbrev Past (V : Type) := List (Instruction × List V)

structure Interp (V : Type) where
  result : Instruction → List V → Past V → Option V
  taken : Instruction → List V → Past V → Option Bool

structure State (V : Type) where
  position : Nat
  store : Store V
  past : Past V

structure Event (V : Type) where
  position : Nat
  instr : Instruction
  args : List V

inductive Target
  | behind
  | label (name : String)
  | finish

/-- What an instruction does, wherever it stands. Passing a label is not seen. -/
structure Outcome (V : Type) where
  seen : Option (List V)
  target : Target
  store : Store V
  past : Past V

def execute (I : Interp V) (i : Instruction) (σ : Store V) (past : Past V) : Option (Outcome V) :=
  if i.isLabel then some ⟨none, .behind, σ, past ++ [(i, [])]⟩
  else do
    let args ← i.args.mapM σ
    if i.op = some "jmp" then
      let name ← i.labels[0]?
      return ⟨some args, .label name, σ, past⟩
    else if i.op = some "br" then
      let taken ← I.taken i args past
      let name ← i.labels[if taken then 0 else 1]?
      return ⟨some args, .label name, σ, past ++ [(i, args)]⟩
    else if i.op = some "ret" then
      return ⟨some args, .finish, σ, past ++ [(i, args)]⟩
    else
      let result ← I.result i args past
      return ⟨some args, .behind, σ.assign i.dest (some result), past ++ [(i, args)]⟩

def labelAt (code : List Instruction) (name : String) : Option Nat :=
  code.findIdx? fun i => i.label == some name

def Target.position? (code : List Instruction) (here : Nat) : Target → Option Nat
  | .behind => some (here + 1)
  | .label name => labelAt code name
  | .finish => some code.length

def step (I : Interp V) (code : List Instruction) (s : State V) :
    Option (Option (Event V) × State V) := do
  let i ← code[s.position]?
  let o ← execute I i s.store s.past
  let position ← o.target.position? code s.position
  return (o.seen.map fun args => ⟨s.position, i, args⟩, ⟨position, o.store, o.past⟩)

def run (I : Interp V) (code : List Instruction) : Nat → State V → List (Event V) × State V
  | 0, s => ([], s)
  | n + 1, s =>
    match step I code s with
    | none => ([], s)
    | some (e, t) => (e.toList ++ (run I code n t).1, (run I code n t).2)

def start (σ : Store V) : State V := ⟨0, σ, []⟩

section Run

variable {I : Interp V} {code : List Instruction} {s t : State V} {e : Option (Event V)}

theorem run_of_step (h : step I code s = some (e, t)) (n : Nat) : run I code (n + 1) s =
    (e.toList ++ (run I code n t).1, (run I code n t).2) := by
  rw [run, h]

theorem run_of_stuck (h : step I code s = none) (n : Nat) : run I code n s = ([], s) := by
  cases n with
  | zero => rfl
  | succ n => rw [run, h]

theorem step_of_label {i : Instruction} (hi : code[s.position]? = some i)
    (hlabel : i.isLabel = true) : step I code s =
      some (none, ⟨s.position + 1, s.store, s.past ++ [(i, [])]⟩) := by
  simp [step, hi, execute, hlabel, Target.position?]

theorem step_of_jump {name : String} (hi : code[s.position]? = some (.jump name)) : step I code s =
    (labelAt code name).map fun p =>
      (some ⟨s.position, .jump name, []⟩, ⟨p, s.store, s.past⟩) := by
  cases hp : labelAt code name <;>
    simp [step, hi, execute, Instruction.jump, Instruction.isLabel, Target.position?, hp]

end Run

theorem labelAt_cons (i : Instruction) (code : List Instruction) (name : String) :
    labelAt (i :: code) name =
      if i.label = some name then some 0 else (labelAt code name).map (· + 1) := by
  simp [labelAt, List.findIdx?_cons]

theorem labelAt_eq_some {code : List Instruction} {p : Nat} {i : Instruction} {name : String}
    (honce : ¬ Block.LabelsTwice code) (hi : code[p]? = some i) (hlabel : i.label = some name) :
    labelAt code name = some p := by
  obtain ⟨hp, rfl⟩ := List.getElem?_eq_some_iff.1 hi
  rw [labelAt, List.findIdx?_eq_some_iff_getElem]
  refine ⟨hp, beq_iff_eq.2 hlabel, fun j hj hfound => honce ?_⟩
  exact ⟨j, p, _, _, name, hj, List.getElem?_eq_getElem (hj.trans hp), hi, beq_iff_eq.1 hfound,
    hlabel⟩

/-- The second code is the first one with jumps put in, each in front of the label it leads to;
`kept` tells for each position whether what stands there is of the first code. -/
inductive Widened : List Bool → List Instruction → List Instruction → Prop
  | nil : Widened [] [] []
  | keep {kept : List Bool} {code code' : List Instruction} (i : Instruction)
      (h : Widened kept code code') : Widened (true :: kept) (i :: code) (i :: code')
  | jump {kept : List Bool} {code code' : List Instruction} {i : Instruction} {name : String}
      (hi : i.label = some name) (h : Widened kept code code') :
      Widened (false :: true :: kept) (i :: code) (.jump name :: i :: code')

/-- The position in the first code of what stands at a position of the second, or comes next. -/
def original (kept : List Bool) (q : Nat) : Nat := (kept.take q).count true

/-- What the first code shows where the second one shows an event. -/
def shown (kept : List Bool) (e : Event V) : Option (Event V) :=
  if kept[e.position]? = some true then some { e with position := original kept e.position }
  else none

@[simp] theorem original_true_succ (kept : List Bool) (q : Nat) :
    original (true :: kept) (q + 1) = original kept q + 1 := by
  simp [original]

@[simp] theorem original_false_succ (kept : List Bool) (q : Nat) :
    original (false :: kept) (q + 1) = original kept q := by
  simp [original]

theorem original_succ {kept : List Bool} {q : Nat} (hq : kept[q]? = some true) :
    original kept (q + 1) = original kept q + 1 := by
  rw [original, List.take_add_one, hq, List.count_append]
  rfl

section Positions

variable {kept : List Bool} {code code' l : List Instruction} {q : Nat}

theorem Widened.append_left (l : List Instruction) (h : Widened kept code code') :
    Widened (List.replicate l.length true ++ kept) (l ++ code) (l ++ code') := by
  induction l with
  | nil => exact h
  | cons i l ih => exact .keep i ih

theorem Widened.refl (code : List Instruction) :
    Widened (List.replicate code.length true) code code := by
  have h := Widened.nil.append_left code
  rwa [List.append_nil, List.append_nil] at h

variable (h : Widened kept code code')
include h

theorem Widened.length_kept : kept.length = code'.length := by
  induction h with
  | nil => rfl
  | keep i _ ih => rw [List.length_cons, List.length_cons, ih]
  | jump _ _ ih => simp [ih]

theorem Widened.original_length : original kept code'.length = code.length := by
  induction h with
  | nil => rfl
  | keep i _ ih => rw [List.length_cons, List.length_cons, original_true_succ, ih]
  | jump _ _ ih => simp [ih]

theorem Widened.getElem?_original (hq : kept[q]? ≠ some false) :
    code'[q]? = code[original kept q]? := by
  induction h generalizing q with
  | nil => rfl
  | keep i _ ih =>
    cases q with
    | zero => rfl
    | succ q => simpa using ih (by simpa using hq)
  | jump hi _ ih =>
    match q with
    | 0 => simp at hq
    | 1 => rfl
    | q + 2 => simpa using ih (by simpa using hq)

/-- What was put in is a jump to the label that comes next. -/
theorem Widened.getElem?_added (hq : kept[q]? = some false) : ∃ name i,
    code'[q]? = some (.jump name) ∧ code[original kept q]? = some i ∧ i.label = some name := by
  induction h generalizing q with
  | nil => simp at hq
  | keep i _ ih =>
    cases q with
    | zero => simp at hq
    | succ q => simpa using ih (by simpa using hq)
  | @jump _ _ _ i name hi _ ih =>
    match q with
    | 0 => exact ⟨name, i, rfl, rfl, hi⟩
    | 1 => simp at hq
    | q + 2 => simpa using ih (by simpa using hq)

theorem Widened.labelAt_eq (name : String) :
    labelAt code name = (labelAt code' name).map (original kept) := by
  induction h with
  | nil => rfl
  | keep i _ ih =>
    rw [labelAt_cons, labelAt_cons, ih]
    split
    · rfl
    · simp [Function.comp_def]
  | @jump _ _ _ i target hi _ ih =>
    have hjump : (Instruction.jump target).label ≠ some name := nofun
    rw [labelAt_cons i, labelAt_cons (.jump target), if_neg hjump, labelAt_cons i, ih]
    split
    · rfl
    · simp [Function.comp_def]

theorem Widened.kept_of_labelAt {name : String} (hq : labelAt code' name = some q) :
    kept[q]? ≠ some false := by
  intro hadded
  obtain ⟨target, i, hjump, -⟩ := h.getElem?_added hadded
  rw [labelAt, List.findIdx?_eq_some_iff_getElem] at hq
  obtain ⟨hlt, hlabel, -⟩ := hq
  rw [(List.getElem?_eq_some_iff.1 hjump).2] at hlabel
  cases hlabel

theorem Widened.position?_target (hq : kept[q]? = some true) (target : Target) :
    target.position? code (original kept q) = (target.position? code' q).map (original kept) := by
  cases target with
  | behind => exact congrArg some (original_succ hq).symm
  | label name => exact h.labelAt_eq name
  | finish => exact congrArg some h.original_length.symm

end Positions

structure Agrees (kept : List Bool) (s s' : State V) : Prop where
  position : s.position = original kept s'.position
  store : s.store = s'.store
  past : s.past = s'.past

section Simulation

variable {I : Interp V} {kept : List Bool} {code code' : List Instruction} {s s' : State V}
  (h : Widened kept code code') (hs : Agrees kept s s')
include h hs

/-- From what was kept both codes do the same, or neither goes on. -/
theorem Agrees.step_of_kept (hq : kept[s'.position]? ≠ some false) :
    (step I code s = none ∧ step I code' s' = none) ∨ ∃ e' t t',
      step I code' s' = some (e', t') ∧ step I code s = some (e'.bind (shown kept), t) ∧
        Agrees kept t t' := by
  have hget := h.getElem?_original hq
  obtain ⟨p, σ, past⟩ := s
  obtain ⟨q, σ', past'⟩ := s'
  obtain ⟨rfl, rfl, rfl⟩ : p = original kept q ∧ σ = σ' ∧ past = past' :=
    ⟨hs.position, hs.store, hs.past⟩
  simp only at hq hget
  unfold step
  simp only [hget]
  cases hi : code[original kept q]? with
  | none => exact .inl ⟨rfl, rfl⟩
  | some i =>
    cases ho : execute I i σ past with
    | none => exact .inl ⟨by simp [ho], by simp [ho]⟩
    | some o =>
      have hlt : q < kept.length := by
        rw [h.length_kept]
        exact (List.getElem?_eq_some_iff.1 (hget.trans hi)).1
      have hkept : kept[q]? = some true := by
        rw [List.getElem?_eq_getElem hlt] at hq ⊢
        simpa using hq
      have hposition := h.position?_target hkept o.target
      cases hp : o.target.position? code' q with
      | none =>
        rw [hp, Option.map_none] at hposition
        exact .inl ⟨by simp [ho, hposition], by simp [ho, hp]⟩
      | some q' =>
        rw [hp, Option.map_some] at hposition
        refine .inr ⟨o.seen.map fun args => ⟨q, i, args⟩, ⟨original kept q', o.store, o.past⟩,
          ⟨q', o.store, o.past⟩, by simp [ho, hp], ?_, ⟨rfl, rfl, rfl⟩⟩
        cases hseen : o.seen <;> simp [ho, hposition, hseen, shown, hkept]

/-- A jump that was put in leads to what was kept, where the first code already is. -/
theorem Agrees.step_of_added (honce : ¬ Block.LabelsTwice code)
    (hq : kept[s'.position]? = some false) : ∃ e' t', step I code' s' = some (some e', t') ∧
      shown kept e' = none ∧ Agrees kept s t' ∧ kept[t'.position]? ≠ some false := by
  obtain ⟨name, i, hjump, hi, hlabel⟩ := h.getElem?_added hq
  have hfound := labelAt_eq_some honce hi hlabel
  rw [h.labelAt_eq, Option.map_eq_some_iff] at hfound
  obtain ⟨q', hq', hposition⟩ := hfound
  refine ⟨⟨s'.position, .jump name, []⟩, ⟨q', s'.store, s'.past⟩, ?_, ?_, ?_, ?_⟩
  · rw [step_of_jump hjump, hq']
    rfl
  · simp [shown, hq]
  · exact ⟨hs.position.trans hposition.symm, hs.store, hs.past⟩
  · exact h.kept_of_labelAt hq'

theorem Agrees.step_eq_none_iff (honce : ¬ Block.LabelsTwice code) :
    step I code s = none ↔ step I code' s' = none := by
  by_cases hq : kept[s'.position]? = some false
  · obtain ⟨name, i, -, hi, hlabel⟩ := h.getElem?_added hq
    rw [← hs.position] at hi
    obtain ⟨e', t', hstep', -⟩ := hs.step_of_added (I := I) h honce hq
    rw [step_of_label hi (by simp [Instruction.isLabel, hlabel]), hstep']
    simp
  · obtain ⟨hnone, hnone'⟩ | ⟨e', t, t', hstep', hstep, -⟩ := hs.step_of_kept (I := I) h hq
    · exact iff_of_true hnone hnone'
    · rw [hstep, hstep']
      simp

theorem Agrees.ended_iff : code.length ≤ s.position ↔ code'.length ≤ s'.position := by
  rw [hs.position, ← List.getElem?_eq_none_iff, ← List.getElem?_eq_none_iff]
  by_cases hq : kept[s'.position]? = some false
  · obtain ⟨name, i, hjump, hi, -⟩ := h.getElem?_added hq
    rw [hjump, hi]
    simp
  · rw [h.getElem?_original hq]

end Simulation

/-- Two runs executed the same instructions on the same values, the jumps that were put in aside,
and are at the same place: both can go on or neither, and both are at the end or neither. -/
structure Matches (I : Interp V) (kept : List Bool) (code code' : List Instruction)
    (r r' : List (Event V) × State V) : Prop where
  events : r.1 = r'.1.filterMap (shown kept)
  agrees : Agrees kept r.2 r'.2
  stuck : step I code r.2 = none ↔ step I code' r'.2 = none
  ended : code.length ≤ r.2.position ↔ code'.length ≤ r'.2.position

section Simulation

variable {I : Interp V} {kept : List Bool} {code code' : List Instruction} {s s' : State V}
  (h : Widened kept code code') (honce : ¬ Block.LabelsTwice code)
include h honce

theorem Matches.of_agrees (hs : Agrees kept s s') :
    Matches I kept code code' ([], s) ([], s') :=
  ⟨rfl, hs, hs.step_eq_none_iff h honce, hs.ended_iff h⟩

omit h honce in
theorem Matches.cons (e' : Option (Event V)) {r r' : List (Event V) × State V}
    (hr : Matches I kept code code' r r') : Matches I kept code code'
      ((e'.bind (shown kept)).toList ++ r.1, r.2) (e'.toList ++ r'.1, r'.2) := by
  refine ⟨?_, hr.agrees, hr.stuck, hr.ended⟩
  rw [hr.events, List.filterMap_append]
  cases e' with
  | none => rfl
  | some e' => cases he : shown kept e' <;> simp [he]

theorem exists_widened_run (n : Nat) (hs : Agrees kept s s') :
    ∃ m, Matches I kept code code' (run I code n s) (run I code' m s') := by
  induction n generalizing s s' with
  | zero => exact ⟨0, .of_agrees h honce hs⟩
  | succ n ih =>
    have hkept : ∀ s', Agrees kept s s' → kept[s'.position]? ≠ some false →
        ∃ m, Matches I kept code code' (run I code (n + 1) s) (run I code' m s') := by
      intro s' hs hq
      obtain ⟨hnone, -⟩ | ⟨e', t, t', hstep', hstep, ht⟩ := hs.step_of_kept (I := I) h hq
      · refine ⟨0, ?_⟩
        rw [run_of_stuck hnone]
        exact .of_agrees h honce hs
      · obtain ⟨m, hm⟩ := ih ht
        refine ⟨m + 1, ?_⟩
        rw [run_of_step hstep, run_of_step hstep']
        exact hm.cons e'
    by_cases hq : kept[s'.position]? = some false
    · obtain ⟨e', t', hstep', hshown, ht, hkept'⟩ := hs.step_of_added (I := I) h honce hq
      obtain ⟨m, hm⟩ := hkept t' ht hkept'
      refine ⟨m + 1, ?_⟩
      rw [run_of_step hstep']
      simpa [hshown] using hm.cons (some e')
    · exact hkept s' hs hq

theorem exists_original_run (m : Nat) (hs : Agrees kept s s') :
    ∃ n, Matches I kept code code' (run I code n s) (run I code' m s') := by
  induction m generalizing s s' with
  | zero => exact ⟨0, .of_agrees h honce hs⟩
  | succ m ih =>
    by_cases hq : kept[s'.position]? = some false
    · obtain ⟨e', t', hstep', hshown, ht, -⟩ := hs.step_of_added (I := I) h honce hq
      obtain ⟨n, hn⟩ := ih ht
      refine ⟨n, ?_⟩
      rw [run_of_step hstep']
      simpa [hshown] using hn.cons (some e')
    · obtain ⟨-, hnone⟩ | ⟨e', t, t', hstep', hstep, ht⟩ := hs.step_of_kept (I := I) h hq
      · refine ⟨0, ?_⟩
        rw [run_of_stuck hnone]
        exact .of_agrees h honce hs
      · obtain ⟨n, hn⟩ := ih ht
        refine ⟨n + 1, ?_⟩
        rw [run_of_step hstep, run_of_step hstep']
        exact hn.cons e'

end Simulation

/-- Whatever is computed, and from whatever store: however far one of the codes runs, the other has
a run that matches. -/
def RunsAlike (kept : List Bool) (code code' : List Instruction) : Prop :=
  ∀ (V : Type) (I : Interp V) (σ : Store V),
    (∀ n, ∃ m, Matches I kept code code' (run I code n (start σ)) (run I code' m (start σ))) ∧
      ∀ m, ∃ n, Matches I kept code code' (run I code n (start σ)) (run I code' m (start σ))

theorem Widened.runsAlike {kept : List Bool} {code code' : List Instruction}
    (h : Widened kept code code') (honce : ¬ Block.LabelsTwice code) :
    RunsAlike kept code code' := by
  intro V I σ
  have hstart : Agrees kept (start σ) (start σ) := ⟨rfl, rfl, rfl⟩
  exact ⟨fun n => exists_widened_run h honce n hstart, fun m => exists_original_run h honce m hstart⟩

end FlatCode

namespace Block

open FlatCode

variable {blocks : List Block} {b : Block}

theorem widened_explicitFrom {rest : List Block} (hb : b.instrs ≠ [])
    (hrest : ∀ c ∈ rest, c.Headed) : ∃ i kept tail tail', flatten (b :: rest) = i :: tail ∧
      flatten (explicitFrom b rest) = i :: tail' ∧ b.instrs.head? = some i ∧
      Widened kept tail tail' := by
  induction rest generalizing b with
  | nil =>
    obtain ⟨i, body, hinstrs⟩ := List.exists_cons_of_ne_nil hb
    exact ⟨i, _, body, body, by simp [flatten, hinstrs], by simp [explicitFrom, flatten, hinstrs],
      by simp [hinstrs], .refl body⟩
  | cons next rest ih =>
    obtain ⟨i, body, hinstrs⟩ := List.exists_cons_of_ne_nil hb
    obtain ⟨hnext, hrest⟩ := List.forall_mem_cons.1 hrest
    obtain ⟨j, kept, tail, tail', htail, htail', hj, hw⟩ := ih hnext.ne_nil hrest
    have hlabel : j.label = some next.name := by
      have hlabel := hnext.1
      rwa [label, hj] at hlabel
    have hflat : flatten (b :: next :: rest) = i :: (body ++ j :: tail) := by
      rw [flatten, List.flatMap_cons, ← flatten, htail, hinstrs]
      rfl
    unfold explicitFrom
    rw [ensureLabel_of_headed hnext]
    split
    · refine ⟨i, _, body ++ j :: tail, body ++ .jump next.name :: j :: tail', hflat, ?_,
        by simp [hinstrs], (Widened.jump hlabel hw).append_left body⟩
      rw [flatten, List.flatMap_cons, ← flatten, htail', push, hinstrs]
      simp
    · refine ⟨i, _, body ++ j :: tail, body ++ j :: tail', hflat, ?_, by simp [hinstrs],
        (Widened.keep j hw).append_left body⟩
      rw [flatten, List.flatMap_cons, ← flatten, htail', hinstrs]
      rfl

/-- Writing out the jumps puts jumps in front of labels they lead to. -/
theorem Cut.widened (h : Cut blocks) :
    ∃ kept, Widened kept (flatten blocks) (flatten (Block.addTerminators blocks)) := by
  cases blocks with
  | nil => exact ⟨[], .nil⟩
  | cons b rest =>
    obtain ⟨i, kept, tail, tail', htail, htail', -, hw⟩ := widened_explicitFrom
      (h.ne_nil List.mem_cons_self) fun c hc => h.headed_of_mem_tail hc
    rw [Block.addTerminators, htail, htail']
    exact ⟨_, .keep i hw⟩

/-- Blocks and the same ones with their jumps written out, each joined to one stream: what either
executes, the other executes too, but for the jumps that were put in. -/
theorem addTerminators_runsAlike {instrs : List Instruction} {blocks : List Block}
    (h : split instrs = .ok blocks) :
    ∃ kept, Widened kept instrs (flatten (addTerminators blocks)) ∧
      RunsAlike kept instrs (flatten (addTerminators blocks)) := by
  have honce : ¬ LabelsTwice instrs := nodup_declared_iff.1 (split_isOk_iff.1 ⟨blocks, h⟩)
  obtain ⟨kept, hw⟩ := (Cut.of_split h).widened
  rw [flatten_split h] at hw
  exact ⟨kept, hw, hw.runsAlike honce⟩

theorem circling_runsAlike : split circling = .ok circlingBlocks ∧
    flatten (addTerminators circlingBlocks) ≠ circling ∧
    ∃ kept, Widened kept circling (flatten (addTerminators circlingBlocks)) ∧
      RunsAlike kept circling (flatten (addTerminators circlingBlocks)) := by
  have hsplit : split circling = .ok circlingBlocks := by decide +kernel
  exact ⟨hsplit, by decide +kernel, addTerminators_runsAlike hsplit⟩

end Block

end FlowOpt
