import FlowOpt.Pipeline
import Mathlib

/-!
# Functions side by side

Workers on several functions record their events in one log, where those of one function come
between those of another, and write the functions back in any order. However that is scheduled, what
comes out is what comes out of one function after the other, but for the order of the events.
-/

namespace FlowOpt

inductive Job
  /-- The function as it still is, the events yet to be recorded of it, what it is to be behind
  them, and whether that counts as a change. -/
  | working (f : Function) (events : List Event) (f' : Function) (changed : Bool)
  | done (f : Function)

namespace Job

def function : Job → Function
  | working f _ _ _ => f
  | done f => f

def outcome : Job → Function
  | working _ _ f' _ => f'
  | done f => f

def pending : Job → List Event
  | working _ events _ _ => events
  | done _ => []

def owed : Job → Nat
  | working _ _ _ changed => changed.toNat
  | done _ => 0

/-- A step with what it records and counts: the next event, or the function behind all events. -/
inductive Step : Job → List Event → Nat → Job → Prop
  | record (f : Function) (e : Event) (events : List Event) (f' : Function) (changed : Bool) :
      Step (working f (e :: events) f' changed) [e] 0 (working f events f' changed)
  | write (f f' : Function) (changed : Bool) :
      Step (working f [] f' changed) [] changed.toNat (done f')

variable {j j' : Job} {events : List Event} {n : Nat}

/-- A step brings forward what the job comes to, and changes none of it. -/
theorem Step.outcome_eq (h : Step j events n j') :
    j'.outcome = j.outcome ∧ events ++ j'.pending = j.pending ∧ n + j'.owed = j.owed := by
  cases h with
  | record f e events f' changed => exact ⟨rfl, rfl, Nat.zero_add _⟩
  | write f f' changed => exact ⟨rfl, rfl, rfl⟩

end Job

structure Batch where
  jobs : List Job
  log : List Event
  changed : Nat

namespace Batch

inductive Step : Batch → Batch → Prop
  | of_job {j j' : Job} {events : List Event} {n : Nat} (before after : List Job)
      (log : List Event) (changed : Nat) (h : Job.Step j events n j') :
      Step ⟨before ++ j :: after, log, changed⟩ ⟨before ++ j' :: after, log ++ events, changed + n⟩

def Done (b : Batch) : Prop := ∀ j ∈ b.jobs, ∃ f, j = .done f

def run (b : Batch) : PipelineRun := ⟨⟨b.jobs.map (·.function)⟩, ⟨b.log⟩, b.changed⟩

def finished (b : Batch) : Batch where
  jobs := b.jobs.map fun j => .done j.outcome
  log := b.log ++ b.jobs.flatMap (·.pending)
  changed := b.changed + (b.jobs.map (·.owed)).sum

variable {b b' b'' : Batch}

/-- From the second state on it comes to what it came to from the first, but for the order in the
log. The events of one function keep theirs. -/
structure Matches (b b' : Batch) : Prop where
  outcomes : b'.jobs.map (·.outcome) = b.jobs.map (·.outcome)
  events : b'.finished.log.Perm b.finished.log
  changed : b'.finished.changed = b.finished.changed
  inOrder : ∀ (k : Nat) (j : Job), b.jobs[k]? = some j →
    ∃ j' : Job, b'.jobs[k]? = some j' ∧ (b.log ++ j.pending).Sublist (b'.log ++ j'.pending)

theorem Matches.refl (b : Batch) : b.Matches b :=
  ⟨rfl, .refl _, rfl, fun _ j hj => ⟨j, hj, .refl _⟩⟩

theorem Matches.trans (h : b.Matches b') (h' : b'.Matches b'') : b.Matches b'' where
  outcomes := h'.outcomes.trans h.outcomes
  events := h'.events.trans h.events
  changed := h'.changed.trans h.changed
  inOrder := by
    intro k j hj
    obtain ⟨j', hj', hsub⟩ := h.inOrder k j hj
    obtain ⟨j'', hj'', hsub'⟩ := h'.inOrder k j' hj'
    exact ⟨j'', hj'', hsub.trans hsub'⟩

theorem getElem?_replaced {α : Type} {before after : List α} {a a' : α} {k : Nat}
    (hk : k ≠ before.length) : (before ++ a' :: after)[k]? = (before ++ a :: after)[k]? := by
  rw [List.getElem?_append, List.getElem?_append]
  split
  · rfl
  · obtain ⟨m, hm⟩ : ∃ m, k - before.length = m + 1 := ⟨k - before.length - 1, by omega⟩
    rw [hm]
    rfl

theorem Step.matches (h : b.Step b') : b.Matches b' := by
  obtain @⟨j, j', events, n, before, after, log, changed, hstep⟩ := h
  obtain ⟨houtcome, hpending, howed⟩ := hstep.outcome_eq
  constructor
  · simp [houtcome]
  · simp only [finished, List.flatMap_append, List.flatMap_cons, ← hpending, List.append_assoc]
    exact (List.perm_append_comm_assoc _ _ _).append_left _
  · simp only [finished, List.map_append, List.map_cons, List.sum_append, List.sum_cons, ← howed]
    omega
  · intro k i hi
    by_cases hk : k = before.length
    · subst hk
      obtain rfl : j = i := by simpa using hi
      exact ⟨j', by simp, by rw [List.append_assoc, hpending]⟩
    · exact ⟨i, (getElem?_replaced hk).trans hi,
        (List.sublist_append_left _ _).append (.refl i.pending)⟩

theorem matches_of_steps (h : Relation.ReflTransGen Step b b') : b.Matches b' := by
  induction h with
  | refl => exact .refl b
  | tail _ hstep ih => exact ih.trans hstep.matches

/-- A job can be finished before the others go on. -/
theorem reaches_done (before after : List Job) (log : List Event) (changed : Nat) (j : Job) :
    Relation.ReflTransGen Step ⟨before ++ j :: after, log, changed⟩
      ⟨before ++ .done j.outcome :: after, log ++ j.pending, changed + j.owed⟩ := by
  cases j with
  | done f =>
    rw [Job.pending, Job.owed, List.append_nil]
    exact .refl
  | working f events f' c =>
    induction events generalizing log with
    | nil => exact .single (.of_job before after log changed (.write f f' c))
    | cons e events ih =>
      have hstep := Step.of_job before after log changed (.record f e events f' c)
      have hrest := ih (log ++ [e])
      rw [List.append_assoc] at hrest
      exact .head hstep hrest

theorem reaches_all_done (before after : List Job) (log : List Event) (changed : Nat) :
    Relation.ReflTransGen Step ⟨before ++ after, log, changed⟩
      ⟨before ++ after.map fun j => .done j.outcome, log ++ after.flatMap (·.pending),
        changed + (after.map (·.owed)).sum⟩ := by
  induction after generalizing before log changed with
  | nil =>
    rw [List.map_nil, List.map_nil, List.flatMap_nil, List.append_nil, List.append_nil,
      List.sum_nil, Nat.add_zero]
  | cons j after ih =>
    have hfirst := reaches_done before after log changed j
    have hrest := ih (before ++ [.done j.outcome]) (log ++ j.pending) (changed + j.owed)
    rw [List.append_assoc, List.append_assoc, List.append_assoc, Nat.add_assoc] at hrest
    exact hfirst.trans hrest

theorem reaches_finished (b : Batch) : Relation.ReflTransGen Step b b.finished :=
  reaches_all_done [] b.jobs b.log b.changed

theorem done_finished (b : Batch) : b.finished.Done := by
  intro j hj
  obtain ⟨i, -, rfl⟩ := List.mem_map.1 hj
  exact ⟨_, rfl⟩

theorem Done.finished_eq (h : b.Done) : b.finished = b := by
  have hjobs : ∀ j ∈ b.jobs, Job.done j.outcome = j ∧ j.pending = [] ∧ j.owed = 0 := by
    intro j hj
    obtain ⟨f, rfl⟩ := h j hj
    exact ⟨rfl, rfl, rfl⟩
  obtain ⟨jobs, log, changed⟩ := b
  have hpending : jobs.flatMap (·.pending) = [] :=
    List.flatMap_eq_nil_iff.2 fun j hj => (hjobs j hj).2.1
  have howed : (jobs.map (·.owed)).sum = 0 := by
    rw [List.sum_eq_zero_iff_forall_eq_nat]
    intro n hn
    obtain ⟨j, hj, rfl⟩ := List.mem_map.1 hn
    exact (hjobs j hj).2.2
  rw [finished, List.map_congr_left fun j hj => (hjobs j hj).1, List.map_id', hpending, howed,
    List.append_nil, Nat.add_zero]

end Batch

namespace Pipeline

variable (p : Pipeline)

def job (f : Function) : Job :=
  .working f (p.runFunction f).2.1 (p.runFunction f).1 (p.runFunction f).2.2

def batch (program : Program) : Batch := ⟨program.functions.map p.job, p.announcements, 0⟩

def Schedule (program : Program) (r : PipelineRun) : Prop :=
  ∃ b, Relation.ReflTransGen Batch.Step (p.batch program) b ∧ b.Done ∧ b.run = r

variable {p} {program : Program} {r : PipelineRun} {f : Function}

theorem run_finished : (p.batch program).finished.run = p.run program := by
  have hfunctions : ((program.functions.map p.job).map fun j => Job.done j.outcome).map
      (·.function) = (program.functions.map p.runFunction).map (·.1) := by
    simp only [List.map_map]
    rfl
  have hpending : (program.functions.map p.job).flatMap (·.pending) =
      (program.functions.map p.runFunction).flatMap (·.2.1) := by
    rw [List.flatMap_map, List.flatMap_map]
    rfl
  have howed : ∀ functions : List Function, ((functions.map p.job).map (·.owed)).sum =
      (functions.map p.runFunction).countP (·.2.2) := by
    intro functions
    induction functions with
    | nil => rfl
    | cons f functions ih =>
      rw [List.map_cons, List.map_cons, List.sum_cons, ih, List.map_cons, List.countP_cons,
        Nat.add_comm, job, Job.owed]
      cases (p.runFunction f).2.2 <;> rfl
  rw [Batch.run, Batch.finished, batch]
  simp only [hfunctions, hpending, howed, Nat.zero_add]
  rfl

/-- One function after the other is one way to run them side by side. -/
theorem schedule_run (p : Pipeline) (program : Program) : p.Schedule program (p.run program) :=
  ⟨_, Batch.reaches_finished _, Batch.done_finished _, run_finished⟩

/-- What any schedule leads to is what one function after the other does, but for the order in the
log; there the events of a function stand in the order in which it alone reports them. -/
theorem Schedule.agrees (h : p.Schedule program r) :
    r.program = (p.run program).program ∧ r.changed = (p.run program).changed ∧
      r.log.events.Perm (p.run program).log.events ∧
      ∀ f ∈ program.functions, (p.run ⟨[f]⟩).log.events.Sublist r.log.events := by
  obtain ⟨b, hsteps, hdone, rfl⟩ := h
  have hm := Batch.matches_of_steps hsteps
  have hprogram : ∀ b : Batch, b.finished.run.program = ⟨b.jobs.map (·.outcome)⟩ := fun b =>
    congrArg Program.mk List.map_map
  rw [← run_finished, hprogram, ← hm.outcomes, ← hprogram]
  have hevents := hm.events
  have hchanged := hm.changed
  rw [hdone.finished_eq] at hevents hchanged ⊢
  refine ⟨rfl, hchanged, hevents, fun f hf => ?_⟩
  obtain ⟨k, hk⟩ := List.mem_iff_getElem?.1 hf
  obtain ⟨j, hj, hsub⟩ := hm.inOrder k (p.job f) (by simp [batch, hk])
  obtain ⟨f', rfl⟩ := hdone j (List.mem_of_getElem? hj)
  rw [Job.pending, List.append_nil] at hsub
  have halone : (p.run ⟨[f]⟩).log.events = p.announcements ++ (p.runFunction f).2.1 := by simp [run]
  rw [halone]
  exact hsub

end Pipeline

end FlowOpt
