import FlowOpt.Proofs.Pass.Report
import FlowOpt.Proofs.Pass.Schedule
import FlowOpt.Proofs.Program.Equality

/-!
# What a pipeline accounts for

Whether a function changed is put together from what its stages say, each of which compares with
what it was given. It is right for all of them since none takes away what an earlier one put in: the
code that is written out and the code that is hoisted are more than they were, and no form is less
than what it is made of. A function on which some stage fails is given back as it was, with one
error in the log.
-/

namespace FlowOpt

variable {f f' : Function} {r : PassRun} {instrs instrs' : List Instruction} {names : HoistNames}
  {n : Nat} {p : Pass} {c : Config} {e : Error} {changed : Bool}

def Function.signature (f : Function) : String × List Parameter × Option Ty :=
  (f.name, f.params, f.ty)

theorem Function.bne_eq (h : f'.signature = f.signature) :
    (f' != f) = (f'.instrs != f.instrs) := by
  obtain ⟨hname, hparams, hty⟩ : f'.name = f.name ∧ f'.params = f.params ∧ f'.ty = f.ty := by
    simpa [signature] using h
  change (!Function.equal f' f) = _
  rw [Function.equal, hname, hparams, hty, BEq.rfl, BEq.rfl, BEq.rfl]
  rfl

theorem Block.bne_of_extent_lt (h : extent instrs < extent instrs') :
    (instrs' != instrs) = true := by
  by_contra hsame
  rw [Bool.not_eq_true, bne, Bool.not_eq_false'] at hsame
  exact h.ne (extent_eq_of_beq hsame).symm

section Stages

/-- The run is on the function of the name and keeps all but its code; nothing is said to be an
error on the way. -/
structure PassRun.Tracks (f : Function) (r : PassRun) : Prop where
  signature : r.function.signature = f.signature
  noError : ∀ e ∈ r.events, e.kind ≠ .error

/-- Code that is said to be the same is the same, and code that is said to have changed is more. -/
structure PassRun.Expands (instrs : List Instruction) (r : PassRun) : Prop where
  same : r.result = .ok false → r.function.instrs = instrs
  more : r.result = .ok true → Block.extent instrs < Block.extent r.function.instrs

/-- Code is no less than it was, and is said to have changed just if it does not equal what it
was. -/
def PassRun.Accounted (instrs : List Instruction) (r : PassRun) : Prop :=
  ∀ changed, r.result = .ok changed →
    Block.extent instrs ≤ Block.extent r.function.instrs ∧
      changed = (r.function.instrs != instrs)

theorem PassRun.Expands.refl (f : Function) : (⟨f, [], .ok false⟩ : PassRun).Expands f.instrs :=
  ⟨fun _ => rfl, fun h => by cases h⟩

theorem PassRun.Expands.accounted (h : r.Expands instrs) (hself : (instrs == instrs) = true) :
    r.Accounted instrs := by
  intro changed hok
  cases changed with
  | false =>
    rw [h.same hok, bne, hself]
    exact ⟨le_rfl, rfl⟩
  | true =>
    have hlt := h.more hok
    exact ⟨hlt.le, (Block.bne_of_extent_lt hlt).symm⟩

theorem PassRun.Expands.rounds (h : r.Expands instrs) (hok : ∃ changed, r.result = .ok changed) :
    (hoistRounds names n r).Expands instrs := by
  let I (r : PassRun) := r.Expands instrs ∧ ∃ changed, r.result = .ok changed
  refine hoistRounds_induction (I := I) (fun _ h => h.1) ?_ ?_ ?_ ⟨h, hok⟩
  · exact fun r e _ _ => ⟨fun h => (by cases h), fun h => (by cases h)⟩
  · exact fun r o h _ _ => ⟨h.1.same, h.1.more⟩
  · rintro r o ⟨h, changed, hok⟩ ho hmoved
    have hlt := ho.extent_lt hmoved
    have hmore : Block.extent instrs < Block.extent (Block.flatten o.blocks) := by
      cases changed with
      | false => exact h.same hok ▸ hlt
      | true => exact (h.more hok).trans hlt
    exact ⟨⟨fun h => (by cases h), fun _ => hmore⟩, true, rfl⟩

theorem Pass.expands_licm (names : HoistNames) (rounds : Nat) (f : Function) :
    ((Pass.licm names rounds).run f).Expands f.instrs :=
  (PassRun.Expands.refl f).rounds ⟨false, rfl⟩

theorem Pass.accounted_ssa (undefined entry : String) (f : Function) :
    ((Pass.ssa undefined entry).run f).Accounted f.instrs := by
  intro changed hok
  rcases ssa_cases undefined entry f with
    ⟨e, hrun, -⟩ | ⟨blocks, g, form, hblocks, hg, hform, hrun⟩
  · rw [hrun] at hok
    cases hok
  · rw [hrun] at hok ⊢
    obtain rfl := Except.ok.inj hok
    exact ⟨(SsaForm.extent_le hblocks hg hform).1, rfl⟩

theorem PassRun.Tracks.rounds (h : r.Tracks f) : (hoistRounds names n r).Tracks f := by
  have hevents : ∀ (r : PassRun) (o : HoistOutcome), r.Tracks f →
      ∀ e ∈ r.events ++ o.events r.function.name, e.kind ≠ .error := by
    intro r o h e he
    rcases List.mem_append.1 he with he | he
    · exact h.noError e he
    · simp only [HoistOutcome.events, List.mem_append, List.mem_map] at he
      rcases he with ((⟨_, -, rfl⟩ | ⟨_, -, rfl⟩) | ⟨_, -, rfl⟩) | ⟨_, -, rfl⟩ <;> simp
  refine hoistRounds_induction (fun _ h => h) ?_ ?_ ?_ h
  · exact fun r e h _ => ⟨h.signature, h.noError⟩
  · exact fun r o h _ _ => ⟨h.signature, hevents r o h⟩
  · exact fun r o h _ _ => ⟨h.signature, hevents r o h⟩

theorem SsaForm.noError_events (form : SsaForm) (g : FlowGraph) (function undefined : String) :
    ∀ e ∈ form.events g function undefined, e.kind ≠ .error := by
  intro e he
  simp only [events, List.mem_append] at he
  rcases he with ((he | he) | he) | he
  · split at he
    · simp [List.mem_singleton.1 he]
    · cases he
  · obtain ⟨⟨block, phis⟩, -, he⟩ := List.mem_flatMap.1 he
    obtain ⟨p, -, rfl⟩ := List.mem_map.1 he
    simp
  · split at he
    · simp [List.mem_singleton.1 he]
    · cases he
  · split at he
    · simp [List.mem_singleton.1 he]
    · cases he

theorem tracks_of_mem_passes (hp : p ∈ c.passes) (f : Function) : (p.run f).Tracks f := by
  unfold Config.passes at hp
  rcases List.mem_append.1 hp with hp | hp
  · split at hp
    · obtain rfl := List.mem_singleton.1 hp
      rcases ssa_cases c.undefinedName c.names.entry f with
        ⟨e, hrun, -⟩ | ⟨blocks, g, form, -, -, -, hrun⟩
      · rw [hrun]
        exact ⟨rfl, by simp⟩
      · rw [hrun]
        exact ⟨rfl, form.noError_events g _ _⟩
    · cases hp
  · split at hp
    · obtain rfl := List.mem_singleton.1 hp
      exact PassRun.Tracks.rounds ⟨rfl, by simp⟩
    · cases hp

theorem PassRun.Tracks.runPass (h : r.Tracks f) (hp : (p.run r.function).Tracks r.function) :
    (Pipeline.runPass r p).Tracks f := by
  rcases runPass_cases r p with
    ⟨hfun, -, added, heq, hno⟩ | ⟨-, -, hfun, -, added, heq, hno⟩
  · refine ⟨hfun ▸ h.signature, fun e he => ?_⟩
    rcases List.mem_append.1 (heq ▸ he) with he | he
    · exact h.noError e he
    · exact (hno e he).2
  · refine ⟨hfun ▸ hp.signature.trans h.signature, fun e he => ?_⟩
    rcases List.mem_append.1 (heq ▸ he) with he | he
    · rcases List.mem_append.1 he with he | he
      · exact h.noError e he
      · exact hp.noError e he
    · exact (hno e he).2

/-- Behind a pass that did something, code has changed if it had before or the pass says so. -/
theorem runPass_eq_ok (h : (Pipeline.runPass r p).result = .ok changed) :
    (r.result = .ok changed ∧ (Pipeline.runPass r p).function = r.function) ∨
    ∃ before now, r.result = .ok before ∧ (p.run r.function).result = .ok now ∧
      changed = (before || now) ∧
      (Pipeline.runPass r p).function = (p.run r.function).function := by
  rcases runPass_cases r p with ⟨hfun, hresult, -⟩ | ⟨before, hok, hfun, hresult, -⟩
  · exact .inl ⟨hresult ▸ h, hfun⟩
  · rw [hresult] at h
    cases hnow : (p.run r.function).result with
    | error e =>
      rw [hnow] at h
      cases h
    | ok now =>
      rw [hnow] at h
      exact .inr ⟨before, now, hok, rfl, (Except.ok.inj h).symm, hfun⟩

/-- What has only grown so far may be compared with what a pass was given. -/
theorem PassRun.Expands.runPass (h : r.Expands instrs) (hself : (instrs == instrs) = true)
    (hp : (p.run r.function).Accounted r.function.instrs) :
    (Pipeline.runPass r p).Accounted instrs := by
  intro changed hok
  rcases runPass_eq_ok hok with ⟨hresult, hfun⟩ | ⟨before, now, hbefore, hnow, rfl, hfun⟩
  · exact hfun ▸ h.accounted hself changed hresult
  · rw [hfun]
    obtain ⟨hle, hchanged⟩ := hp now hnow
    cases before with
    | false =>
      rw [h.same hbefore] at hle hchanged
      exact ⟨hle, hchanged⟩
    | true =>
      have hlt := (h.more hbefore).trans_le hle
      exact ⟨hlt.le, (Block.bne_of_extent_lt hlt).symm⟩

/-- What a pass adds cannot make up for what has changed so far. -/
theorem PassRun.Accounted.runPass (h : r.Accounted instrs)
    (hp : (p.run r.function).Expands r.function.instrs) :
    (Pipeline.runPass r p).Accounted instrs := by
  intro changed hok
  rcases runPass_eq_ok hok with ⟨hresult, hfun⟩ | ⟨before, now, hbefore, hnow, rfl, hfun⟩
  · exact hfun ▸ h changed hresult
  · rw [hfun]
    obtain ⟨hle, hchanged⟩ := h before hbefore
    cases now with
    | false =>
      rw [hp.same hnow, Bool.or_false]
      exact ⟨hle, hchanged⟩
    | true =>
      have hlt := hle.trans_lt (hp.more hnow)
      rw [Bool.or_true]
      exact ⟨hlt.le, (Block.bne_of_extent_lt hlt).symm⟩

end Stages

def Function.failed (f : Function) (e : Error) : Event :=
  { kind := .error, function := f.name, message := e.message }

namespace Pipeline

def failure? (p : Pipeline) (f : Function) : Option Error :=
  match (p.runPasses f).result with
  | .ok _ => none
  | .error e => some e

theorem expands_explicit (hself : (f.instrs == f.instrs) = true) :
    (explicit f).Expands f.instrs := by
  rcases explicit_cases f with heq | ⟨e, heq⟩ | ⟨blocks, hblocks, heq⟩
  · rw [heq]
    exact .refl f
  · rw [heq]
    exact ⟨fun h => (by cases h), fun h => (by cases h)⟩
  · rw [heq]
    have hsub := Block.flatten_split hblocks ▸ Block.flatten_sublist_addTerminators blocks
    constructor
    · intro hok
      have hbeq := Except.ok.inj hok
      rw [bne, Bool.not_eq_false'] at hbeq
      by_contra hne
      exact (Block.extent_lt_of_sublist hsub (Ne.symm hne)).ne (Block.extent_eq_of_beq hbeq).symm
    · intro hok
      have hbne := Except.ok.inj hok
      apply Block.extent_lt_of_sublist hsub
      intro hsame
      rw [← hsame, bne, hself] at hbne
      cases hbne

theorem tracks_explicit (f : Function) : (explicit f).Tracks f := by
  rcases explicit_cases f with heq | ⟨e, heq⟩ | ⟨blocks, -, heq⟩
  all_goals
    rw [heq]
    exact ⟨rfl, by simp⟩

theorem runPasses_tracks (c : Config) (f : Function) : ((ofConfig c).runPasses f).Tracks f := by
  refine List.foldlRecOn c.passes runPass ?_ fun r hr p hp =>
    hr.runPass (tracks_of_mem_passes hp r.function)
  split
  · exact tracks_explicit f
  · exact ⟨rfl, by simp⟩

/-- Of all stages together it is said that code changed just if they made other code of it. -/
theorem runPasses_accounted (c : Config) (hself : (f.instrs == f.instrs) = true) :
    ((ofConfig c).runPasses f).Accounted f.instrs := by
  obtain ⟨start, hstart, hexpands⟩ : ∃ start, (ofConfig c).runPasses f =
      c.passes.foldl runPass start ∧ start.Expands f.instrs := by
    refine ⟨_, rfl, ?_⟩
    split
    · exact expands_explicit hself
    · exact .refl f
  rw [hstart, Config.passes, List.foldl_append]
  have hssa : ((if c.enableSsa then [Pass.ssa c.undefinedName c.names.entry] else []).foldl runPass
      start).Accounted f.instrs := by
    split
    · exact hexpands.runPass hself (Pass.accounted_ssa _ _ _)
    · exact hexpands.accounted hself
  generalize (if c.enableSsa then [Pass.ssa c.undefinedName c.names.entry] else []).foldl runPass
    start = r at hssa ⊢
  split
  · exact hssa.runPass (Pass.expands_licm _ _ _)
  · exact hssa

theorem runFunction_accounts (c : Config) (hself : (f.instrs == f.instrs) = true) :
    ((ofConfig c).runFunction f).1.signature = f.signature ∧
      (∀ e, (ofConfig c).failure? f = some e → ((ofConfig c).runFunction f).1 = f) ∧
      ((ofConfig c).runFunction f).2.1.filter (·.kind == .error) =
        ((ofConfig c).failure? f).toList.map f.failed ∧
      ((ofConfig c).runFunction f).2.2 = (((ofConfig c).runFunction f).1 != f) := by
  have htracks := runPasses_tracks c f
  have haccounted := runPasses_accounted c hself
  have hnone : ((ofConfig c).runPasses f).events.filter (·.kind == .error) = [] :=
    List.filter_eq_nil_iff.2 fun e he => by simpa using htracks.noError e he
  cases hresult : ((ofConfig c).runPasses f).result with
  | ok changed =>
    simp only [runFunction, failure?, hresult]
    refine ⟨htracks.signature, fun e he => (by cases he), hnone, ?_⟩
    rw [Function.bne_eq htracks.signature]
    exact (haccounted changed hresult).2
  | error e =>
    simp only [runFunction, failure?, hresult]
    refine ⟨trivial, fun _ _ => trivial, ?_, ?_⟩
    · rw [List.filter_append, hnone]
      rfl
    · rw [Function.bne_eq rfl, bne, hself]
      rfl

end Pipeline

/-- How a program may be run: one function after the other, or all side by side. -/
def Config.Runs (c : Config) (program : Program) (r : PipelineRun) : Prop :=
  if c.parallel then (Pipeline.ofConfig c).Schedule program r
  else r = (Pipeline.ofConfig c).run program

open Pipeline

structure Config.Accounts (c : Config) (program : Program) (r : PipelineRun) : Prop where
  signatures : r.program.functions.map (·.signature) = program.functions.map (·.signature)
  /-- A function is given back as it was if something fails on it. -/
  failed : ∀ (k : Nat) (f : Function) (e : Error), program.functions[k]? = some f → (ofConfig c).failure? f = some e →
    r.program.functions[k]? = some f
  /-- There is one error in the log for each of those functions, and no other. -/
  errors : (r.log.events.filter (·.kind == .error)).Perm
    (program.functions.flatMap fun f => ((ofConfig c).failure? f).toList.map f.failed)
  /-- Each function becomes what it does alone, and its events stand in the same order. -/
  alone : ∀ (k : Nat) (f : Function), program.functions[k]? = some f →
    ∃ f', r.program.functions[k]? = some f' ∧
    ∀ r', c.Runs ⟨[f]⟩ r' →
      r'.program.functions = [f'] ∧ r'.log.events.Sublist r.log.events
  changed : r.changed =
    (program.functions.zip r.program.functions).countP fun (f, f') => f' != f

variable {program : Program}

theorem Config.Runs.schedule {r : PipelineRun} (h : c.Runs program r) :
    (ofConfig c).Schedule program r := by
  unfold Config.Runs at h
  split at h
  · exact h
  · exact h ▸ schedule_run _ _

theorem Config.exists_runs (c : Config) (program : Program) : ∃ r, c.Runs program r := by
  refine ⟨(ofConfig c).run program, ?_⟩
  unfold Config.Runs
  split
  · exact schedule_run _ _
  · rfl

/-- One after the other, functions are accounted for one by one. -/
theorem Pipeline.run_changed (c : Config)
    (hf : ∀ f ∈ program.functions, (f.instrs == f.instrs) = true) :
    ((ofConfig c).run program).changed = (program.functions.zip
      ((ofConfig c).run program).program.functions).countP fun (f, f') => f' != f := by
  have hzip : ∀ functions : List Function, (∀ f ∈ functions, (f.instrs == f.instrs) = true) →
      (functions.map (ofConfig c).runFunction).countP (·.2.2) =
        (functions.zip ((functions.map (ofConfig c).runFunction).map (·.1))).countP
          fun (f, f') => f' != f := by
    intro functions
    induction functions with
    | nil => exact fun _ => rfl
    | cons f functions ih =>
      intro hf
      obtain ⟨-, -, -, hchanged⟩ := runFunction_accounts c (hf f List.mem_cons_self)
      rw [List.map_cons, List.map_cons, List.zip_cons_cons, List.countP_cons, List.countP_cons,
        ih fun f h => hf f (List.mem_cons_of_mem _ h), hchanged]
  exact hzip program.functions hf

theorem Pipeline.run_errors (c : Config)
    (hf : ∀ f ∈ program.functions, (f.instrs == f.instrs) = true) :
    ((ofConfig c).run program).log.events.filter (·.kind == .error) =
      program.functions.flatMap fun f => ((ofConfig c).failure? f).toList.map f.failed := by
  have hannounced : (ofConfig c).announcements.filter (·.kind == .error) = [] := by
    rw [List.filter_eq_nil_iff]
    intro e he
    obtain ⟨pass, -, rfl⟩ := List.mem_map.1 he
    simp
  rw [run, List.filter_append, hannounced, List.nil_append, List.filter_flatMap, List.flatMap_map]
  exact List.flatMap_congr fun f hmem => (runFunction_accounts c (hf f hmem)).2.2.1

/-- Programs without literals that are no numbers are accounted for, whatever passes run and
however their functions are scheduled. -/
theorem Config.runs_account (c : Config) (program : Program)
    (hf : ∀ f ∈ program.functions, ∀ i ∈ f.instrs, i.NaNFree) :
    (∃ r, c.Runs program r) ∧ ∀ r, c.Runs program r → c.Accounts program r := by
  refine ⟨c.exists_runs program, fun r hr => ?_⟩
  have hself : ∀ f ∈ program.functions, (f.instrs == f.instrs) = true := fun f h =>
    beq_self_of_forall_mem fun i hi => Instruction.beq_self (hf f h i hi)
  obtain ⟨hprogram, hchanged, hevents, hsub⟩ := hr.schedule.agrees
  have hfunctions : r.program.functions =
      program.functions.map fun f => ((ofConfig c).runFunction f).1 := by
    rw [hprogram]
    exact List.map_map
  have hget : ∀ (k : Nat) (f : Function), program.functions[k]? = some f →
      r.program.functions[k]? = some ((ofConfig c).runFunction f).1 := by
    intro k f hk
    rw [hfunctions, List.getElem?_map, hk]
    rfl
  constructor
  case signatures =>
    rw [hfunctions, List.map_map]
    exact List.map_congr_left fun f h => (runFunction_accounts c (hself f h)).1
  case failed =>
    intro k f e hk he
    have hmem := List.mem_of_getElem? hk
    rw [hget k f hk, (runFunction_accounts c (hself f hmem)).2.1 e he]
  case errors =>
    rw [← run_errors c hself]
    exact hevents.filter _
  case alone =>
    intro k f hk
    refine ⟨_, hget k f hk, fun r' hr' => ?_⟩
    obtain ⟨hprogram', -, hevents', hsub'⟩ := hr'.schedule.agrees
    have hlog := (hsub' f List.mem_cons_self).eq_of_length hevents'.length_eq.symm
    exact ⟨hprogram' ▸ rfl, hlog ▸ hsub f (List.mem_of_getElem? hk)⟩
  case changed =>
    rw [hchanged, hprogram]
    exact run_changed c hself

def threefold : Program :=
  ⟨[jumpingToFront, assigning, { name := "leave", instrs := [.ret []] }]⟩

def sideBySide : Config := { enableSsa := true, parallel := true, maxLicmRounds := 2 }

theorem threefold_accounted :
    (∀ f ∈ threefold.functions, ∀ i ∈ f.instrs, i.NaNFree) ∧
    (ofConfig sideBySide).failure? jumpingToFront = some (.unknownLabel "entry.0" "b0") ∧
    ∃ r, sideBySide.Runs threefold r ∧ sideBySide.Accounts threefold r ∧ r.changed = 1 ∧
      r.program.functions[0]? = some jumpingToFront := by
  have hf : ∀ f ∈ threefold.functions, ∀ i ∈ f.instrs, i.NaNFree := by decide +kernel
  have hfails : (ofConfig sideBySide).failure? jumpingToFront =
      some (.unknownLabel "entry.0" "b0") := by
    decide +kernel
  have hcount : ((ofConfig sideBySide).run threefold).changed = 1 := by decide +kernel
  obtain ⟨-, haccounts⟩ := Config.runs_account sideBySide threefold hf
  have hruns : sideBySide.Runs threefold ((ofConfig sideBySide).run threefold) :=
    schedule_run _ _
  exact ⟨hf, hfails, _, hruns, haccounts _ hruns, hcount,
    (haccounts _ hruns).failed 0 _ _ rfl hfails⟩

end FlowOpt
