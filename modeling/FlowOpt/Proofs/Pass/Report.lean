import FlowOpt.Pipeline
import FlowOpt.Proofs.Pass.Extent
import FlowOpt.Proofs.Pass.Failure

/-!
# What the log of a pipeline reports

A function of which the log reports a change holds more code than before. If a pass fails behind
that, the function is given back as it was while the log stays; that takes a jump to the name of
what stands in front of the first label.
-/

namespace FlowOpt

section Passes

variable {f : Function} {r : PassRun} {names : HoistNames} {n : Nat} {p : Pass} {e : Event}

def PassRun.Transformed (r : PassRun) : Prop := ∃ e ∈ r.events, e.kind.isTransformation = true

structure PassRun.About (name : String) (r : PassRun) : Prop where
  name_eq : r.function.name = name
  events : ∀ e ∈ r.events, e.kind.isTransformation = true → e.function = some name

/-- What a run makes of the code it began with: no less, and more if it reports a change. Then it
has not failed, and cannot fail any more. -/
structure PassRun.Grown (instrs : List Instruction) (r : PassRun) : Prop where
  unnamed : ∀ changed, r.result = .ok changed → Block.FrontUnnamed r.function.instrs
  le : ∀ changed, r.result = .ok changed → Block.extent instrs ≤ Block.extent r.function.instrs
  reported : r.Transformed → (∃ changed, r.result = .ok changed) ∧
    Block.Closed r.function.instrs ∧ Block.extent instrs < Block.extent r.function.instrs

theorem PassRun.About.rounds {name : String} (h : r.About name) :
    (hoistRounds names n r).About name := by
  have hevents : ∀ (r : PassRun) o, r.About name → HoistsTo names r.function.instrs o →
      ∀ e ∈ r.events ++ o.events r.function.name, e.kind.isTransformation = true →
        e.function = some name := by
    rintro r o h ⟨blocks, -, ho⟩ e he ht
    rcases List.mem_append.1 he with he | he
    · exact h.events e he ht
    · rw [(HoistOutcome.of_mem_events ho he ht).1, h.name_eq]
  refine hoistRounds_induction (fun _ h => h) ?_ ?_ ?_ h
  · exact fun r e h _ => ⟨h.name_eq, h.events⟩
  · exact fun r o h ho _ => ⟨h.name_eq, hevents r o h ho⟩
  · exact fun r o h ho _ => ⟨h.name_eq, hevents r o h ho⟩

theorem PassRun.Grown.rounds {instrs : List Instruction} (h : r.Grown instrs)
    (hok : ∃ changed, r.result = .ok changed) : (hoistRounds names n r).Grown instrs := by
  let I (r : PassRun) := r.Grown instrs ∧ ∃ changed, r.result = .ok changed
  refine hoistRounds_induction (I := I) (fun _ h => h.1) ?_ ?_ ?_ ⟨h, hok⟩
  · rintro r e ⟨h, -⟩ he
    refine ⟨fun _ hok => (by cases hok), fun _ hok => (by cases hok), fun ht => ?_⟩
    obtain ⟨o, ho⟩ := HoistsTo.of_closed names (h.reported ht).2.1
    rw [HoistsTo.iff_eq_ok.1 ho] at he
    cases he
  · rintro r o ⟨h, -⟩ ⟨blocks, -, ho⟩ hsame
    refine ⟨h.unnamed, h.le, fun ⟨e, he, ht⟩ => h.reported ⟨e, ?_, ht⟩⟩
    refine (List.mem_append.1 he).resolve_right fun he => ?_
    rw [(HoistOutcome.of_mem_events ho he ht).2] at hsame
    cases hsame
  · rintro r o ⟨h, changed, hresult⟩ ho hmoved
    have hclosed := ho.closed (h.unnamed changed hresult)
    have hlt := (h.le changed hresult).trans_lt (ho.extent_lt hmoved)
    have hclosed' := (ho.rejoin hclosed).2
    exact ⟨⟨fun _ _ => hclosed'.frontUnnamed, fun _ _ => hlt.le,
      fun _ => ⟨⟨true, rfl⟩, hclosed', hlt⟩⟩, true, rfl⟩

theorem PassRun.Grown.refl (h : Block.FrontUnnamed f.instrs) :
    (⟨f, [], .ok false⟩ : PassRun).Grown f.instrs :=
  ⟨fun _ _ => h, fun _ _ => le_rfl, fun ⟨_, he, _⟩ => (by cases he)⟩

structure Pass.Growing (p : Pass) : Prop where
  about : ∀ f, (p.run f).About f.name
  grown : ∀ f, Block.FrontUnnamed f.instrs → (p.run f).Grown f.instrs
  closed : ∀ f, Block.Closed f.instrs → Block.Closed (p.run f).function.instrs ∧
    ∃ changed, (p.run f).result = .ok changed

theorem Pass.growing_licm (names : HoistNames) (rounds : Nat) : (Pass.licm names rounds).Growing where
  about f := PassRun.About.rounds ⟨rfl, by simp⟩
  grown f h := (PassRun.Grown.refl h).rounds ⟨false, rfl⟩
  closed f h := hoistRounds_of_closed names _ h ⟨false, rfl⟩

/-- The construction fails and writes nothing, or it writes the form of the graph. -/
theorem ssa_cases (undefined entry : String) (f : Function) :
    (∃ e, (Pass.ssa undefined entry).run f = ⟨f, [], .error e⟩ ∧ ¬ Block.Closed f.instrs) ∨
    ∃ blocks g form, Block.split f.instrs = .ok blocks ∧
      FlowGraph.ofBlocks (Block.addTerminators blocks) entry = .ok g ∧
      SsaForm.ofGraph g f.paramNames undefined = .ok form ∧
      (Pass.ssa undefined entry).run f = ⟨{ f with instrs := form.instrs },
        form.events g f.name undefined, .ok (form.instrs != f.instrs)⟩ := by
  cases hblocks : Block.split f.instrs with
  | error e =>
    refine .inl ⟨e, by simp [Pass.ssa, Function.explicitGraph, hblocks, bind, Except.bind], ?_⟩
    intro hclosed
    obtain ⟨blocks, hblocks', -⟩ := Block.closed_iff.1 hclosed
    rw [hblocks] at hblocks'
    cases hblocks'
  | ok blocks =>
    cases hg : FlowGraph.ofBlocks (Block.addTerminators blocks) entry with
    | error e =>
      refine .inl ⟨e, by simp [Pass.ssa, Function.explicitGraph, hblocks, hg, bind, Except.bind], ?_⟩
      intro hclosed
      obtain ⟨blocks', hblocks', hne, hlinked⟩ := Block.closed_iff.1 hclosed
      obtain rfl := Except.ok.inj (hblocks.symm.trans hblocks')
      obtain ⟨g, hg'⟩ := (Block.Cut.of_split hblocks).exists_graph hne hlinked entry
      rw [hg] at hg'
      cases hg'
    | ok g =>
      obtain ⟨form, hform⟩ := Ssa.ofGraph_isOk (.of_ofBlocks hg) f.paramNames undefined
      refine .inr ⟨blocks, g, form, rfl, hg, hform, ?_⟩
      simp [Pass.ssa, Function.explicitGraph, hblocks, hg, hform, bind, Except.bind, pure,
        Except.pure]

theorem Pass.growing_ssa (undefined entry : String) : (Pass.ssa undefined entry).Growing := by
  constructor
  · intro f
    rcases ssa_cases undefined entry f with ⟨e, hrun, -⟩ | ⟨blocks, g, form, -, -, -, hrun⟩
    · rw [hrun]
      exact ⟨rfl, by simp⟩
    · rw [hrun]
      exact ⟨rfl, fun e he ht => (SsaForm.of_mem_events he ht).1⟩
  · intro f hfront
    rcases ssa_cases undefined entry f with
      ⟨e, hrun, -⟩ | ⟨blocks, g, form, hblocks, hg, hofGraph, hrun⟩
    · rw [hrun]
      exact ⟨fun _ hok => (by cases hok), fun _ hok => (by cases hok), fun ⟨_, he, _⟩ => (by cases he)⟩
    · rw [hrun]
      have hclosed := (SsaForm.rejoin hblocks hg hofGraph
        (Block.closed_of_graph hblocks hg hfront)).2
      obtain ⟨hle, hlt⟩ := SsaForm.extent_le hblocks hg hofGraph
      exact ⟨fun _ _ => hclosed.frontUnnamed, fun _ _ => hle,
        fun ⟨e, he, ht⟩ => ⟨⟨_, rfl⟩, hclosed, hlt _ e he ht⟩⟩
  · intro f hclosed
    rcases ssa_cases undefined entry f with
      ⟨e, -, hnot⟩ | ⟨blocks, g, form, hblocks, hg, hofGraph, hrun⟩
    · exact absurd hclosed hnot
    · rw [hrun]
      exact ⟨(SsaForm.rejoin hblocks hg hofGraph hclosed).2, _, rfl⟩

/-- A pass behind others does nothing after a failure or on no code; otherwise it runs on the
function left behind. What the pipeline adds says neither that code changed nor that it failed. -/
theorem runPass_cases (r : PassRun) (p : Pass) :
    ((Pipeline.runPass r p).function = r.function ∧ (Pipeline.runPass r p).result = r.result ∧
      ∃ events, (Pipeline.runPass r p).events = r.events ++ events ∧
        ∀ e ∈ events, e.kind.isTransformation = false ∧ e.kind ≠ .error) ∨
    ∃ changed, r.result = .ok changed ∧
      (Pipeline.runPass r p).function = (p.run r.function).function ∧
      (Pipeline.runPass r p).result = (p.run r.function).result.map (changed || ·) ∧
      ∃ events, (Pipeline.runPass r p).events = r.events ++ (p.run r.function).events ++ events ∧
        ∀ e ∈ events, e.kind.isTransformation = false ∧ e.kind ≠ .error := by
  unfold Pipeline.runPass
  cases hresult : r.result with
  | error e => exact .inl ⟨rfl, hresult, [], by simp, by simp⟩
  | ok changed =>
    simp only
    split
    · refine .inr ⟨changed, rfl, ?_⟩
      cases hnext : (p.run r.function).result with
      | error e => exact ⟨rfl, rfl, [], by simp, by simp⟩
      | ok c =>
        cases c with
        | false => exact ⟨rfl, by simp [Except.map], [], by simp, by simp⟩
        | true =>
          exact ⟨rfl, by simp [Except.map], [_], rfl, by simp [EventKind.isTransformation]⟩
    · exact .inl ⟨rfl, rfl, [_], rfl, by simp [EventKind.isTransformation]⟩

theorem PassRun.About.runPass {name : String} (h : r.About name) (hp : p.Growing) :
    (Pipeline.runPass r p).About name := by
  obtain ⟨hname, hevents⟩ := h
  rcases runPass_cases r p with ⟨hfun, -, added, heq, hno⟩ | ⟨-, -, hfun, -, added, heq, hno⟩
  · refine ⟨hfun ▸ hname, fun e he ht => ?_⟩
    rcases List.mem_append.1 (heq ▸ he) with he | he
    · exact hevents e he ht
    · rw [(hno e he).1] at ht
      cases ht
  · have hnext := hp.about r.function
    refine ⟨hfun ▸ hnext.name_eq.trans hname, fun e he ht => ?_⟩
    rcases List.mem_append.1 (heq ▸ he) with he | he
    · rcases List.mem_append.1 he with he | he
      · exact hevents e he ht
      · exact hname ▸ hnext.events e he ht
    · rw [(hno e he).1] at ht
      cases ht

theorem PassRun.Grown.runPass {instrs : List Instruction} (h : r.Grown instrs) (hp : p.Growing) :
    (Pipeline.runPass r p).Grown instrs := by
  rcases runPass_cases r p with
    ⟨hfun, hresult, added, heq, hno⟩ | ⟨changed, hok, hfun, hresult, added, heq, hno⟩
  · have hsame : (Pipeline.runPass r p).Transformed → r.Transformed := by
      rintro ⟨e, he, ht⟩
      rcases List.mem_append.1 (heq ▸ he) with he | he
      · exact ⟨e, he, ht⟩
      · rw [(hno e he).1] at ht
        cases ht
    exact ⟨fun c hc => hfun ▸ h.unnamed c (hresult ▸ hc), fun c hc => hfun ▸ h.le c (hresult ▸ hc),
      fun ht => hresult ▸ hfun ▸ h.reported (hsame ht)⟩
  · have hnext := hp.grown r.function (h.unnamed changed hok)
    have hle := h.le changed hok
    have hends : (∃ c, (Pipeline.runPass r p).result = .ok c) ↔
        ∃ c, (p.run r.function).result = .ok c := by
      rw [hresult]
      cases (p.run r.function).result <;> simp [Except.map]
    -- Behind a reported change the pass succeeds, since the code names only labels it has.
    have hreported : (Pipeline.runPass r p).Transformed →
        (∃ changed, (p.run r.function).result = .ok changed) ∧
          Block.Closed (p.run r.function).function.instrs ∧
          Block.extent instrs < Block.extent (p.run r.function).function.instrs := by
      rintro ⟨e, he, ht⟩
      rcases List.mem_append.1 (heq ▸ he) with he | he
      · rcases List.mem_append.1 he with he | he
        · obtain ⟨-, hclosed, hlt⟩ := h.reported ⟨e, he, ht⟩
          obtain ⟨hclosed', c, hc⟩ := hp.closed r.function hclosed
          exact ⟨⟨c, hc⟩, hclosed', hlt.trans_le (hnext.le c hc)⟩
        · obtain ⟨hc, hclosed, hlt⟩ := hnext.reported ⟨e, he, ht⟩
          exact ⟨hc, hclosed, hle.trans_lt hlt⟩
      · rw [(hno e he).1] at ht
        cases ht
    refine ⟨fun c hc => ?_, fun c hc => ?_, fun ht => ?_⟩
    · obtain ⟨c', hc'⟩ := hends.1 ⟨c, hc⟩
      exact hfun ▸ hnext.unnamed c' hc'
    · obtain ⟨c', hc'⟩ := hends.1 ⟨c, hc⟩
      exact hfun ▸ hle.trans (hnext.le c' hc')
    · obtain ⟨hc, hclosed, hlt⟩ := hreported ht
      exact ⟨hends.2 hc, hfun ▸ hclosed, hfun ▸ hlt⟩

end Passes

namespace Pipeline

variable {f : Function} {e : Event} {c : Config}

theorem explicit_cases (f : Function) :
    explicit f = ⟨f, [], .ok false⟩ ∨ (∃ e, explicit f = ⟨f, [], .error e⟩) ∨
      ∃ blocks, Block.split f.instrs = .ok blocks ∧
        explicit f = ⟨{ f with instrs := Block.flatten (Block.addTerminators blocks) }, [],
          .ok (Block.flatten (Block.addTerminators blocks) != f.instrs)⟩ := by
  unfold explicit
  split
  · exact .inl rfl
  · cases Block.split f.instrs with
    | error e => exact .inr (.inl ⟨e, rfl⟩)
    | ok blocks => exact .inr (.inr ⟨blocks, rfl, rfl⟩)

theorem grown_explicit (h : Block.FrontUnnamed f.instrs) : (explicit f).Grown f.instrs := by
  rcases explicit_cases f with heq | ⟨e, heq⟩ | ⟨blocks, hblocks, heq⟩
  · rw [heq]
    exact .refl h
  · rw [heq]
    exact ⟨fun _ hok => (by cases hok), fun _ hok => (by cases hok), fun ⟨_, he, _⟩ => (by cases he)⟩
  · rw [heq]
    have hsub := Block.flatten_split hblocks ▸ Block.flatten_sublist_addTerminators blocks
    exact ⟨fun _ _ => h.addTerminators hblocks, fun _ _ => Block.extent_le_of_sublist hsub,
      fun ⟨_, he, _⟩ => (by cases he)⟩

theorem about_explicit (f : Function) : (explicit f).About f.name := by
  rcases explicit_cases f with heq | ⟨e, heq⟩ | ⟨blocks, -, heq⟩
  all_goals
    rw [heq]
    exact ⟨rfl, by simp⟩

theorem growing_of_mem_passes {p : Pass} (hp : p ∈ c.passes) : p.Growing := by
  unfold Config.passes at hp
  rcases List.mem_append.1 hp with hp | hp
  · split at hp
    · exact List.mem_singleton.1 hp ▸ Pass.growing_ssa _ _
    · cases hp
  · split at hp
    · exact List.mem_singleton.1 hp ▸ Pass.growing_licm _ _
    · cases hp

theorem runPasses_of_config (c : Config) (f : Function) :
    ((ofConfig c).runPasses f).About f.name ∧
      (Block.FrontUnnamed f.instrs → ((ofConfig c).runPasses f).Grown f.instrs) := by
  constructor
  · refine List.foldlRecOn c.passes runPass ?_ fun r hr p hp => hr.runPass (growing_of_mem_passes hp)
    split
    · exact about_explicit f
    · exact ⟨rfl, by simp⟩
  · intro h
    refine List.foldlRecOn c.passes runPass ?_ fun r hr p hp => hr.runPass (growing_of_mem_passes hp)
    split
    · exact grown_explicit h
    · exact .refl h

/-- A function keeps its name, and one that a change is reported of holds more code than before. -/
theorem runFunction_reports (c : Config) (f : Function) :
    ((ofConfig c).runFunction f).1.name = f.name ∧
      ∀ e ∈ ((ofConfig c).runFunction f).2.1, e.kind.isTransformation = true →
        e.function = some f.name ∧ (Block.FrontUnnamed f.instrs →
          Block.extent f.instrs < Block.extent ((ofConfig c).runFunction f).1.instrs) := by
  obtain ⟨habout, hgrown⟩ := runPasses_of_config c f
  unfold runFunction
  simp only
  split
  · next changed _ =>
    exact ⟨habout.name_eq, fun e he ht =>
      ⟨habout.events e he ht, fun h => ((hgrown h).reported ⟨e, he, ht⟩).2.2⟩⟩
  · next error herror =>
    refine ⟨rfl, fun e he ht => ?_⟩
    rcases List.mem_append.1 he with he | he
    · refine ⟨habout.events e he ht, fun h => ?_⟩
      obtain ⟨changed, hok⟩ := ((hgrown h).reported ⟨e, he, ht⟩).1
      rw [hok] at herror
      cases herror
    · obtain rfl := List.mem_singleton.1 he
      cases ht

/-- A function of the program that a transformation of the log names is not what it was, if none of
its jumps names what stands in front of its first label. -/
theorem run_reports_changes (c : Config) (program : Program)
    (hnames : (program.functions.map (·.name)).Nodup) :
    ((ofConfig c).run program).program.functions.map (·.name) = program.functions.map (·.name) ∧
      ∀ e ∈ ((ofConfig c).run program).log.events, e.kind.isTransformation = true →
        ∃ f ∈ program.functions, e.function = some f.name ∧ (Block.FrontUnnamed f.instrs →
          ∀ f' ∈ ((ofConfig c).run program).program.functions, f'.name = f.name →
            f' ≠ f ∧ (f' == f) = false) := by
  have hfunctions : ((ofConfig c).run program).program.functions =
      program.functions.map fun f => ((ofConfig c).runFunction f).1 := List.map_map
  constructor
  · rw [hfunctions, List.map_map]
    exact List.map_congr_left fun f _ => (runFunction_reports c f).1
  · intro e he ht
    rcases List.mem_append.1 he with he | he
    · obtain ⟨pass, -, rfl⟩ := List.mem_map.1 he
      cases ht
    · rw [List.flatMap_map] at he
      obtain ⟨f, hf, he⟩ := List.mem_flatMap.1 he
      obtain ⟨-, hreports⟩ := runFunction_reports c f
      obtain ⟨hname, hgrown⟩ := hreports e he ht
      refine ⟨f, hf, hname, fun hfront f' hf' hname' => ?_⟩
      rw [hfunctions] at hf'
      obtain ⟨f₀, hf₀, rfl⟩ := List.mem_map.1 hf'
      obtain rfl := List.inj_on_of_nodup_map hnames hf₀ hf
        ((runFunction_reports c f₀).1.symm.trans hname')
      have hlt := hgrown hfront
      refine ⟨fun heq => ?_, Bool.eq_false_iff.2 fun heq => ?_⟩
      · rw [heq] at hlt
        exact lt_irrefl _ hlt
      · have hequal : Function.equal ((ofConfig c).runFunction f₀).1 f₀ = true := heq
        simp only [Function.equal, Bool.and_eq_true] at hequal
        exact hlt.ne (Block.extent_eq_of_beq hequal.2).symm

def assigning : Function where
  name := "main"
  instrs := [.constant "x" (.named "int") (.int 1), .effect "print" ["x"], .ret []]

theorem assigning_reported : ([assigning].map (·.name)).Nodup ∧
    Block.FrontUnnamed assigning.instrs ∧
    ∃ e ∈ ((ofConfig { enableSsa := true }).run ⟨[assigning]⟩).log.events,
      e.kind = .variableRenamed ∧ e.function = some "main" ∧
        ∀ f' ∈ ((ofConfig { enableSsa := true }).run ⟨[assigning]⟩).program.functions,
          f'.name = "main" → f' ≠ assigning ∧ (f' == assigning) = false := by
  have hnames : ([assigning].map (·.name)).Nodup := by decide
  have hfront : Block.FrontUnnamed assigning.instrs := by decide +kernel
  have hevent : ∃ e ∈ ((ofConfig { enableSsa := true }).run ⟨[assigning]⟩).log.events,
      e.kind = .variableRenamed := by decide +kernel
  obtain ⟨e, he, hkind⟩ := hevent
  obtain ⟨f, hf, hname, hchanged⟩ :=
    (run_reports_changes { enableSsa := true } ⟨[assigning]⟩ hnames).2 e he (hkind ▸ rfl)
  obtain rfl := List.mem_singleton.1 hf
  exact ⟨hnames, hfront, e, he, hkind, hname, hchanged hfront⟩

def jumpingToFront : Function where
  name := "main"
  instrs := [.jump "b0"]

/-- The block put in front takes in what follows it. The pass behind misses that, and the entry
reported is not in the function given back. -/
theorem jumpingToFront_given_back :
    (∃ e ∈ ((ofConfig { enableSsa := true }).run ⟨[jumpingToFront]⟩).log.events,
      e.kind.isTransformation = true ∧ e.function = some jumpingToFront.name) ∧
    ((ofConfig { enableSsa := true }).run ⟨[jumpingToFront]⟩).program.functions =
      [jumpingToFront] := by
  decide +kernel

end Pipeline

end FlowOpt
