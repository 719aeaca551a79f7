import FlowOpt.Proofs.Block

/-!
# Running code with its jumps written out

Code with its jumps written out has every run of the code. It shows the same but for the jumps that
take the place of running on into the next block.
-/

namespace FlowOpt

namespace Block

open FlowOpt.Execution

variable {V E : Type} {blocks : List Block} {I : Interp V} {σ : Store V}
  {effects : List (Effect V)} {es : List (RunEvent V)} {st : State V}
  {shown : RunEvent V → Option E}

/-- The same point of a block in the code and with the jumps written out, where a jump may stand
behind the rest, or the end of both. -/
inductive WithJumps (blocks : List Block) : State V → State V → Prop
  | inside {k : Nat} {b : Block} {done rest back : List Instruction} {σ : Store V}
      {effects : List (Effect V)} (hk : blocks[k]? = some b) (hinstrs : b.instrs = done ++ rest)
      (hdone : ∀ i ∈ done, i.isTerminator = false)
      (hback : (b.fallsThrough = true ∧ ∃ n, blocks[k + 1]?.map (·.name) = some n ∧
          back = [.jump n]) ∨
        (back = [] ∧ (b.fallsThrough = false ∨ blocks[k + 1]?.map (·.name) = none))) :
      WithJumps blocks ⟨.inside b.name rest, σ, effects⟩
        ⟨.inside b.name (rest ++ back), σ, effects⟩
  | finished {σ : Store V} {effects : List (Effect V)} :
      WithJumps blocks ⟨.finished, σ, effects⟩ ⟨.finished, σ, effects⟩

theorem WithJumps.pass {k : Nat} {b : Block} {done rest back : List Instruction} {i : Instruction}
    (hk : blocks[k]? = some b) (hinstrs : b.instrs = done ++ i :: rest)
    (hdone : ∀ j ∈ done, j.isTerminator = false) (hi : i.isTerminator = false)
    (hback : (b.fallsThrough = true ∧ ∃ n, blocks[k + 1]?.map (·.name) = some n ∧
        back = [.jump n]) ∨
      (back = [] ∧ (b.fallsThrough = false ∨ blocks[k + 1]?.map (·.name) = none)))
    (σ : Store V) (effects : List (Effect V)) :
    WithJumps blocks ⟨.inside b.name rest, σ, effects⟩
      ⟨.inside b.name (rest ++ back), σ, effects⟩ := by
  obtain ⟨hinstrs', hdone'⟩ := passed_concat hinstrs hdone hi
  exact .inside hk hinstrs' hdone' hback

theorem WithJumps.same_place {t : State V} (h : WithJumps blocks st t) :
    t.point.block? = st.point.block? ∧ t.effects = st.effects := by
  cases h <;> exact ⟨rfl, rfl⟩

theorem isHead_eq_false_of_head? {b : Block} {i : Instruction} {back : List Instruction}
    (hback : ∀ j ∈ back, isHead j = false) (hi : (b.body ++ back).head? = some i) :
    isHead i = false := by
  have hfirst := List.head?_dropWhile_not isHead b.instrs
  rw [← body] at hfirst
  cases hbody : b.body with
  | cons j rest =>
    rw [hbody] at hi hfirst
    obtain rfl : j = i := by simpa using hi
    simpa using hfirst
  | nil =>
    rw [hbody, List.nil_append] at hi
    exact hback i (List.mem_of_mem_head? hi)

variable (hlabels : ∀ b ∈ blocks, ∀ i ∈ b.instrs, i.isLabel = true → ∃ l, i = .atLabel l)
include hlabels

/-- A block is entered with its jump as without it: it has the same phis, and the rest behind them
is followed by the jump. -/
theorem enters_addTerminators {source : Option String} {target : String}
    (h : Enters blocks source target σ effects es st) :
    ∃ st', Enters (addTerminators blocks) source target σ effects es st' ∧
      WithJumps blocks st st' := by
  obtain ⟨hb, hname, hvalues⟩ := h
  next b values =>
  obtain ⟨k, hk⟩ := List.mem_iff_getElem?.1 hb
  obtain ⟨b', hb', hex⟩ := addTerminators_getElem? hk
  obtain ⟨front, back, hinstrs, hfront, hback⟩ := hex.instrs_eq
  have hsplit : b'.instrs = (front ++ b.instrs.takeWhile isHead) ++ (b.body ++ back) := by
    rw [hinstrs]
    conv_lhs => rw [instrs_eq_append_body b]
    simp only [List.append_assoc]
  have hheads : ∀ i ∈ front ++ b.instrs.takeWhile isHead, isHead i = true := by
    intro i hi
    rcases List.mem_append.1 hi with hi | hi
    · rw [hfront i hi]
      rfl
    · exact List.all_eq_true.1 List.all_takeWhile i hi
  have hjump : ∀ j ∈ back, isHead j = false := by
    rcases hback with ⟨-, n, -, rfl⟩ | ⟨rfl, -⟩
    · simp [isHead, Instruction.jump, Instruction.isLabel, Instruction.isPhi]
    · simp
  obtain ⟨hphis, hbody⟩ :=
    head_of_append hsplit hheads fun i hi => isHead_eq_false_of_head? hjump hi
  have hnone : front.filter (·.isPhi) = [] := by
    rw [List.filter_eq_nil_iff]
    intro i hi
    rw [hfront i hi]
    exact Bool.false_ne_true
  rw [List.filter_append, hnone, List.nil_append] at hphis
  have henters : Enters (addTerminators blocks) source target σ effects (entryEvents b' values)
      ⟨.inside b'.name b'.body, σ.assignAll b'.headPhis values, effects⟩ :=
    .intro (List.mem_of_getElem? hb') (hex.name_eq.trans hname) (hphis ▸ hvalues)
  have hevents : entryEvents b' values = entryEvents b values := by
    rw [entryEvents, entryEvents, hex.name_eq, hphis, headPhis]
  rw [hevents, hex.name_eq, hbody, hphis] at henters
  exact ⟨_, henters, .inside hk (instrs_eq_append_body b)
    (fun i hi => isTerminator_of_mem_head (hlabels b hb) hi) hback⟩

/-- Running on into the next block is answered by a jump, every other step by itself. -/
theorem steps_addTerminators (hn : (blocks.map (·.name)).Nodup) (shown : RunEvent V → Option E)
    (hshown : ∀ b args taken, shown ⟨b, .branch (some "jmp") args taken⟩ = none) {st' t : State V}
    (hstep : Step blocks I st es st') (h : WithJumps blocks st t) :
    ∃ es' t', Step (addTerminators blocks) I t es' t' ∧ WithJumps blocks st' t' ∧
      es'.filterMap shown = es.filterMap shown := by
  cases h with
  | finished => cases hstep
  | @inside k b done rest back σ effects hk hinstrs hdone hback =>
    have hnext : following (blocks.map (·.name)) b.name = blocks[k + 1]?.map (·.name) := by
      rw [following_eq_getElem? hn (k := k) (by rw [List.getElem?_map, hk]; rfl), List.getElem?_map]
    cases hstep with
    | @label _ i rest _ _ hl =>
      have hi : i ∈ b.instrs := by simp [hinstrs]
      obtain ⟨l, rfl⟩ := hlabels b (List.mem_of_getElem? hk) i hi hl
      exact ⟨_, _, .label hl, .pass hk hinstrs hdone rfl hback _ _, rfl⟩
    | branch hl hi ha ht henter =>
      obtain ⟨t', henter', ht'⟩ := enters_addTerminators hlabels henter
      exact ⟨_, t', .branch hl hi ha ht henter', ht', rfl⟩
    | ret hl hi ha => exact ⟨_, _, .ret hl hi ha, .finished, rfl⟩
    | operation hl hi ha hr =>
      exact ⟨_, _, .operation hl hi ha hr, .pass hk hinstrs hdone hi hback _ _, rfl⟩
    | @runOn _ target _ _ _ _ hf henter =>
      have hfalls : b.fallsThrough = true := by
        apply fallsThrough_of_forall
        rw [hinstrs, List.append_nil]
        exact hdone
      rw [hnext] at hf
      rw [hfalls, hf] at hback
      -- The block runs on, so its jump is written out, and it is what answers the step.
      obtain rfl : back = [.jump target] := by
        rcases hback with ⟨-, n, hname, rfl⟩ | ⟨-, hnot | hnot⟩
        · rw [Option.some.inj hname]
        · cases hnot
        · cases hnot
      obtain ⟨t', henter', ht'⟩ := enters_addTerminators hlabels henter
      have hjump : Step (addTerminators blocks) I ⟨.inside b.name [.jump target], σ, effects⟩
          (⟨b.name, .branch (some "jmp") [] true⟩ :: es) t' :=
        .branch rfl rfl rfl rfl henter'
      exact ⟨_, t', hjump, ht', List.filterMap_cons_none (hshown _ _ _)⟩
    | finish hf =>
      rw [hnext] at hf
      obtain rfl : back = [] := by
        rcases hback with ⟨-, n, hname, -⟩ | ⟨hnil, -⟩
        · rw [hf] at hname
          cases hname
        · exact hnil
      have hf' : following ((addTerminators blocks).map (·.name)) b.name = none := by
        rw [names_addTerminators, hnext, hf]
      exact ⟨_, _, .finish hf', .finished, rfl⟩

omit hlabels in
theorem head_addTerminators {first : Block} (hfirst : blocks.head? = some first) :
    ∃ first', (addTerminators blocks).head? = some first' ∧ first'.name = first.name := by
  have hhead : ((addTerminators blocks).map (·.name)).head? = some first.name := by
    rw [names_addTerminators, List.head?_map, hfirst]
    rfl
  rwa [List.head?_map, Option.map_eq_some_iff] at hhead

/-- Every run of the code is one of the code with its jumps written out. -/
theorem runs_addTerminators (hn : (blocks.map (·.name)).Nodup)
    (hshown : ∀ b args taken, shown ⟨b, .branch (some "jmp") args taken⟩ = none)
    (hrun : RunsFrom blocks I σ es st) :
    ∃ es' st', RunsFrom (addTerminators blocks) I σ es' st' ∧
      st'.point.block? = st.point.block? ∧ st'.effects = st.effects ∧
      es'.filterMap shown = es.filterMap shown := by
  obtain ⟨first, es₁, es₂, t, hfirst, henter, hr, rfl⟩ := hrun
  obtain ⟨t', henter', ht⟩ := enters_addTerminators hlabels henter
  have hstep : ∀ s es s' t, Step blocks I s es s' → WithJumps blocks s t → ∃ es' t',
      Run (addTerminators blocks) I t es' t' ∧ WithJumps blocks s' t' ∧
        es'.filterMap shown = es.filterMap shown := by
    intro s es s' t hs h
    obtain ⟨es', t', hs', h', heq⟩ := steps_addTerminators hlabels hn shown hshown hs h
    exact ⟨es', t', .single hs', h', heq⟩
  obtain ⟨es₂', st', hr', hst, heq⟩ := hr.simulate hstep ht
  obtain ⟨first', hfirst', hname⟩ := head_addTerminators hfirst
  refine ⟨es₁ ++ es₂', st', ⟨first', es₁, es₂', t', hfirst', hname ▸ henter', hr', rfl⟩,
    hst.same_place.1, hst.same_place.2, ?_⟩
  rw [List.filterMap_append, List.filterMap_append, heq]

end Block

end FlowOpt
