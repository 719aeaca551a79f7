import FlowOpt.Proofs.Ssa.Simulation

/-!
# A form does what its function does

Every run of a function whose jumps are written out is a run of its form, apart from the phis and
from the block that may stand in front.
-/

namespace FlowOpt

namespace Function

open FlowOpt.Execution FlowOpt.Ssa

/-- Labels carry nothing else, branches and returns stand at the end of the blocks, there are no
phis, and no parameter is called like a version of a variable that is assigned. -/
structure Orderly (f : Function) (blocks : List Block) : Prop where
  labels : ∀ i ∈ f.instrs, i.isLabel = true → ∃ l, i = .atLabel l
  ends : ∀ b ∈ blocks, b.EndsProperly
  no_phi : ∀ i ∈ f.instrs, i.isPhi = false
  apart : ∀ x ∈ f.instrs.filterMap (·.dest), ∀ n, FlowGraph.numbered x n ∉ f.paramNames

variable {f : Function} {form : SsaForm} {blocks split : List Block} {b : Block} {i : Instruction}
  {V : Type}

theorem following_of_ofBlocks {g : FlowGraph} {entryPrefix : String}
    (hg : FlowGraph.ofBlocks (Block.addTerminators split) entryPrefix = .ok g)
    (hb : b ∈ Block.addTerminators split) (hfall : b.fallsThrough = true) :
    Block.following ((Block.addTerminators split).map (·.name)) b.name = none := by
  obtain ⟨first, rest, front, -, hnodup, -⟩ := FlowGraph.ofBlocks_ok hg
  rw [Block.names_addTerminators] at hnodup
  exact Block.following_eq_none hnodup hb hfall

theorem Orderly.plain {g : FlowGraph} {entryPrefix : String}
    (hf : f.Orderly (Block.addTerminators split)) (hs : Block.split f.instrs = .ok split)
    (hg : FlowGraph.ofBlocks (Block.addTerminators split) entryPrefix = .ok g) :
    Plain g f.paramNames := by
  have hcases : ∀ b ∈ Block.addTerminators split, ∀ i ∈ b.instrs,
      i ∈ f.instrs ∨ (∃ l, i = .atLabel l) ∨ ∃ l, i = .jump l := by
    intro b hb i hi
    rcases Block.mem_instrs_addTerminators hb hi with ⟨c, hc, hic⟩ | hnew
    · exact .inl (Block.mem_of_mem_split hs hc hic)
    · exact .inr hnew
  apply Plain.of_ofBlocks hg
  · intro b hb i hi hl
    rcases hcases b hb i hi with hi | hlabel | ⟨l, rfl⟩
    · exact hf.labels i hi hl
    · exact hlabel
    · simp [Instruction.isLabel, Instruction.jump] at hl
  · intro b hb i hi
    rcases hcases b hb i hi with hi | ⟨l, rfl⟩ | ⟨l, rfl⟩
    · exact hf.no_phi i hi
    · rfl
    · rfl
  · exact hf.ends
  · intro b hb x hx
    obtain ⟨i, hi, hd⟩ := List.mem_filterMap.1 hx
    rcases hcases b hb i hi with hi | ⟨l, rfl⟩ | ⟨l, rfl⟩
    · exact hf.apart x (List.mem_filterMap.2 ⟨i, hi, hd⟩)
    · simp [Instruction.atLabel] at hd
    · simp [Instruction.jump] at hd
  · intro b hb hfall
    exact following_of_ofBlocks hg hb hfall

/-- The form of a function does what the function does: every run of its code, with jumps written
out, is answered by a run of the form through the same blocks, behind the block put in front if
there is one. It executes the same instructions with equal values, apart from the phis. -/
theorem toSsa_preserves_meaning (f : Function) (form : SsaForm) (split : List Block)
    (h : f.toSsa = .ok form) (hs : Block.split f.instrs = .ok split)
    (hf : f.Orderly (Block.addTerminators split)) (I : Interp V) (hI : I.ByOperator) (σ : Store V)
    (hσ : ∀ x, σ x ≠ none → x ∈ f.paramNames) (events : List (RunEvent V)) (st : State V)
    (hrun : RunsFrom (Block.addTerminators split) I σ events st) :
    ∃ (front : Option String) (events' : List (RunEvent V)) (st' : State V),
      form.blocks.map (·.name) = front.toList ++ (Block.addTerminators split).map (·.name) ∧
      RunsFrom form.blocks I σ events' st' ∧
      events'.filterMap (RunEvent.shown FlowGraph.stem) =
        front.toList.flatMap passage ++ events.filterMap (RunEvent.shown id) ∧
      st'.point.block? = st.point.block? ∧ st'.effects = st.effects := by
  obtain ⟨split', g, hs', hg, hform⟩ := toSsa_ok h
  obtain rfl : split' = split := Except.ok.inj (hs'.symm.trans hs)
  have hwf := FlowGraph.WellFormed.of_ofBlocks hg
  have hp := hf.plain hs hg
  obtain ⟨nodeNames, s, hnaming, hwalk⟩ := exists_naming hwf hform
  obtain ⟨first, rest, front, hfirst, hfront, hblocks⟩ := FlowGraph.blocks_of_ofBlocks hg
  obtain ⟨head, es, es', t, hhead, he, hr, rfl⟩ := hrun
  rw [hfirst] at hhead he hr
  obtain rfl := Option.some.inj hhead
  have hsub : ∀ b ∈ first :: rest, b ∈ g.blocks := by
    intro b hb
    rw [hblocks]
    exact List.mem_append_right _ hb
  have hfalls : ∀ b ∈ first :: rest, b.fallsThrough = true →
      Block.following ((first :: rest).map (·.name)) b.name = none := by
    intro b hb hfall
    rw [← hfirst] at hb ⊢
    exact following_of_ofBlocks hg hb hfall
  obtain ⟨head', es₁, es₂, t₁, t₂, hhead', he', hr₁, hm, hshown⟩ :=
    hnaming.simulate_start hwf hwalk hp hblocks hfront hσ he
  obtain ⟨es₃, t₃, hr₂, hm', hshown'⟩ := Run.simulate (fun st events st₁ t hstep hm => by
    obtain ⟨events', t₁, hstep', hm', hshown⟩ :=
      hnaming.simulate_step hwf hwalk hp hsub hI hfalls hstep hm
    exact ⟨events', t₁, .single hstep', hm', hshown⟩) hr hm
  have hnames : form.blocks.map (·.name) =
      front.map (·.block.name) ++ (Block.addTerminators split').map (·.name) := by
    rw [hwalk, SsaForm.names_ofWalk, FlowGraph.names_eq, hblocks, hfirst, List.map_append,
      List.map_map]
    rfl
  have hruns : RunsFrom form.blocks I σ (es₁ ++ (es₂ ++ es₃)) t₃ :=
    ⟨head', es₁, es₂ ++ es₃, t₁, hhead', he', hr₁.trans hr₂, rfl⟩
  have hall : (es₁ ++ (es₂ ++ es₃)).filterMap (RunEvent.shown FlowGraph.stem) =
      (front.map (·.block.name)).flatMap passage ++ (es ++ es').filterMap (RunEvent.shown id) := by
    rw [← List.append_assoc, List.filterMap_append, hshown, hshown', List.filterMap_append,
      List.append_assoc]
  obtain ⟨hblock, heffects⟩ := hm'.same_place
  cases hfront with
  | none _ => exact ⟨none, _, t₃, hnames, hruns, hall, hblock, heffects⟩
  | jump name _ => exact ⟨some name, _, t₃, hnames, hruns, hall, hblock, heffects⟩

def choosing : Function where
  name := "f"
  params := [⟨"c", .named "bool"⟩]
  instrs := [.constant "x" (.named "int") (.int 1), .branch "c" "left" "join", .atLabel "left",
    .constant "x" (.named "int") (.int 2), .jump "join", .atLabel "join", .ret ["x"]]

def choosingBlocks : List Block :=
  [⟨"b0", [.constant "x" (.named "int") (.int 1), .branch "c" "left" "join"]⟩,
    ⟨"left", [.atLabel "left", .constant "x" (.named "int") (.int 2), .jump "join"]⟩,
    ⟨"join", [.atLabel "join", .ret ["x"]]⟩]

def integers : Interp Int where
  result i _ _ :=
    match i.value with
    | some (.int n) => some n.toInt
    | _ => none
  taken args := args != [0]

theorem choosing_orderly : choosing.Orderly choosingBlocks where
  labels := by
    intro i hi hl
    fin_cases hi <;> first | exact ⟨_, rfl⟩ | cases hl
  ends := by decide
  no_phi := by decide
  apart := by
    intro x hx n hmem
    have hc : FlowGraph.numbered x n = "c" := List.mem_singleton.1 hmem
    obtain rfl : x = "x" := by
      fin_cases hx <;> rfl
    have hstem := congrArg FlowGraph.stem hc
    rw [FlowGraph.stem_numbered] at hstem
    exact absurd hstem (by decide)

def choosingStore : Store Int := Function.update (fun _ => none) "c" (some 1)

theorem choosing_runs : ∃ events st, RunsFrom choosingBlocks integers choosingStore events st ∧
    ⟨"join", .leave (some [2])⟩ ∈ events := by
  have henter : ∀ b ∈ choosingBlocks, ∀ source (σ : Store Int) effects,
      Enters choosingBlocks source b.name σ effects [⟨b.name, .enter⟩]
        ⟨.inside b.name b.body, σ, effects⟩ := by
    intro b hb
    apply Enters.of_headPhis_eq_nil hb
    fin_cases hb <;> rfl
  have hconst : ∀ b n rest (σ : Store Int) effects, Step choosingBlocks integers
      ⟨.inside b (.constant "x" (.named "int") (.int n) :: rest), σ, effects⟩
      [⟨b, .operation (.constant "x" (.named "int") (.int n)) [] n.toInt⟩]
      ⟨.inside b rest, σ.assign (some "x") (some n.toInt), effects ++ [_]⟩ :=
    fun b n rest σ effects => .operation rfl rfl rfl rfl
  have hbranch : ∀ (σ : Store Int) effects, σ "c" = some 1 → Step choosingBlocks integers
      ⟨.inside "b0" [.branch "c" "left" "join"], σ, effects⟩
      [⟨"b0", .branch (some "br") [1] true⟩, ⟨"left", .enter⟩]
      ⟨.inside "left" choosingBlocks[1].body, σ, effects⟩ := fun σ effects hc =>
    .branch rfl rfl (by simp [Instruction.branch, hc]) rfl
      (henter choosingBlocks[1] (List.getElem_mem _) _ σ effects)
  have hjump : ∀ (σ : Store Int) effects, Step choosingBlocks integers
      ⟨.inside "left" [.jump "join"], σ, effects⟩
      [⟨"left", .branch (some "jmp") [] true⟩, ⟨"join", .enter⟩]
      ⟨.inside "join" choosingBlocks[2].body, σ, effects⟩ := fun σ effects =>
    .branch rfl rfl rfl rfl (henter choosingBlocks[2] (List.getElem_mem _) _ σ effects)
  have hret : ∀ (σ : Store Int) effects, σ "x" = some 2 → Step choosingBlocks integers
      ⟨.inside "join" [.ret ["x"]], σ, effects⟩ [⟨"join", .leave (some [2])⟩]
      ⟨.finished, σ, effects⟩ := fun σ effects hx =>
    .ret rfl rfl (by simp [Instruction.ret, Instruction.effect, hx])
  have hrun := Run.step (hconst "b0" 1 [.branch "c" "left" "join"] choosingStore [])
    (.step (hbranch _ _ rfl)
      (.step (hconst "left" 2 [.jump "join"] _ _)
        (.step (hjump _ _) (.single (hret _ _ rfl)))))
  have hstart := henter choosingBlocks[0] (List.getElem_mem _) none choosingStore []
  refine ⟨_, _, ⟨choosingBlocks[0], _, _, _, rfl, hstart, hrun, rfl⟩, ?_⟩
  simp

theorem choosing_preserves_meaning : ∃ form events st, choosing.toSsa = .ok form ∧
    RunsFrom choosingBlocks integers choosingStore events st ∧
    ⟨"join", .leave (some [2])⟩ ∈ events ∧
    ∃ (front : Option String) (events' : List (RunEvent Int)) (st' : State Int),
      form.blocks.map (·.name) = front.toList ++ choosingBlocks.map (·.name) ∧
      RunsFrom form.blocks integers choosingStore events' st' ∧
      events'.filterMap (RunEvent.shown FlowGraph.stem) =
        front.toList.flatMap passage ++ events.filterMap (RunEvent.shown id) ∧
      st'.point.block? = st.point.block? ∧ st'.effects = st.effects := by
  have hsplit : Block.split choosing.instrs = .ok choosingBlocks := by decide +kernel
  have hterminated : Block.addTerminators choosingBlocks = choosingBlocks := by decide +kernel
  have hok : choosing.toSsa.toOption.isSome = true := by cbv
  obtain ⟨form, hform⟩ := exists_of_toOption_isSome hok
  obtain ⟨events, st, hrun, hleave⟩ := choosing_runs
  have hby : integers.ByOperator := by
    intro i j _ _ hvalue
    simp only [integers, hvalue]
  have hparam : ∀ x, choosingStore x ≠ none → x ∈ choosing.paramNames := by
    intro x hx
    by_cases hc : x = "c"
    · subst hc
      decide
    · simp [choosingStore, hc] at hx
  have hmeaning := toSsa_preserves_meaning choosing form choosingBlocks hform hsplit
    (hterminated.symm ▸ choosing_orderly) integers hby choosingStore hparam events st
    (hterminated.symm ▸ hrun)
  rw [hterminated] at hmeaning
  exact ⟨form, events, st, hform, hrun, hleave, hmeaning⟩

end Function

end FlowOpt
