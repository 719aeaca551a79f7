import FlowOpt.Proofs.Hoist.Exhaustion
import FlowOpt.Proofs.Pass.Failure

/-!
# One round of hoisting is enough

In code without phis whose labels stand and whose blocks can all be reached, one round hoists all
that can be hoisted: what it writes is cut into the blocks that it put together, and nothing in
their loops is invariant. So further rounds write nothing, and neither does a second run.
-/

namespace FlowOpt

variable {names names' : HoistNames} {stem : String} {instrs : List Instruction}
  {blocks : List Block} {g : FlowGraph} {o o' : HoistOutcome} {f f' : Function} {r : PassRun}

def Function.Connected (f : Function) (stem : String) : Prop :=
  ∀ g, f.explicitGraph stem = .ok g → ∀ v, v < g.size → g.graph.Reachable g.entry v

theorem FlowGraph.noPhi_of_split (hphi : ∀ i ∈ instrs, i.isPhi = false)
    (hblocks : Block.split instrs = .ok blocks)
    (hg : FlowGraph.ofBlocks (Block.addTerminators blocks) stem = .ok g) : g.NoPhi := by
  intro b hb i hi
  rcases FlowGraph.mem_blocks_cases hg hb with hb | ⟨name, target, rfl⟩
  · rcases Block.mem_instrs_addTerminators hb hi with ⟨c, hc, hi⟩ | ⟨l, rfl⟩ | ⟨l, rfl⟩
    · exact hphi i (Block.mem_of_mem_split hblocks hc hi)
    · rfl
    · rfl
  · rcases FlowGraph.mem_instrs_labeled_jump.1 hi with rfl | rfl
    · rfl
    · rfl

/-- Hoisted blocks of a graph without phis, all of whose nodes can be reached, stay as they are. -/
theorem Block.unchanged_of_hoist (ho : Block.hoist names blocks = .ok o)
    (hcut : Block.Cut blocks)
    (hgraph : ∀ g, FlowGraph.ofBlocks (Block.addTerminators blocks) names.entry = .ok g →
      g.NoPhi ∧ ∀ v, v < g.size → g.graph.Reachable 0 v)
    (ho' : Block.hoist names' o.blocks = .ok o') : o'.changed = false := by
  obtain ⟨g, live, planned, moves, hr, -⟩ := exists_rearranged ho
  obtain ⟨hphi, hreach⟩ := hgraph g hr.graph
  obtain ⟨g', live', hg', hlive', rfl⟩ := Block.hoist_eq_ok_iff.1 ho'
  rw [hr.addTerminators_eq fun b hb hf => ?_] at hg'
  · have hplans : (g'.planLoops live').plans = [] :=
      FlowGraph.plans_eq_nil fun l' hl' => hr.invariants_eq_nil hg' hphi hreach hlive' hl'
    rw [hplans]
    rfl
  · exact Block.following_eq_none hcut.nodup hb hf

theorem HoistsTo.unchanged_again (h : HoistsTo names f.instrs o) (hclosed : Block.Closed f.instrs)
    (hphi : ∀ i ∈ f.instrs, i.isPhi = false) (hreach : f.Connected names.entry)
    (h' : HoistsTo names' (Block.flatten o.blocks) o') : o'.changed = false := by
  obtain ⟨blocks', hblocks', ho'⟩ := h'
  obtain rfl := Except.ok.inj ((h.rejoin hclosed).1.symm.trans hblocks')
  obtain ⟨blocks, hblocks, ho⟩ := h
  refine Block.unchanged_of_hoist ho (Block.split_eq_ok_iff.1 hblocks).1 (fun g hg => ?_) ho'
  have hexplicit : f.explicitGraph names.entry = .ok g := by
    rw [Function.explicitGraph, hblocks]
    exact hg
  exact ⟨FlowGraph.noPhi_of_split hphi hblocks hg, hreach g hexplicit⟩

/-- Rounds on code from which nothing moves write nothing. -/
theorem hoistRounds_of_unchanged (h : HoistsTo names r.function.instrs o)
    (hsame : o.changed = false) (rounds : Nat) :
    (hoistRounds names rounds r).function = r.function ∧
      (hoistRounds names rounds r).result = r.result := by
  cases rounds with
  | zero => exact ⟨rfl, rfl⟩
  | succ rounds =>
    rcases hoistRounds_cases names rounds r with ⟨e, he, -⟩ | ⟨o', h', ⟨-, hlast⟩ | ⟨hchanged, -⟩⟩
    · rw [HoistsTo.iff_eq_ok.1 h] at he
      cases he
    · rw [hlast]
      exact ⟨rfl, rfl⟩
    · rw [h.unique h', hchanged] at hsame
      cases hsame

/-- Code whose labels stand can be hoisted, and any rounds write what the first one makes of it. -/
theorem exists_licm_function (names : HoistNames) (hclosed : Block.Closed f.instrs)
    (hphi : ∀ i ∈ f.instrs, i.isPhi = false) (hreach : f.Connected names.entry) :
    ∃ once o, HoistsTo names once.instrs o ∧ o.changed = false ∧
      ∀ rounds, ((Pass.licm names rounds).run f).function = once := by
  obtain ⟨o, ho⟩ := HoistsTo.of_closed names hclosed
  cases hchanged : o.changed with
  | false =>
    refine ⟨f, o, ho, hchanged, fun rounds => ?_⟩
    rw [licm_run]
    exact (hoistRounds_of_unchanged (r := ⟨f, [], .ok false⟩) ho hchanged _).1
  | true =>
    obtain ⟨o', ho'⟩ := HoistsTo.of_closed names (ho.rejoin hclosed).2
    have hsame := ho.unchanged_again hclosed hphi hreach ho'
    refine ⟨{ f with instrs := Block.flatten o.blocks }, o', ho', hsame, fun rounds => ?_⟩
    rw [licm_run]
    rcases hoistRounds_cases names (rounds - 1) ⟨f, [], .ok false⟩ with
      ⟨e, he, -⟩ | ⟨o₁, h₁, ⟨hunchanged, -⟩ | ⟨-, hmore⟩⟩
    · rw [HoistsTo.iff_eq_ok.1 ho] at he
      cases he
    · rw [← ho.unique h₁, hchanged] at hunchanged
      cases hunchanged
    · rw [hmore, ← ho.unique h₁]
      exact (hoistRounds_of_unchanged (r := PassRun.hoisted ⟨f, [], .ok false⟩ o) ho' hsame _).1

/-- Where hoisting succeeds, running it again changes nothing, whatever the number of rounds, and
the number of rounds makes no difference to what is written. -/
theorem Pass.licm_idempotent (names : HoistNames) (rounds : Nat) (f f' : Function)
    (events : List Event) (changed : Bool) (hphi : ∀ i ∈ f.instrs, i.isPhi = false)
    (hlabels : ∀ t ∈ Block.named f.instrs, t ∈ Block.declared f.instrs)
    (hreach : f.Connected names.entry)
    (h : (Pass.licm names rounds).run f = ⟨f', events, .ok changed⟩) (more : Nat) :
    ((Pass.licm names more).run f').result = .ok false ∧
      ((Pass.licm names more).run f').function = f' ∧
      ((Pass.licm names more).run f).function = f' := by
  have hfront : Block.FrontUnnamed f.instrs := fun x hx hmem =>
    Block.frontName?_not_mem hx (hlabels x hmem)
  have hclosed : Block.Closed f.instrs := by
    rw [licm_run] at h
    rcases hoistRounds_cases names (rounds - 1) ⟨f, [], .ok false⟩ with
      ⟨e, -, he⟩ | ⟨o, ho, -⟩
    · rw [he] at h
      cases congrArg PassRun.result h
    · exact ho.closed hfront
  obtain ⟨once, o, ho, hsame, hall⟩ := exists_licm_function names hclosed hphi hreach
  obtain rfl : once = f' := by
    rw [← hall rounds, h]
  obtain ⟨hfunction, hresult⟩ :=
    hoistRounds_of_unchanged (r := ⟨once, [], .ok false⟩) ho hsame (more - 1 + 1)
  rw [licm_run names more once]
  exact ⟨hresult, hfunction, hall more⟩

def squaring : Function where
  name := "main"
  params := [⟨"n", .named "int"⟩, ⟨"i", .named "int"⟩, ⟨"c", .named "bool"⟩]
  instrs := [.atLabel "top", .compute "mul" "a" (.named "int") ["n", "n"],
    .compute "mul" "b" (.named "int") ["a", "a"],
    .compute "add" "i" (.named "int") ["i", "b"], .branch "c" "top" "done",
    .atLabel "done", .ret ["i"]]

def squaringHoisted : Function :=
  { squaring with
    instrs := [.atLabel "preheader.0", .compute "mul" "a" (.named "int") ["n", "n"],
      .compute "mul" "b" (.named "int") ["a", "a"], .jump "top",
      .atLabel "top", .compute "add" "i" (.named "int") ["i", "b"], .branch "c" "top" "done",
      .atLabel "done", .ret ["i"]] }

theorem squaring_run : ((Pass.licm {} 1).run squaring).function = squaringHoisted ∧
    ((Pass.licm {} 1).run squaring).result = .ok true := by
  decide +kernel

theorem squaring_connected : squaring.Connected "entry" := by
  have hall : ∀ g ∈ (squaring.explicitGraph "entry").toOption,
      ∀ v ∈ List.range g.size, v ∈ g.graph.reachable 0 := by decide +kernel
  intro g hg v hv
  apply Digraph.mem_reachable.1
  exact hall g (by rw [hg]; rfl) v (List.mem_range.2 hv)

theorem squaring_again : ∃ events, (∀ i ∈ squaring.instrs, i.isPhi = false) ∧
    (∀ t ∈ Block.named squaring.instrs, t ∈ Block.declared squaring.instrs) ∧
    squaring.Connected "entry" ∧
    (Pass.licm {} 1).run squaring = ⟨squaringHoisted, events, .ok true⟩ ∧
    ((Pass.licm {} 3).run squaringHoisted).result = .ok false ∧
    ((Pass.licm {} 3).run squaringHoisted).function = squaringHoisted ∧
    ((Pass.licm {} 3).run squaring).function = squaringHoisted := by
  obtain ⟨hfunction, hresult⟩ := squaring_run
  have hphi : ∀ i ∈ squaring.instrs, i.isPhi = false := by decide +kernel
  have hlabels : ∀ t ∈ Block.named squaring.instrs,
      t ∈ Block.declared squaring.instrs := by decide +kernel
  have hrun : (Pass.licm {} 1).run squaring =
      ⟨squaringHoisted, ((Pass.licm {} 1).run squaring).events, .ok true⟩ := by
    rw [← hfunction, ← hresult]
  exact ⟨_, hphi, hlabels, squaring_connected, hrun,
    Pass.licm_idempotent {} 1 squaring squaringHoisted _ true hphi hlabels
      squaring_connected hrun 3⟩

end FlowOpt
