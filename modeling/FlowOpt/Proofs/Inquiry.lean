import FlowOpt.Inquiry
import FlowOpt.Proofs.Dataflow.Solution
import FlowOpt.Proofs.Except

/-!
# What was asked before does not matter

Dominance, loops and checks by paths are those of the code: it makes no difference which questions
came before, which way the edges are turned and whether the answer was kept. Turned an even number
of times, the edges are back in their places.
-/

namespace FlowOpt

/-- A run follows the edges as they are, whichever direction the analysis names. -/
theorem Worklist.run_directed (a : Analysis) (d : Direction) (graph : Digraph FlowNode) (fuel : Nat)
    (st : State) : run { a with direction := d } graph fuel st = run a graph fuel st := by
  apply run_congr
  · rfl
  · exact fun _ _ _ => rfl

namespace FlowGraph

theorem switchDirections_involutive : Function.Involutive switchDirections :=
  fun g => along_along g .backward

@[simp] theorem forward_switchDirections (g : FlowGraph) :
    g.switchDirections.forward = g.forward := by
  obtain ⟨graph, reversed⟩ := g
  cases reversed <;> rfl

@[simp] theorem dominance_switchDirections (g : FlowGraph) :
    g.switchDirections.dominance = g.dominance :=
  congrArg (Dominance.ofGraph · 0) (forward_switchDirections g)

@[simp] theorem require_switchDirections (g : FlowGraph) (name : String) :
    g.switchDirections.require name = g.require name := rfl

@[simp] theorem dominatesByPaths_switchDirections (g : FlowGraph) (candidate target : String) :
    g.switchDirections.dominatesByPaths candidate target = g.dominatesByPaths candidate target := by
  simp only [FlowGraph.dominatesByPaths, require_switchDirections, forward_switchDirections]
  rfl

end FlowGraph

namespace Question

def isTurn : Question → Bool
  | .turn => true
  | _ => false

def isOfCode : Question → Bool
  | .dominance | .loops | .paths _ _ => true
  | .turn | .solve _ _ => false

end Question

namespace Inquiry

variable {g : FlowGraph} {q q' : Inquiry} {question : Question} {questions : List Question}
  {reply : Reply} {replies : List Reply} {turns : Nat}

theorem solveWithin?_eq (q : Inquiry) (fuel : Nat) (a : Analysis) :
    q.solveWithin? fuel a = (q.graph.solveWithin? fuel a).map (·, q) := by
  have hback : q.switchDirections.switchDirections = q := by
    obtain ⟨graph, d, f⟩ := q
    exact congrArg (Inquiry.mk · d f) (FlowGraph.switchDirections_involutive graph)
  cases hd : a.direction with
  | forward =>
    simp only [solveWithin?, FlowGraph.solveWithin?, hd, turnedFor, Worklist.run_directed,
      Option.map_map]
  | backward =>
    simp only [solveWithin?, FlowGraph.solveWithin?, hd, turnedFor, hback, Worklist.run_directed,
      Option.map_map]
    rfl

/-- The edges of `g` are turned that many times, and what is kept is what `g` has. -/
structure Keeps (g : FlowGraph) (turns : Nat) (q : Inquiry) : Prop where
  graph : q.graph = FlowGraph.switchDirections^[turns] g
  dominance : ∀ d ∈ q.dominance?, d = g.dominance
  loops : ∀ f ∈ q.loops?, f = g.loops

theorem keeps_ofGraph (g : FlowGraph) : Keeps g 0 (ofGraph g) where
  graph := rfl
  dominance := by simp [ofGraph]
  loops := by simp [ofGraph]

namespace Keeps

theorem of_code {β : Type} (f : FlowGraph → β) (hf : ∀ g, f g.switchDirections = f g)
    (h : Keeps g turns q) : f q.graph = f g := by
  rw [h.graph]
  clear h
  induction turns generalizing g with
  | zero => rfl
  | succ turns ih => rw [Function.iterate_succ_apply, ih, hf]

theorem switchDirections (h : Keeps g turns q) : Keeps g (turns + 1) q.switchDirections where
  graph := by
    rw [Function.iterate_succ_apply', ← h.graph]
    rfl
  dominance := h.dominance
  loops := h.loops

theorem dominance_fst (h : Keeps g turns q) : q.dominance.1 = g.dominance := by
  unfold Inquiry.dominance
  split
  · next d hd => exact h.dominance d hd
  · exact h.of_code FlowGraph.dominance FlowGraph.dominance_switchDirections

theorem dominance_snd (h : Keeps g turns q) : Keeps g turns q.dominance.2 := by
  have hfst := h.dominance_fst
  unfold Inquiry.dominance at hfst ⊢
  split at hfst
  · exact h
  · refine ⟨h.graph, fun d hd => ?_, h.loops⟩
    rw [← Option.some.inj hd]
    exact hfst

theorem loops_fst (h : Keeps g turns q) : q.loops.1 = g.loops := by
  unfold Inquiry.loops
  split
  · next f hf => exact h.loops f hf
  · change LoopForest.ofGraph q.dominance.2.graph.forward q.dominance.1 = g.loops
    rw [h.dominance_fst,
      h.dominance_snd.of_code FlowGraph.forward FlowGraph.forward_switchDirections]
    rfl

theorem loops_snd (h : Keeps g turns q) : Keeps g turns q.loops.2 := by
  have hfst := h.loops_fst
  unfold Inquiry.loops at hfst ⊢
  split at hfst
  · exact h
  · have hd := h.dominance_snd
    refine ⟨hd.graph, hd.dominance, fun f hf => ?_⟩
    rw [← Option.some.inj hf]
    exact hfst

/-- A question is answered as on `g`, if the code alone decides it, and leaves what is kept in
order. -/
theorem ask (h : Keeps g turns q) (hask : q.ask question = some (reply, q')) :
    (question.isOfCode = true → ((ofGraph g).ask question).map (·.1) = some reply) ∧
      Keeps g (turns + [question].countP (·.isTurn)) q' := by
  cases question with
  | turn =>
    obtain ⟨-, rfl⟩ := Prod.mk.inj (Option.some.inj hask)
    exact ⟨Bool.noConfusion, h.switchDirections⟩
  | dominance =>
    have hanswer : some (.dominance q.dominance.1, q.dominance.2) = some (reply, q') := hask
    obtain ⟨rfl, rfl⟩ := Prod.mk.inj (Option.some.inj hanswer)
    refine ⟨fun _ => ?_, h.dominance_snd⟩
    rw [h.dominance_fst]
    rfl
  | loops =>
    have hanswer : some (.loops q.loops.1, q.loops.2) = some (reply, q') := hask
    obtain ⟨rfl, rfl⟩ := Prod.mk.inj (Option.some.inj hanswer)
    refine ⟨fun _ => ?_, h.loops_snd⟩
    rw [h.loops_fst]
    rfl
  | paths candidate target =>
    obtain ⟨rfl, rfl⟩ := Prod.mk.inj (Option.some.inj hask)
    refine ⟨fun _ => ?_, h⟩
    have hpaths := h.of_code (·.dominatesByPaths candidate target)
      (FlowGraph.dominatesByPaths_switchDirections · candidate target)
    simp only [hpaths]
    rfl
  | solve fuel a =>
    refine ⟨Bool.noConfusion, ?_⟩
    simp only [Inquiry.ask, solveWithin?_eq, Option.map_map, Option.map_eq_some_iff,
      Function.comp_apply, Prod.mk.injEq] at hask
    obtain ⟨results, -, -, rfl⟩ := hask
    exact h

theorem askAll (h : Keeps g turns q) (hask : q.askAll questions = some (replies, q')) :
    List.Forall₂ (fun question reply => question.isOfCode = true →
      ((ofGraph g).ask question).map (·.1) = some reply) questions replies ∧
      Keeps g (turns + questions.countP (·.isTurn)) q' := by
  induction questions generalizing q turns replies with
  | nil =>
    obtain ⟨rfl, rfl⟩ := Prod.mk.inj (Option.some.inj hask)
    exact ⟨.nil, h⟩
  | cons question questions ih =>
    obtain ⟨⟨reply, mid⟩, hfirst, hrest⟩ := Option.bind_eq_some_iff.1 hask
    obtain ⟨⟨later, last⟩, hlater, heq⟩ := Option.bind_eq_some_iff.1 hrest
    obtain ⟨rfl, rfl⟩ := Prod.mk.inj (Option.some.inj heq)
    obtain ⟨hreply, hmid⟩ := h.ask hfirst
    obtain ⟨hreplies, hlast⟩ := ih hmid hlater
    refine ⟨.cons hreply hreplies, ?_⟩
    rwa [Nat.add_assoc, ← List.countP_append] at hlast

end Keeps

/-- Whatever is asked of a graph, and however often its edges are turned meanwhile, dominance, loops
and checks by paths are answered as they are when they are asked first of all. Behind an even number
of turns the graph is what it was, with all its lists in their order; behind an odd number it is
turned once. -/
theorem replies_as_at_first (g : FlowGraph) (questions : List Question) (replies : List Reply)
    (q : Inquiry) (h : (ofGraph g).askAll questions = some (replies, q)) :
    List.Forall₂ (fun question reply => question.isOfCode = true →
      ((ofGraph g).ask question).map (·.1) = some reply) questions replies ∧
    (Even (questions.countP (·.isTurn)) → q.graph = g) ∧
    (Odd (questions.countP (·.isTurn)) → q.graph = g.switchDirections) := by
  obtain ⟨hreplies, hkeeps⟩ := (keeps_ofGraph g).askAll h
  rw [Nat.zero_add] at hkeeps
  refine ⟨hreplies, fun heven => ?_, fun hodd => ?_⟩
  · rw [hkeeps.graph, FlowGraph.switchDirections_involutive.iterate_even heven, id]
  · rw [hkeeps.graph, FlowGraph.switchDirections_involutive.iterate_odd hodd]

/-- The loop of `scaling`, asked for while the edges are turned and a second time behind a run
against the flow. -/
theorem scaling_replies : ∃ g replies q, FlowGraph.ofBlocks FlowGraph.scaling "entry" = .ok g ∧
    (ofGraph g).askAll [.turn, .loops, .solve 9 liveVariables, .paths "head" "done", .turn,
      .loops] = some (replies, q) ∧
    List.Forall₂ (fun question reply => question.isOfCode = true →
      ((ofGraph g).ask question).map (·.1) = some reply)
      [.turn, .loops, .solve 9 liveVariables, .paths "head" "done", .turn, .loops] replies ∧
    q.graph = g := by
  have hends : (FlowGraph.ofBlocks FlowGraph.scaling "entry").toOption.any (fun g =>
      ((ofGraph g).askAll [.turn, .loops, .solve 9 liveVariables, .paths "head" "done", .turn,
        .loops]).isSome) = true := by
    decide +kernel
  obtain ⟨g, hg, hends⟩ := exists_of_toOption_any hends
  obtain ⟨⟨replies, q⟩, hasked⟩ := Option.isSome_iff_exists.1 hends
  obtain ⟨hreplies, heven, -⟩ := replies_as_at_first g _ replies q hasked
  exact ⟨g, replies, q, hg, hasked, hreplies, heven (by decide)⟩

end Inquiry

end FlowOpt
