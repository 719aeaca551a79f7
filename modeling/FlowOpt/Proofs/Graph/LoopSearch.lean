import FlowOpt.Proofs.Graph.Loop

/-!
# Finding natural loops edge by edge

The loops of a graph come from its back edges: one for each node that such an edge leads to, with
the sources of these edges for latches and, beside the header, all that leads to a latch and avoids
the header. One pass over all edges, where each back edge extends the loop of its header or opens a new
one, finds the same loops as looking for the latches of one header after the other, since what a
latch adds to a body that is closed already does not depend on the loops in between.
-/

namespace FlowOpt

namespace Digraph

variable {α : Type} (g : Digraph α)

def BackEdge (entry u h : Nat) : Prop :=
  g.Reachable entry u ∧ h ∈ g.succs u ∧ g.Dominates entry h u

/-- Absorbing without a bound on the steps. -/
inductive AbsorbsTo : List Nat → BitSet → BitSet → Prop
  | done (body : BitSet) : AbsorbsTo [] body body
  | pass {v : Nat} {work : List Nat} {body out : BitSet} (hold : ¬ (body.insert v).2 = true)
      (h : AbsorbsTo work (body.add v) out) : AbsorbsTo (v :: work) body out
  | find {v : Nat} {work : List Nat} {body out : BitSet} (hnew : (body.insert v).2 = true)
      (h : AbsorbsTo (g.waitingFor v body work) (body.add v) out) : AbsorbsTo (v :: work) body out

variable {g} {header latch fuel v : Nat} {latches work : List Nat} {body : BitSet}

theorem absorbLoop_absorbsTo (hc : body.capacity = g.size)
    (hf : work.length + ∑ u ∈ g.unmet body, (g.preds u).length ≤ fuel) :
    g.AbsorbsTo work body (g.absorbLoop fuel work body) := by
  induction fuel generalizing body work with
  | zero =>
    obtain rfl : work = [] := List.eq_nil_of_length_eq_zero (by omega)
    exact .done body
  | succ fuel ih =>
    cases work with
    | nil => exact .done body
    | cons v work =>
      rw [List.length_cons] at hf
      rw [absorbLoop_cons]
      by_cases hnew : (body.insert v).2 = true
      · obtain ⟨hlt, hn⟩ := BitSet.insert_snd.1 hnew
        have hsum := sum_preds_add hc (hc ▸ hlt) hn
        have hlength := length_waitingFor_le g v body work
        rw [if_pos hnew]
        exact .find hnew (ih hc (by omega))
      · have hsub : g.unmet (body.add v) ⊆ g.unmet body := fun u hu => by
          rw [mem_unmet] at hu ⊢
          exact ⟨hu.1, fun hm => hu.2 (BitSet.mem_add.2 (.inl hm))⟩
        have hsum := Finset.sum_le_sum_of_subset (f := fun u => (g.preds u).length) hsub
        rw [if_neg hnew]
        exact .pass hnew (ih hc (by omega))

theorem absorb_absorbsTo (hc : body.capacity = g.size) (latch : Nat) :
    g.AbsorbsTo [latch] body (g.absorb body latch) := by
  have hle := sum_preds_unmet_le g body
  refine absorbLoop_absorbsTo hc ?_
  rw [List.length_singleton]
  omega

theorem inLoop_iff (hg : g.WellFormed) (hlatches : ∀ u ∈ latches, u < g.size) :
    g.InLoop header latches v ↔
      v = header ∨ ∃ u ∈ latches, ∃ p, g.Path v u p ∧ header ∉ p := by
  constructor
  · intro h
    induction h with
    | header => exact .inl rfl
    | @latch v hv =>
      by_cases heq : v = header
      · exact .inl heq
      · exact .inr ⟨v, hv, [v], .start (hlatches v hv), by simpa using Ne.symm heq⟩
    | @pred v w _ hne hs ih =>
      by_cases heq : v = header
      · exact .inl heq
      · obtain ⟨u, hu, p, hp, hnot⟩ := ih.resolve_left hne
        refine .inr ⟨u, hu, v :: p, hp.cons hs (hg.succs_lt v w hs).1, fun hm => ?_⟩
        exact (List.mem_cons.1 hm).elim (fun h => heq h.symm) hnot
  · rintro (rfl | ⟨u, hu, p, hp, hnot⟩)
    · exact .header
    · -- Backwards along the path everything is in the loop, as the header is not on it.
      have hback : ∀ u, g.Path v u p → g.InLoop header latches u → g.InLoop header latches v := by
        clear hu hp
        intro u hp
        induction hp with
        | start => exact id
        | @step x y p hx hy _ ih =>
          intro hin
          have hne : y ≠ header := fun heq => hnot (by simp [heq])
          exact ih (fun hm => hnot (List.mem_append_left _ hm)) (.pred hin hne hy)
      exact hback u hp (.latch hu)

end Digraph

namespace LoopForest

open FlowOpt.Digraph

variable {α : Type} (g : Digraph α)

def extend (latch header : Nat) : List NaturalLoop → List NaturalLoop
  | [] =>
    [{ header, body := g.absorb (.ofList g.size [header]) latch, latches := [latch], depth := 0 }]
  | l :: loops =>
    if l.header = header then
      { l with body := g.absorb l.body latch, latches := l.latches ++ [latch] } :: loops
    else l :: extend latch header loops

/-- The loops that a pass over the nodes and their edges finds, in the order in which they are
opened and without their depths. -/
def scan (d : Dominance) : List NaturalLoop :=
  g.ids.foldl (fun loops v =>
    if d.isReachable v then
      (g.succs v).foldl (fun loops h => if d.dominates h v then extend g v h loops else loops) loops
    else loops) []

def withDepths (loops : List NaturalLoop) : List NaturalLoop :=
  loops.map fun l =>
    { l with depth := loops.countP fun k => k.header != l.header && k.contains l.header }

def detect (d : Dominance) : LoopForest :=
  ⟨(withDepths (scan g d)).mergeSort (·.header ≤ ·.header)⟩

def backEdgesFrom (d : Dominance) (v : Nat) : List (Nat × Nat) :=
  if d.isReachable v then ((g.succs v).filter (d.dominates · v)).map (v, ·) else []

def backEdges (d : Dominance) : List (Nat × Nat) := g.ids.flatMap (backEdgesFrom g d)

def latchesIn (edges : List (Nat × Nat)) (header : Nat) : List Nat :=
  (edges.filter (·.2 == header)).map (·.1)

def loopIn (edges : List (Nat × Nat)) (header : Nat) : NaturalLoop where
  header
  body := (latchesIn edges header).foldl g.absorb (.ofList g.size [header])
  latches := latchesIn edges header
  depth := 0

variable {g} {d : Dominance} {entry h u v : Nat} {edges : List (Nat × Nat)}

theorem scan_eq : scan g d = (backEdges g d).foldl (fun loops e => extend g e.1 e.2 loops) [] := by
  rw [scan, backEdges, List.foldl_flatMap]
  refine congrArg (fun step => g.ids.foldl step []) ?_
  funext loops v
  rw [backEdgesFrom]
  split
  · rw [List.foldl_map, List.foldl_filter]
  · rfl

theorem latchesIn_append (u h header : Nat) : latchesIn (edges ++ [(u, h)]) header =
    if h = header then latchesIn edges header ++ [u] else latchesIn edges header := by
  unfold latchesIn
  by_cases heq : h = header
  · simp [heq]
  · simp [heq]

theorem loopIn_append_self (u h : Nat) : loopIn g (edges ++ [(u, h)]) h =
    { header := h
      body := g.absorb (loopIn g edges h).body u
      latches := latchesIn edges h ++ [u]
      depth := 0 } := by
  simp only [loopIn, latchesIn_append, if_true, List.foldl_append, List.foldl_cons, List.foldl_nil]

theorem loopIn_append_of_ne {header : Nat} (u : Nat) (hne : header ≠ h) :
    loopIn g (edges ++ [(u, h)]) header = loopIn g edges header := by
  simp only [loopIn, latchesIn_append, if_neg (Ne.symm hne)]

theorem extend_map {headers : List Nat} (hnodup : headers.Nodup)
    (hnew : h ∉ headers → latchesIn edges h = []) :
    extend g u h (headers.map (loopIn g edges)) =
      (if h ∈ headers then headers else headers ++ [h]).map (loopIn g (edges ++ [(u, h)])) := by
  induction headers with
  | nil =>
    have hnone := hnew List.not_mem_nil
    simp [extend, loopIn, latchesIn_append, hnone]
  | cons x headers ih =>
    obtain ⟨hx, hrest⟩ := List.nodup_cons.1 hnodup
    have hheader : (loopIn g edges x).header = x := rfl
    rw [List.map_cons, extend, hheader]
    by_cases heq : x = h
    · subst heq
      have hsame : headers.map (loopIn g (edges ++ [(u, x)])) = headers.map (loopIn g edges) :=
        List.map_congr_left fun y hy => loopIn_append_of_ne u fun hyx => hx (hyx ▸ hy)
      rw [if_pos rfl, if_pos List.mem_cons_self, List.map_cons, loopIn_append_self, hsame]
      rfl
    · have hmem : h ∈ x :: headers ↔ h ∈ headers := by simp [Ne.symm heq]
      rw [if_neg heq, ih hrest fun hn => hnew (hmem.not.2 hn)]
      simp only [hmem]
      split
      · rw [List.map_cons, loopIn_append_of_ne u heq]
      · rw [List.cons_append, List.map_cons, loopIn_append_of_ne u heq]

/-- By induction on the edges: the loops so far are those that the edges so far give the headers
met so far. -/
theorem exists_headers (edges : List (Nat × Nat)) : ∃ headers : List Nat, headers.Nodup ∧
    (∀ h, h ∈ headers ↔ latchesIn edges h ≠ []) ∧
    edges.foldl (fun loops e => extend g e.1 e.2 loops) [] = headers.map (loopIn g edges) := by
  induction edges using List.reverseRecOn with
  | nil => exact ⟨[], List.nodup_nil, fun h => by simp [latchesIn], rfl⟩
  | append_singleton edges e ih =>
    obtain ⟨u, h⟩ := e
    obtain ⟨headers, hnodup, hmem, hfold⟩ := ih
    have hnew : h ∉ headers → latchesIn edges h = [] := fun hn => by simpa using (hmem h).not.1 hn
    rw [List.foldl_append, hfold]
    refine ⟨_, ?_, fun header => ?_, extend_map hnodup hnew⟩
    · split
      · exact hnodup
      · next hn => exact hnodup.append (List.nodup_singleton h) (by simpa using hn)
    · rw [latchesIn_append]
      by_cases heq : h = header
      · subst heq
        by_cases hh : h ∈ headers <;> simp [hh]
      · rw [if_neg heq, ← hmem]
        split
        · rfl
        · simp [Ne.symm heq]

/-- The edges of a node make it a latch of a header at most once, as none is listed twice. -/
theorem latchesIn_backEdgesFrom (hg : g.WellFormed) (d : Dominance) (v h : Nat) :
    latchesIn (backEdgesFrom g d v) h =
      (Option.guard (fun v => d.isReachable v && g.hasEdge v h && d.dominates h v) v).toList := by
  have hcount := ((hg.succs_nodup v).filter (d.dominates · v)).count (a := h)
  have hsnd : (fun e : Nat × Nat => e.2 == h) ∘ (v, ·) = (· == h) := rfl
  rw [latchesIn, backEdgesFrom]
  by_cases hr : d.isReachable v = true
  · rw [if_pos hr, List.filter_map, hsnd, List.filter_beq, hcount, List.map_map, List.map_replicate]
    by_cases hedge : h ∈ g.succs v
    · by_cases hdom : d.dominates h v = true <;> simp [hasEdge, Option.guard, hr, hedge, hdom]
    · simp [hasEdge, Option.guard, hedge]
  · simp [Option.guard, hr]

theorem latchesIn_backEdges (hg : g.WellFormed) (d : Dominance) (h : Nat) :
    latchesIn (backEdges g d) h = latches g d h := by
  have hnodes : latchesIn (backEdges g d) h =
      g.ids.flatMap fun v => latchesIn (backEdgesFrom g d v) h := by
    rw [latchesIn, backEdges, List.filter_flatMap, List.map_flatMap]
    rfl
  rw [hnodes, List.flatMap_congr fun v _ => latchesIn_backEdgesFrom hg d v h,
    ← List.filterMap_eq_flatMap_toList]
  rw [List.filterMap_eq_filter]
  rfl

/-- The loops that the pass finds are those of the forest, opened in some order. -/
theorem exists_scan (hg : g.WellFormed) (entry : Nat) : ∃ headers : List Nat,
    headers.Perm (g.ids.filter fun v => !(latches g (.ofGraph g entry) v).isEmpty) ∧
    scan g (.ofGraph g entry) = headers.map fun h => { loopAt g entry h with depth := 0 } := by
  obtain ⟨headers, hnodup, hmem, hfold⟩ := exists_headers (g := g) (backEdges g (.ofGraph g entry))
  refine ⟨headers, ?_, ?_⟩
  · have hids : g.ids.Nodup := List.nodup_range
    rw [List.perm_ext_iff_of_nodup hnodup (hids.filter _)]
    intro h
    rw [hmem, latchesIn_backEdges hg, List.mem_filter, ids, List.mem_range]
    simp only [Bool.not_eq_true', List.isEmpty_eq_false_iff]
    refine (and_iff_right_of_imp fun hne => ?_).symm
    obtain ⟨u, hu⟩ := List.exists_mem_of_ne_nil _ hne
    exact (hg.succs_lt u h ((mem_latches hg).1 hu).2.1).2
  · rw [scan_eq, hfold]
    refine List.map_congr_left fun h _ => ?_
    simp only [loopIn, latchesIn_backEdges hg, loopAt, bodyOf]

theorem withDepths_scan (hg : g.WellFormed) (entry : Nat) : ∃ headers : List Nat,
    headers.Perm (g.ids.filter fun v => !(latches g (.ofGraph g entry) v).isEmpty) ∧
    withDepths (scan g (.ofGraph g entry)) = headers.map (loopAt g entry) := by
  obtain ⟨headers, hperm, hscan⟩ := exists_scan hg entry
  have hdepth : ∀ h, (scan g (.ofGraph g entry)).countP (fun k =>
      k.header != h && k.contains h) = (loopAt g entry h).depth := by
    intro h
    rw [hscan, List.countP_map, loopAt, List.countP_map, hperm.countP_eq]
    rfl
  refine ⟨headers, hperm, ?_⟩
  simp only [withDepths, hdepth]
  rw [hscan, List.map_map]
  rfl

/-- The pass over the edges finds the loops of the forest. -/
theorem detect_eq (hg : g.WellFormed) (entry : Nat) :
    detect g (.ofGraph g entry) = ofGraph g (.ofGraph g entry) := by
  obtain ⟨headers, hperm, hdeep⟩ := withDepths_scan hg entry
  have hsorted : (g.ids.filter fun v => !(latches g (.ofGraph g entry) v).isEmpty).Pairwise
      (· ≤ ·) :=
    (List.pairwise_lt_range.filter _).imp Nat.le_of_lt
  have hsort : headers.mergeSort (· ≤ ·) =
      g.ids.filter fun v => !(latches g (.ofGraph g entry) v).isEmpty :=
    ((List.mergeSort_perm headers _).trans hperm).eq_of_pairwise'
      (List.pairwise_mergeSort' (· ≤ ·) headers) hsorted
  have hloops : (headers.map (loopAt g entry)).mergeSort (·.header ≤ ·.header) =
      (ofGraph g (.ofGraph g entry)).loops := by
    rw [loops_ofGraph, ← hsort]
    exact (List.map_mergeSort (f := loopAt g entry) fun _ _ _ _ => rfl).symm
  rw [detect, hdeep, hloops]

section Natural

variable {l : NaturalLoop} (hg : g.WellFormed)
include hg

theorem exists_header_iff : (∃ l ∈ (ofGraph g (.ofGraph g entry)).loops, l.header = h) ↔
    ∃ u, g.BackEdge entry u h := by
  constructor
  · rintro ⟨l, hl, rfl⟩
    obtain ⟨u, hu⟩ := List.exists_mem_of_ne_nil _ (eq_loopAt hl).2.2
    exact ⟨u, (mem_latches hg).1 hu⟩
  · rintro ⟨u, hu⟩
    have hlatch : u ∈ latches g (.ofGraph g entry) h := (mem_latches hg).2 hu
    have hne : latches g (.ofGraph g entry) h ≠ [] := List.ne_nil_of_mem hlatch
    refine ⟨loopAt g entry h, ?_, rfl⟩
    rw [loops_ofGraph]
    refine List.mem_map_of_mem (List.mem_filter.2 ⟨?_, by simpa using hne⟩)
    exact List.mem_range.2 (hg.succs_lt u h hu.2.1).2

omit hg in
theorem latches_eq (hl : l ∈ (ofGraph g (.ofGraph g entry)).loops) :
    l.latches = latches g (.ofGraph g entry) l.header := by
  rw [(eq_loopAt hl).1]
  rfl

theorem contains_iff_path (hl : l ∈ (ofGraph g (.ofGraph g entry)).loops) :
    l.contains v = true ↔
      v = l.header ∨ ∃ u ∈ l.latches, ∃ p, g.Path v u p ∧ l.header ∉ p := by
  rw [contains_iff hg hl, latches_eq hl]
  exact inLoop_iff hg fun u hu => ((mem_latches hg).1 hu).1.lt

end Natural

structure Natural (g : Digraph α) (entry : Nat) (f : LoopForest) : Prop where
  /-- One loop for each node that a back edge leads to. -/
  headers : ∀ h, (∃ l ∈ f.loops, l.header = h) ↔ ∃ u, g.BackEdge entry u h
  ascending : f.loops.Pairwise (·.header < ·.header)
  latches : ∀ l ∈ f.loops,
    l.latches.Pairwise (· < ·) ∧ ∀ u, u ∈ l.latches ↔ g.BackEdge entry u l.header
  body : ∀ l ∈ f.loops, ∀ v, (v ∈ l.body.members ↔ l.contains v = true) ∧
    (l.contains v = true ↔
      v = l.header ∨ ∃ u ∈ l.latches, ∃ p, g.Path v u p ∧ l.header ∉ p)
  depth : ∀ l ∈ f.loops,
    l.depth = f.loops.countP fun k => k.header != l.header && k.contains l.header

/-- The search for the loops ends, and it finds the natural loops of the graph. -/
theorem detect_natural (hg : g.WellFormed) (entry : Nat) :
    (∀ body latch, body.capacity = g.size →
      g.AbsorbsTo [latch] body (g.absorb body latch)) ∧
    detect g (.ofGraph g entry) = ofGraph g (.ofGraph g entry) ∧
    Natural g entry (ofGraph g (.ofGraph g entry)) := by
  refine ⟨fun body latch hc => absorb_absorbsTo hc latch, detect_eq hg entry, ?_⟩
  constructor
  · exact fun h => exists_header_iff hg
  · exact pairwise_header_lt
  · intro l hl
    rw [latches_eq hl]
    exact ⟨List.pairwise_lt_range.filter _, fun u => mem_latches hg⟩
  · exact fun l hl v => ⟨mem_members hg hl, contains_iff_path hg hl⟩
  · exact fun l hl => depth_eq hl

def nestedLoops : Digraph Unit where
  nodes := #[(), (), (), (), (), ()]
  outgoing := #[[1], [2, 4], [2, 3, 1], [1], [], [3]]
  incoming := #[[], [0, 3, 2], [1, 2], [2, 5], [1], []]
  edgeCount := 8

theorem nestedLoops_wellFormed : nestedLoops.WellFormed :=
  have h : ofEdges [(), (), (), (), (), ()]
      [(0, 1), (1, 2), (2, 2), (2, 3), (3, 1), (2, 1), (1, 4), (5, 3)] = .ok nestedLoops := rfl
  (ofEdges_ok h).1

theorem nestedLoops_natural : nestedLoops.WellFormed ∧
    ((ofGraph nestedLoops (.ofGraph nestedLoops 0)).loops.map fun l =>
      (l.header, l.body.members, l.latches, l.depth)) =
      [(1, [1, 2, 3, 5], [2, 3], 0), (2, [2], [2], 1)] ∧
    (∀ body latch, body.capacity = nestedLoops.size →
      nestedLoops.AbsorbsTo [latch] body (nestedLoops.absorb body latch)) ∧
    detect nestedLoops (.ofGraph nestedLoops 0) = ofGraph nestedLoops (.ofGraph nestedLoops 0) ∧
    Natural nestedLoops 0 (ofGraph nestedLoops (.ofGraph nestedLoops 0)) :=
  ⟨nestedLoops_wellFormed, by decide +kernel, detect_natural nestedLoops_wellFormed 0⟩

end LoopForest

end FlowOpt
