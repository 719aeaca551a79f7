import FlowOpt.Graph.Loop
import FlowOpt.Proofs.Graph.DominatorTree

/-!
# What is in a natural loop

A loop holds its header, its latches, and whatever leads to one of its nodes other than the header.
So an edge from outside leads to the header, and the header dominates every reachable node of its
loop, but none that is not reachable. Of two loops where one holds the header of the other, it holds
all of the other, which is deeper.
-/

namespace FlowOpt

namespace Digraph

variable {α : Type} (g : Digraph α)

/-- The nodes from which a latch can be reached without passing the header. -/
inductive InLoop (header : Nat) (latches : List Nat) : Nat → Prop
  | header : InLoop header latches header
  | latch {v : Nat} (hv : v ∈ latches) : InLoop header latches v
  | pred {v w : Nat} (hw : InLoop header latches w) (hne : w ≠ header) (hv : w ∈ g.succs v) :
      InLoop header latches v

structure Absorbed (P : Nat → Prop) (header : Nat) (body : BitSet) (work : List Nat)
    (out : BitSet) : Prop where
  capacity : out.capacity = g.size
  tidy : out.Tidy
  body : ∀ v ∈ body, v ∈ out
  work : ∀ v ∈ work, v < g.size → v ∈ out
  sound : ∀ v ∈ out, P v
  closed : ∀ w ∈ out, w ≠ header → ∀ v ∈ g.preds w, v ∈ out

variable {g} {P : Nat → Prop} {header fuel : Nat} {body : BitSet} {work : List Nat} {v w : Nat}

theorem absorbLoop_cons (fuel v : Nat) (work : List Nat) (body : BitSet) :
    g.absorbLoop (fuel + 1) (v :: work) body =
      if (body.insert v).2 then
        g.absorbLoop fuel (((g.preds v).filter (!(body.add v).contains ·)).reverse ++ work)
          (body.add v)
      else g.absorbLoop fuel work (body.add v) := rfl

theorem sum_preds_add (hc : body.capacity = g.size) (hv : v < g.size) (hn : ¬ v ∈ body) :
    ∑ u ∈ g.unmet body, (g.preds u).length =
      (g.preds v).length + ∑ u ∈ g.unmet (body.add v), (g.preds u).length := by
  rw [unmet_add hc hv,
    Finset.add_sum_erase _ (fun u => (g.preds u).length) (mem_unmet.2 ⟨hv, hn⟩)]

variable (g) in
/-- An absorbing search under way: `P` holds of what has been found and of what waits, and whatever
leads to a node that has been found, other than the header, has been found or waits. -/
structure Absorbing (P : Nat → Prop) (header : Nat) (body : BitSet) (work : List Nat) : Prop where
  capacity : body.capacity = g.size
  tidy : body.Tidy
  header_mem : header ∈ body
  found : ∀ v ∈ body, P v
  waiting : ∀ v ∈ work, P v
  leading : ∀ w ∈ body, w ≠ header → ∀ v ∈ g.preds w, v ∈ body ∨ v ∈ work

theorem Absorbing.absorbed (h : g.Absorbing P header body []) :
    g.Absorbed P header body [] body where
  capacity := h.capacity
  tidy := h.tidy
  body _ hv := hv
  work _ hv := absurd hv List.not_mem_nil
  sound := h.found
  closed w hw hne v hv := (h.leading w hw hne v hv).resolve_right List.not_mem_nil

theorem Absorbing.mem_of_known (h : g.Absorbing P header body work)
    (hold : ¬ (body.insert v).2 = true) (hlt : v < g.size) : v ∈ body := by
  by_contra hn
  exact hold (BitSet.insert_snd.2 ⟨h.capacity.symm ▸ hlt, hn⟩)

theorem Absorbing.pass (h : g.Absorbing P header body (v :: work)) (hg : g.WellFormed)
    (hold : ¬ (body.insert v).2 = true) : g.Absorbing P header body work := by
  refine ⟨h.capacity, h.tidy, h.header_mem, h.found, fun x hx => h.waiting x (List.mem_cons_of_mem _ hx),
    fun w hw hne u hu => ?_⟩
  rcases h.leading w hw hne u hu with hu' | hu'
  · exact .inl hu'
  · rcases List.mem_cons.1 hu' with rfl | hu'
    · exact .inl (h.mem_of_known hold (hg.pred_lt hu))
    · exact .inr hu'

variable (g) in
def waitingFor (v : Nat) (body : BitSet) (work : List Nat) : List Nat :=
  ((g.preds v).filter (!(body.add v).contains ·)).reverse ++ work

theorem mem_waitingFor {x : Nat} : x ∈ g.waitingFor v body work ↔
    (x ∈ g.preds v ∧ ¬ x ∈ body.add v) ∨ x ∈ work := by
  rw [waitingFor, List.mem_append, List.mem_reverse, List.mem_filter, BitSet.mem_iff_contains]
  simp

theorem length_waitingFor_le (g : Digraph α) (v : Nat) (body : BitSet) (work : List Nat) :
    (g.waitingFor v body work).length ≤ (g.preds v).length + work.length := by
  rw [waitingFor, List.length_append, List.length_reverse]
  exact Nat.add_le_add_right (List.length_filter_le _ _) _

theorem Absorbing.find (h : g.Absorbing P header body (v :: work))
    (hP : ∀ w, P w → w ≠ header → ∀ v ∈ g.preds w, P v) (hlt : v < g.size) (hn : ¬ v ∈ body) :
    g.Absorbing P header (body.add v) (g.waitingFor v body work) := by
  have hmem : ∀ x, x ∈ body.add v ↔ x ∈ body ∨ x = v := by
    intro x
    rw [BitSet.mem_add, h.capacity]
    exact or_congr_right (and_iff_left hlt)
  have hv : P v := h.waiting v List.mem_cons_self
  have hne : v ≠ header := fun heq => hn (heq ▸ h.header_mem)
  constructor
  · exact h.capacity
  · exact h.tidy.add v
  · exact (hmem header).2 (.inl h.header_mem)
  · intro x hx
    rcases (hmem x).1 hx with hx | rfl
    · exact h.found x hx
    · exact hv
  · intro x hx
    rcases mem_waitingFor.1 hx with ⟨hx, -⟩ | hx
    · exact hP v hv hne x hx
    · exact h.waiting x (List.mem_cons_of_mem _ hx)
  · intro x hx hne y hy
    by_cases hyb : y ∈ body.add v
    · exact .inl hyb
    · refine .inr (mem_waitingFor.2 ?_)
      rcases (hmem x).1 hx with hx | rfl
      · rcases h.leading x hx hne y hy with hy' | hy'
        · exact absurd ((hmem y).2 (.inl hy')) hyb
        · rcases List.mem_cons.1 hy' with rfl | hy'
          · exact absurd ((hmem y).2 (.inr rfl)) hyb
          · exact .inr hy'
      · exact .inl ⟨hy, hyb⟩

/-- With a step for every node that waits and every predecessor of a node outside, the search ends
with nothing waiting. -/
theorem Absorbing.loop (h : g.Absorbing P header body work) (hg : g.WellFormed)
    (hP : ∀ w, P w → w ≠ header → ∀ v ∈ g.preds w, P v)
    (hf : work.length + ∑ u ∈ g.unmet body, (g.preds u).length ≤ fuel) :
    g.Absorbed P header body work (g.absorbLoop fuel work body) := by
  induction fuel generalizing body work with
  | zero =>
    have hnil : work = [] := List.eq_nil_of_length_eq_zero (by omega)
    subst hnil
    exact h.absorbed
  | succ fuel ih =>
    cases work with
    | nil => exact h.absorbed
    | cons u work =>
      rw [List.length_cons] at hf
      rw [absorbLoop_cons]
      by_cases hnew : (body.insert u).2 = true
      · obtain ⟨hlt, hn⟩ := BitSet.insert_snd.1 hnew
        have hlt' : u < g.size := h.capacity ▸ hlt
        have hsum := sum_preds_add h.capacity hlt' hn
        have hlength := length_waitingFor_le g u body work
        have hout := ih (h.find hP hlt' hn) (by omega)
        rw [if_pos hnew]
        refine ⟨hout.capacity, hout.tidy, fun x hx => ?_, fun x hx hxlt => ?_, hout.sound,
          hout.closed⟩
        · exact hout.body x (BitSet.mem_add.2 (.inl hx))
        · rcases List.mem_cons.1 hx with rfl | hx
          · exact hout.body x (BitSet.mem_add.2 (.inr ⟨rfl, hlt⟩))
          · exact hout.work x (mem_waitingFor.2 (.inr hx)) hxlt
      · have hout := ih (h.pass hg hnew) (by omega)
        rw [if_neg hnew, add_eq_self hnew h.tidy]
        refine ⟨hout.capacity, hout.tidy, hout.body, fun x hx hxlt => ?_, hout.sound, hout.closed⟩
        rcases List.mem_cons.1 hx with rfl | hx
        · exact hout.body x (h.mem_of_known hnew hxlt)
        · exact hout.work x hx hxlt

theorem sum_preds_unmet_le (g : Digraph α) (body : BitSet) :
    ∑ u ∈ g.unmet body, (g.preds u).length ≤ (g.ids.flatMap g.preds).length := by
  rw [← sum_length_range]
  exact Finset.sum_le_sum_of_subset (Finset.filter_subset _ _)

/-- Absorbing a latch keeps what was there, and what leads to it, in the body. -/
theorem absorb_spec (h : g.Absorbing P header body []) (hg : g.WellFormed)
    (hP : ∀ w, P w → w ≠ header → ∀ v ∈ g.preds w, P v) (hv : P v) :
    g.Absorbed P header body [v] (g.absorb body v) := by
  have hle := sum_preds_unmet_le g body
  have hstart : g.Absorbing P header body [v] :=
    ⟨h.capacity, h.tidy, h.header_mem, h.found, fun _ hu => List.mem_singleton.1 hu ▸ hv,
      fun w hw hne u hu => (h.leading w hw hne u hu).imp_right (List.mem_cons_of_mem _)⟩
  apply hstart.loop hg hP
  rw [List.length_singleton]
  omega

theorem Absorbing.foldl_absorb (h : g.Absorbing P header body []) (hg : g.WellFormed)
    (hP : ∀ w, P w → w ≠ header → ∀ v ∈ g.preds w, P v) {nodes : List Nat}
    (hnodes : ∀ v ∈ nodes, P v) :
    g.Absorbing P header (nodes.foldl g.absorb body) [] ∧
      (∀ v ∈ body, v ∈ nodes.foldl g.absorb body) ∧
        ∀ v ∈ nodes, v < g.size → v ∈ nodes.foldl g.absorb body := by
  induction nodes generalizing body with
  | nil => exact ⟨h, fun _ hv => hv, fun _ hv => absurd hv List.not_mem_nil⟩
  | cons t nodes ih =>
    have hone := absorb_spec h hg hP (hnodes t List.mem_cons_self)
    have hnext : g.Absorbing P header (g.absorb body t) [] :=
      ⟨hone.capacity, hone.tidy, hone.body header h.header_mem, hone.sound,
        fun _ hv => absurd hv List.not_mem_nil,
        fun w hw hne u hu => .inl (hone.closed w hw hne u hu)⟩
    obtain ⟨hall, hbody, hrest⟩ := ih hnext fun v hv => hnodes v (List.mem_cons_of_mem _ hv)
    refine ⟨hall, fun v hv => hbody v (hone.body v hv), fun v hv hlt => ?_⟩
    rcases List.mem_cons.1 hv with rfl | hv
    · exact hbody v (hone.work v List.mem_cons_self hlt)
    · exact hrest v hv hlt

end Digraph

namespace LoopForest

open FlowOpt.Digraph

variable {α : Type} {g : Digraph α} {entry v w h : Nat}

theorem mem_latches (hg : g.WellFormed) : v ∈ latches g (.ofGraph g entry) h ↔
    g.Reachable entry v ∧ h ∈ g.succs v ∧ g.Dominates entry h v := by
  rw [latches, List.mem_filter, ids, List.mem_range, Bool.and_eq_true, Bool.and_eq_true,
    Dominance.isReachable_iff hg.symmetric, hasEdge, List.contains_iff_mem, and_assoc]
  constructor
  · rintro ⟨-, hr, hs, hd⟩
    exact ⟨hr, hs, (Dominance.dominates_iff hg.symmetric hr).1 hd⟩
  · rintro ⟨hr, hs, hd⟩
    exact ⟨hr.lt, hr, hs, (Dominance.dominates_iff hg.symmetric hr).2 hd⟩

theorem mem_bodyOf (hg : g.WellFormed) (hh : h < g.size) :
    (bodyOf g (.ofGraph g entry) h).Tidy ∧ ∀ v, v ∈ bodyOf g (.ofGraph g entry) h ↔
      g.InLoop h (latches g (.ofGraph g entry) h) v := by
  have hheader : ∀ v, v ∈ BitSet.ofList g.size [h] ↔ v = h := by
    intro v
    rw [BitSet.mem_ofList, List.mem_singleton]
    exact and_iff_left_of_imp fun heq => heq ▸ hh
  have hstart : g.Absorbing (g.InLoop h (latches g (.ofGraph g entry) h)) h
      (BitSet.ofList g.size [h]) [] :=
    ⟨BitSet.capacity_ofList _ _, BitSet.tidy_ofList _ _, (hheader h).2 rfl,
      fun v hv => (hheader v).1 hv ▸ .header, fun _ hv => absurd hv List.not_mem_nil,
      fun w hw hne => absurd ((hheader w).1 hw) hne⟩
  have hpred : ∀ w, g.InLoop h (latches g (.ofGraph g entry) h) w → w ≠ h → ∀ v ∈ g.preds w,
      g.InLoop h (latches g (.ofGraph g entry) h) v :=
    fun w hw hne v hv => .pred hw hne ((hg.symmetric v w).2 hv)
  obtain ⟨hout, -, hlatches⟩ := hstart.foldl_absorb hg hpred fun _ hv => .latch hv
  refine ⟨hout.tidy, fun v => ⟨hout.found v, fun hv => ?_⟩⟩
  induction hv with
  | header => exact hout.header_mem
  | latch ht => exact hlatches _ ht ((mem_latches hg).1 ht).1.lt
  | pred _ hne hv ih =>
    exact (hout.leading _ ih hne _ ((hg.symmetric _ _).1 hv)).resolve_right List.not_mem_nil

variable (g entry) in
def loopAt (h : Nat) : NaturalLoop where
  header := h
  body := bodyOf g (.ofGraph g entry) h
  latches := latches g (.ofGraph g entry) h
  depth := ((g.ids.filter fun v => !(latches g (.ofGraph g entry) v).isEmpty).map fun h =>
    (h, bodyOf g (.ofGraph g entry) h)).countP fun (outer, around) =>
      outer != h && around.contains h

theorem loops_ofGraph : (ofGraph g (.ofGraph g entry)).loops =
    (g.ids.filter fun v => !(latches g (.ofGraph g entry) v).isEmpty).map (loopAt g entry) := by
  rw [ofGraph, List.map_map]
  rfl

variable {l k : NaturalLoop}

theorem eq_loopAt (hl : l ∈ (ofGraph g (.ofGraph g entry)).loops) :
    l = loopAt g entry l.header ∧ l.header < g.size ∧
      latches g (.ofGraph g entry) l.header ≠ [] := by
  rw [loops_ofGraph] at hl
  obtain ⟨h, hh, rfl⟩ := List.mem_map.1 hl
  rw [List.mem_filter, ids, List.mem_range] at hh
  have hne : latches g (.ofGraph g entry) h ≠ [] := by simpa using hh.2
  exact ⟨rfl, hh.1, hne⟩

theorem eq_of_header_eq (hl : l ∈ (ofGraph g (.ofGraph g entry)).loops)
    (hk : k ∈ (ofGraph g (.ofGraph g entry)).loops) (h : l.header = k.header) : l = k := by
  rw [(eq_loopAt hl).1, (eq_loopAt hk).1, h]

/-- The depth of a loop counts the others that hold its header. -/
theorem depth_eq (hl : l ∈ (ofGraph g (.ofGraph g entry)).loops) :
    l.depth = (ofGraph g (.ofGraph g entry)).loops.countP fun k =>
      k.header != l.header && k.contains l.header := by
  obtain ⟨h, -, rfl⟩ := List.mem_map.1 (loops_ofGraph ▸ hl)
  rw [loops_ofGraph, List.countP_map]
  unfold loopAt
  rw [List.countP_map]
  rfl

theorem pairwise_header_lt :
    (ofGraph g (.ofGraph g entry)).loops.Pairwise (·.header < ·.header) := by
  rw [loops_ofGraph, List.pairwise_map]
  exact List.pairwise_lt_range.filter _

theorem pairwise_header : (ofGraph g (.ofGraph g entry)).loops.Pairwise (·.header ≠ ·.header) :=
  pairwise_header_lt.imp Nat.ne_of_lt

section Loop

variable (hg : g.WellFormed) (hl : l ∈ (ofGraph g (.ofGraph g entry)).loops)
  (hk : k ∈ (ofGraph g (.ofGraph g entry)).loops)
include hg hl

theorem contains_iff :
    l.contains v = true ↔ g.InLoop l.header (latches g (.ofGraph g entry) l.header) v := by
  obtain ⟨heq, hlt, -⟩ := eq_loopAt hl
  rw [NaturalLoop.contains, ← BitSet.mem_iff_contains, ← (mem_bodyOf hg hlt).2]
  rw [heq]
  rfl

theorem mem_members : v ∈ l.body.members ↔ l.contains v = true := by
  obtain ⟨heq, hlt, -⟩ := eq_loopAt hl
  have ht : l.body.Tidy := by
    rw [heq]
    exact (mem_bodyOf hg hlt).1
  exact ht.mem_members

theorem contains_header : l.contains l.header = true := (contains_iff hg hl).2 .header

theorem contains_pred (hw : l.contains w = true) (hne : w ≠ l.header) (hv : w ∈ g.succs v) :
    l.contains v = true :=
  (contains_iff hg hl).2 (.pred ((contains_iff hg hl).1 hw) hne hv)

theorem header_reachable : g.Reachable entry l.header := by
  obtain ⟨-, hlt, hne⟩ := eq_loopAt hl
  obtain ⟨t, ht⟩ := List.exists_mem_of_ne_nil _ hne
  obtain ⟨hr, hs, -⟩ := (mem_latches hg).1 ht
  exact hr.step hs hlt

theorem header_dominates (hv : l.contains v = true) (hr : g.Reachable entry v) :
    g.Dominates entry l.header v := by
  have hin := (contains_iff hg hl).1 hv
  induction hin with
  | header => exact .refl _
  | latch ht => exact ((mem_latches hg).1 ht).2.2
  | @pred v w hw hne hs ih =>
    have hlt := (hg.succs_lt v w hs).2
    have hdom := ih ((contains_iff hg hl).2 hw) (hr.step hs hlt)
    intro p hp
    rcases List.mem_append.1 (hdom _ (hp.step hs hlt)) with hm | hm
    · exact hm
    · exact absurd (List.mem_singleton.1 hm).symm hne

/-- A reachable node with an edge to the header is in the loop if the header dominates it. -/
theorem contains_of_dominates (hr : g.Reachable entry v) (hs : l.header ∈ g.succs v)
    (hd : g.Dominates entry l.header v) : l.contains v = true :=
  (contains_iff hg hl).2 (.latch ((mem_latches hg).2 ⟨hr, hs, hd⟩))

theorem header_eq_entry (hc : l.contains entry = true) : l.header = entry := by
  obtain ⟨p, hp⟩ := header_reachable hg hl
  simpa using header_dominates hg hl hc (.of_lt hp.entry_lt) [entry] (.start hp.entry_lt)

theorem exists_entering (hne : l.header ≠ entry) :
    ∃ v ∈ l.entering g, g.Reachable entry v := by
  by_contra hnone
  -- Otherwise no reachable node would be in the loop, not even its header.
  have hout : l.contains l.header = false := by
    refine (header_reachable hg hl).induction (P := fun v => l.contains v = false) ?_ ?_
    · by_contra hc
      rw [Bool.not_eq_false] at hc
      exact hne (header_eq_entry hg hl hc)
    · intro v w hv hvout hw _
      by_contra hc
      rw [Bool.not_eq_false] at hc
      by_cases hwh : w = l.header
      · subst hwh
        have hpred := (hg.symmetric v l.header).1 hw
        exact hnone ⟨v, List.mem_filter.2 ⟨hpred, by simp [hvout]⟩, hv⟩
      · rw [contains_pred hg hl hc hwh hw] at hvout
        cases hvout
  rw [contains_header hg hl] at hout
  cases hout

/-- What dominates a reachable node of a loop from outside dominates the header. -/
theorem dominates_header {u : Nat} (hu : l.contains u = false) (hv : l.contains v = true)
    (hr : g.Reachable entry v) (hd : g.Dominates entry u v) : g.Dominates entry u l.header := by
  intro p hp
  by_contra hmem
  -- From the header a path that keeps off `u` goes on to everything in the loop.
  have hoff : l.contains v = true → ∃ q, g.Path entry v q ∧ u ∉ q := by
    clear hv hd
    refine hr.induction (P := fun v => l.contains v = true → ∃ q, g.Path entry v q ∧ u ∉ q)
      (fun hv => ?_) fun v w _ ih hw hlt hin => ?_
    · exact ⟨p, header_eq_entry hg hl hv ▸ hp, hmem⟩
    · by_cases hwh : w = l.header
      · exact ⟨p, hwh ▸ hp, hmem⟩
      · obtain ⟨q, hq, hnot⟩ := ih (contains_pred hg hl hin hwh hw)
        refine ⟨q ++ [w], hq.step hw hlt, fun hu' => ?_⟩
        rcases List.mem_append.1 hu' with hu' | hu'
        · exact hnot hu'
        · rw [List.mem_singleton.1 hu', hin] at hu
          cases hu
  obtain ⟨q, hq, hnot⟩ := hoff hv
  exact hnot (hd q hq)

theorem not_contains_entry (hentry : ∀ v, entry ∉ g.succs v) : l.contains entry = false := by
  by_contra hc
  rw [Bool.not_eq_false] at hc
  obtain ⟨-, -, hne⟩ := eq_loopAt hl
  obtain ⟨t, ht⟩ := List.exists_mem_of_ne_nil _ hne
  exact hentry t (header_eq_entry hg hl hc ▸ ((mem_latches hg).1 ht).2.1)

include hk

/-- Of two loops that share a reachable node one holds the header of the other. -/
theorem contains_header_of_common (hv : l.contains v = true) (hv' : k.contains v = true)
    (hr : g.Reachable entry v) : l.contains k.header = true ∨ k.contains l.header = true := by
  revert hv hv'
  refine hr.induction (P := fun v => l.contains v = true → k.contains v = true → _)
    (fun hv _ => ?_) fun u w hu ih hw _ hv hv' => ?_
  · right
    rwa [header_eq_entry hg hl hv]
  · by_cases hwl : w = l.header
    · exact .inr (hwl ▸ hv')
    · by_cases hwk : w = k.header
      · exact .inl (hwk ▸ hv)
      · exact ih (contains_pred hg hl hv hwl hw) (contains_pred hg hk hv' hwk hw)

theorem header_eq_of_contains (h : l.contains k.header = true) (h' : k.contains l.header = true) :
    l.header = k.header :=
  (header_dominates hg hl h (header_reachable hg hk)).antisymm
    (header_dominates hg hk h' (header_reachable hg hl)) (header_reachable hg hk)

/-- A loop holds the whole of every other one whose header it holds. -/
theorem contains_of_contains_header (hne : l.header ≠ k.header)
    (h : l.contains k.header = true) (hv : k.contains v = true) : l.contains v = true := by
  have hin := (contains_iff hg hk).1 hv
  induction hin with
  | header => exact h
  | latch ht => exact contains_pred hg hl h (Ne.symm hne) ((mem_latches hg).1 ht).2.1
  | @pred v w hw hnew hs ih =>
    have hkw := (contains_iff hg hk).2 hw
    have hwl : w ≠ l.header := by
      rintro rfl
      exact hne (header_eq_of_contains hg hl hk h hkw)
    exact contains_pred hg hl (ih hkw) hwl hs

omit hg hl hk in
theorem exists_perm_cons {loops : List NaturalLoop} (h : l ∈ loops) :
    ∃ rest, loops.Perm (l :: rest) := by
  obtain ⟨before, after, rfl⟩ := List.append_of_mem h
  exact ⟨before ++ after, List.perm_middle⟩

theorem depth_lt (hne : l.header ≠ k.header) (h : l.contains k.header = true) :
    l.depth < k.depth := by
  have hle : ∀ m ∈ (ofGraph g (.ofGraph g entry)).loops,
      (m.header != l.header && m.contains l.header) = true →
        (m.header != k.header && m.contains k.header) = true := by
    intro m hm hp
    obtain ⟨hml, hmc⟩ : m.header ≠ l.header ∧ m.contains l.header = true := by
      simpa using hp
    have hmk : m.header ≠ k.header := by
      intro heq
      obtain rfl := eq_of_header_eq hm hk heq
      exact hne (header_eq_of_contains hg hl hk h hmc)
    have hk' := contains_of_contains_header hg hm hl hml hmc h
    simp [hmk, hk']
  obtain ⟨rest, hperm⟩ := exists_perm_cons hl
  have hrest := List.countP_mono_left fun m hm =>
    hle m (hperm.mem_iff.2 (List.mem_cons_of_mem _ hm))
  rw [depth_eq hl, depth_eq hk, hperm.countP_eq, hperm.countP_eq,
    List.countP_cons_of_neg (by simp), List.countP_cons_of_pos (by simp [hne, h])]
  exact Nat.lt_succ_of_le hrest

end Loop

theorem mem_outermostFirst {f : LoopForest} : l ∈ f.outermostFirst ↔ l ∈ f.loops :=
  List.mem_mergeSort

theorem pairwise_outermostFirst (f : LoopForest) :
    f.outermostFirst.Pairwise (·.depth ≤ ·.depth) := by
  have hsorted : f.outermostFirst.Pairwise fun a b =>
      (a.depth < b.depth || (a.depth == b.depth && a.header ≤ b.header)) = true := by
    apply List.pairwise_mergeSort
    · intro a b c hab hbc
      simp only [Bool.or_eq_true, decide_eq_true_eq, Bool.and_eq_true, beq_iff_eq] at hab hbc ⊢
      omega
    · intro a b
      simp only [Bool.or_eq_true, decide_eq_true_eq, Bool.and_eq_true, beq_iff_eq]
      omega
  refine hsorted.imp fun {a b} hab => ?_
  simp only [Bool.or_eq_true, decide_eq_true_eq, Bool.and_eq_true, beq_iff_eq] at hab
  omega

/-- Loops that are found by rising depth are in that order already. -/
theorem outermostFirst_of_sorted {f : LoopForest} (h : f.loops.Pairwise (·.depth < ·.depth)) :
    f.outermostFirst = f.loops :=
  List.mergeSort_of_pairwise (h.imp fun hlt => by simp [hlt])

theorem pairwise_header_outermostFirst : (ofGraph g (.ofGraph g entry)).outermostFirst.Pairwise
    (·.header ≠ ·.header) :=
  pairwise_header.perm (List.mergeSort_perm _ _).symm fun h => h.symm

/-- Every path to a node of a loop passes the header, and every edge into the loop leads there. The
dominators that were computed hold the header for the nodes that can be reached and for no
others. -/
theorem header_dominates_loop (hg : g.WellFormed) (entry : Nat) (l : NaturalLoop)
    (hl : l ∈ (ofGraph g (.ofGraph g entry)).loops) :
    (∀ v, l.contains v = true → g.Dominates entry l.header v ∧
      ((Dominance.ofGraph g entry).dominates l.header v = true ↔ g.Reachable entry v)) ∧
    ∀ v w, w ∈ g.succs v → l.contains v = false → l.contains w = true → w = l.header := by
  constructor
  · intro v hv
    by_cases hr : g.Reachable entry v
    · have hdom := header_dominates hg hl hv hr
      exact ⟨hdom, iff_of_true ((Dominance.dominates_iff hg.symmetric hr).2 hdom) hr⟩
    · have hne : l.header ≠ v := fun heq => hr (heq ▸ header_reachable hg hl)
      refine ⟨fun p hp => absurd ⟨p, hp⟩ hr, iff_of_false (fun hdom => ?_) hr⟩
      by_cases hlt : v < g.size
      · exact hne ((Dominance.dominates_iff_of_unreachable hg.symmetric hlt hr).1 hdom)
      · rw [Dominance.dominates_of_not_lt hg.symmetric hlt] at hdom
        cases hdom
  · intro v w hs hv hw
    by_contra hne
    rw [contains_pred hg hl hw hne hs] at hv
    cases hv

/-- A loop of two nodes, and a node that leads into it although nothing leads there. -/
def sideEntry : Digraph Unit where
  nodes := #[(), (), (), ()]
  outgoing := #[[1], [2], [1], [2]]
  incoming := #[[], [0, 2], [1, 3], []]
  edgeCount := 4

theorem sideEntry_wellFormed : sideEntry.WellFormed :=
  have h : ofEdges [(), (), (), ()] [(0, 1), (1, 2), (2, 1), (3, 2)] = .ok sideEntry := rfl
  (ofEdges_ok h).1

theorem sideEntry_header_dominates : ∃ l, l ∈ (ofGraph sideEntry (.ofGraph sideEntry 0)).loops ∧
    sideEntry.WellFormed ∧ l.contains 3 = true ∧
    (∀ v, l.contains v = true → sideEntry.Dominates 0 l.header v ∧
      ((Dominance.ofGraph sideEntry 0).dominates l.header v = true ↔ sideEntry.Reachable 0 v)) ∧
    ∀ v w, w ∈ sideEntry.succs v → l.contains v = false → l.contains w = true →
      w = l.header := by
  obtain ⟨l, hl, hcontains⟩ : ∃ l ∈ (ofGraph sideEntry (.ofGraph sideEntry 0)).loops,
      l.contains 3 = true := by decide +kernel
  exact ⟨l, hl, sideEntry_wellFormed, hcontains, header_dominates_loop sideEntry_wellFormed 0 l hl⟩

/-- The header is no dominator of that node, which is in the loop. -/
theorem sideEntry_not_dominated : ∃ l ∈ (ofGraph sideEntry (.ofGraph sideEntry 0)).loops,
    l.contains 3 = true ∧ (Dominance.ofGraph sideEntry 0).dominates l.header 3 = false := by
  decide +kernel

end LoopForest

end FlowOpt
