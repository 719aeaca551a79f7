import FlowOpt.Proofs.Graph.Loop

/-!
# Loops entered through new nodes

The edges that enter some loops from outside are led through new nodes, one in front of each header.
Every path keeps the nodes it had and their order, so the old nodes dominate each other as before.
A new node that is the only one in front of its header dominates the loop, and is dominated by what
alone led to the header from outside. The loops are the old ones again, and a new node is in those
that hold its header as an inner node.
-/

namespace FlowOpt

open FlowOpt.Digraph

variable {α β : Type}

/-- The graph `g'` is `g` but for the new nodes: `place` says where a node of `g` is in it, and
`Door h d` that the loop of the header `h` is entered through the node `d`. -/
structure Rerouted (g : Digraph α) (g' : Digraph β) (place : Nat → Nat)
    (Door : Nat → Nat → Prop) : Prop where
  nonempty : 0 < g.size
  entry : place 0 = 0
  lt : ∀ v, v < g.size → place v < g'.size
  inj : ∀ v w, v < g.size → w < g.size → place v = place w → v = w
  isLoop : ∀ h d, Door h d →
    LoopForest.loopAt g 0 h ∈ (LoopForest.ofGraph g (.ofGraph g 0)).loops ∧ d < g'.size
  apart : ∀ v h, v < g.size → ¬ Door h (place v)
  header : ∀ h k d, Door h d → Door k d → h = k
  cover : ∀ u, u < g'.size → (∃ v, v < g.size ∧ u = place v) ∨ ∃ h, Door h u
  direct : ∀ v w, v < g.size → w < g.size → (place w ∈ g'.succs (place v) ↔
    w ∈ g.succs v ∧ ∀ d, Door w d → (LoopForest.loopAt g 0 w).contains v = true)
  enters : ∀ v h d, v < g.size → Door h d → (d ∈ g'.succs (place v) ↔
    h ∈ g.succs v ∧ (LoopForest.loopAt g 0 h).contains v = false)
  leaves : ∀ h d u, Door h d → (u ∈ g'.succs d ↔ u = place h)

namespace Rerouted

variable {g : Digraph α} {g' : Digraph β} {place : Nat → Nat} {Door : Nat → Nat → Prop}
  {a b d h u v w : Nat} {p p' : List Nat} {l l' : NaturalLoop}
  (hr : Rerouted g g' place Door)
include hr

theorem header_lt (hd : Door h d) : h < g.size :=
  (LoopForest.eq_loopAt (hr.isLoop h d hd).1).2.1

theorem edge (hv : v < g.size) (hlt : w < g.size) (hw : w ∈ g.succs v) :
    place w ∈ g'.succs (place v) ∨ ∃ d, Door w d ∧ d ∈ g'.succs (place v) := by
  by_cases hin : ∀ d, Door w d → (LoopForest.loopAt g 0 w).contains v = true
  · exact .inl ((hr.direct v w hv hlt).2 ⟨hw, hin⟩)
  · push Not at hin
    obtain ⟨d, hd, hout⟩ := hin
    exact .inr ⟨d, hd, (hr.enters v w d hv hd).2 ⟨hw, by simpa using hout⟩⟩

/-- A path is found again, with new nodes in front of some headers. -/
theorem exists_lift (hp : g.Path 0 v p) : ∃ p', g'.Path 0 (place v) p' ∧
    ∀ u ∈ p', (∃ w ∈ p, u = place w) ∨ ∃ h ∈ p, Door h u := by
  induction hp with
  | start hlt =>
    refine ⟨[0], ?_, fun u hu => .inl ⟨0, by simp, ?_⟩⟩
    · rw [hr.entry]
      exact .start (hr.entry ▸ hr.lt 0 hlt)
    · rw [hr.entry, List.mem_singleton.1 hu]
  | @step v w p hp hw hlt ih =>
    obtain ⟨p', hp', hnodes⟩ := ih
    have hold : ∀ u ∈ p', (∃ x ∈ p ++ [w], u = place x) ∨ ∃ h ∈ p ++ [w], Door h u := by
      intro u hu
      rcases hnodes u hu with ⟨x, hx, rfl⟩ | ⟨h, hh, hd⟩
      · exact .inl ⟨x, List.mem_append_left _ hx, rfl⟩
      · exact .inr ⟨h, List.mem_append_left _ hh, hd⟩
    rcases hr.edge hp.lt hlt hw with hdirect | ⟨d, hd, henter⟩
    · refine ⟨p' ++ [place w], hp'.step hdirect (hr.lt w hlt), fun u hu => ?_⟩
      rcases List.mem_append.1 hu with hu | hu
      · exact hold u hu
      · exact .inl ⟨w, by simp, List.mem_singleton.1 hu⟩
    · have hfirst := hp'.step henter (hr.isLoop w d hd).2
      refine ⟨p' ++ [d] ++ [place w],
        hfirst.step ((hr.leaves w d _ hd).2 rfl) (hr.lt w hlt), fun u hu => ?_⟩
      rcases List.mem_append.1 hu with hu | hu
      · rcases List.mem_append.1 hu with hu | hu
        · exact hold u hu
        · rw [List.mem_singleton.1 hu]
          exact .inr ⟨w, by simp, hd⟩
      · exact .inl ⟨w, by simp, List.mem_singleton.1 hu⟩

/-- Without its new nodes a path is one of the old graph, which leads to the same node or to what
enters through the last new node. -/
theorem exists_contraction (hp' : g'.Path 0 u p') :
    ∃ v p, g.Path 0 v p ∧ (∀ w ∈ p, place w ∈ p') ∧
      (u = place v ∨ ∃ h, Door h u ∧ h ∈ g.succs v) := by
  induction hp' with
  | start hlt =>
    refine ⟨0, [0], .start hr.nonempty, fun w hw => ?_, .inl hr.entry.symm⟩
    rw [List.mem_singleton.1 hw, hr.entry]
    exact List.mem_cons_self
  | @step u u' p' hp' hu' hlt ih =>
    obtain ⟨v, p, hp, hnodes, hend⟩ := ih
    have hold : ∀ w ∈ p, place w ∈ p' ++ [u'] := fun w hw =>
      List.mem_append_left _ (hnodes w hw)
    have hstep : ∀ w, w ∈ g.succs v → w < g.size → u' = place w →
        ∃ v p, g.Path 0 v p ∧ (∀ w ∈ p, place w ∈ p' ++ [u']) ∧
          (u' = place v ∨ ∃ h, Door h u' ∧ h ∈ g.succs v) := by
      rintro w hw hwlt rfl
      refine ⟨w, p ++ [w], hp.step hw hwlt, fun x hx => ?_, .inl rfl⟩
      rcases List.mem_append.1 hx with hx | hx
      · exact hold x hx
      · rw [List.mem_singleton.1 hx]
        exact List.mem_append_right _ List.mem_cons_self
    -- From an old node an edge leads to an old or a new one; from a new one only to its header.
    rcases hend with rfl | ⟨h, hd, hh⟩
    · rcases hr.cover u' hlt with ⟨w, hw, rfl⟩ | ⟨h, hd⟩
      · exact hstep w ((hr.direct v w hp.lt hw).1 hu').1 hw rfl
      · exact ⟨v, p, hp, hold, .inr ⟨h, hd, ((hr.enters v h u' hp.lt hd).1 hu').1⟩⟩
    · exact hstep h hh (hr.header_lt hd) ((hr.leaves h u u' hd).1 hu')

theorem reachable_place (hv : g.Reachable 0 v) : g'.Reachable 0 (place v) :=
  have ⟨p', hp', _⟩ := hr.exists_lift hv.choose_spec
  ⟨p', hp'⟩

theorem dominates_place_iff (ha : a < g.size) (hb : b < g.size) :
    g'.Dominates 0 (place a) (place b) ↔ g.Dominates 0 a b := by
  constructor
  · intro hdom p hp
    obtain ⟨p', hp', hnodes⟩ := hr.exists_lift hp
    rcases hnodes _ (hdom p' hp') with ⟨w, hw, heq⟩ | ⟨h, -, hd⟩
    · rwa [hr.inj a w ha (hp.reachable_of_mem hw).lt heq]
    · exact absurd hd (hr.apart a h ha)
  · intro hdom p' hp'
    obtain ⟨v, p, hp, hnodes, heq | ⟨h, hd, -⟩⟩ := hr.exists_contraction hp'
    · obtain rfl := hr.inj b v hb hp.lt heq
      exact hnodes a (hdom p hp)
    · exact absurd hd (hr.apart b h hb)

theorem dominates_of_door (hd : Door h d) (hdom : g'.Dominates 0 d (place v)) :
    g.Dominates 0 h v := by
  intro p hp
  obtain ⟨p', hp', hnodes⟩ := hr.exists_lift hp
  rcases hnodes d (hdom p' hp') with ⟨w, hw, rfl⟩ | ⟨k, hk, hdk⟩
  · exact absurd hd (hr.apart w h (hp.reachable_of_mem hw).lt)
  · rwa [hr.header h k d hd hdk]

/-- What alone leads to a header from outside its loop dominates the new node there. -/
theorem dominates_door_of_enters (hd : Door h d) (hne : d ≠ 0)
    (hone : ∀ v, h ∈ g.succs v → (LoopForest.loopAt g 0 h).contains v = false → v = w) :
    g'.Dominates 0 (place w) d := by
  intro p' hp'
  cases hp' with
  | start => exact absurd rfl hne
  | @step u _ p' hp' hs hlt =>
    apply List.mem_append_left
    rcases hr.cover u hp'.lt with ⟨v, hv, rfl⟩ | ⟨k, hk⟩
    · obtain ⟨hh, hout⟩ := (hr.enters v h d hv hd).1 hs
      rw [← hone v hh hout]
      exact hp'.mem_last
    · rw [(hr.leaves k u d hk).1 hs] at hd
      exact absurd hd (hr.apart k h (hr.header_lt hk))

/-- A loop with one new node is entered through it alone, so all of the loop stands behind it. -/
theorem door_dominates (hg : g.WellFormed) (hentry : ∀ v, 0 ∉ g.succs v) (hd : Door h d)
    (hone : ∀ d', Door h d' → d' = d) (hv : v < g.size)
    (hin : (LoopForest.loopAt g 0 h).contains v = true) : g'.Dominates 0 d (place v) := by
  have hl := (hr.isLoop h d hd).1
  have hpred : ∀ {v w}, (LoopForest.loopAt g 0 h).contains w = true → w ≠ h → w ∈ g.succs v →
      (LoopForest.loopAt g 0 h).contains v = true := LoopForest.contains_pred hg hl
  -- The new nodes of the loops inside stand behind it too.
  suffices hall : ∀ u p', g'.Path 0 u p' →
      (∀ v, v < g.size → u = place v → (LoopForest.loopAt g 0 h).contains v = true → d ∈ p') ∧
        ∀ k, Door k u → (LoopForest.loopAt g 0 h).contains k = true → k ≠ h → d ∈ p' from
    fun p' hp' => (hall _ p' hp').1 v hv rfl hin
  intro u p' hp'
  induction hp' with
  | start hlt =>
    refine ⟨fun v hv heq hin => ?_, fun k hk _ _ => ?_⟩
    · obtain rfl := hr.inj 0 v hr.nonempty hv (hr.entry.trans heq)
      rw [LoopForest.not_contains_entry hg hl hentry] at hin
      cases hin
    · have hnot := hr.apart 0 k hr.nonempty
      rw [hr.entry] at hnot
      exact absurd hk hnot
  | @step u u' p' hp' hs hlt ih =>
    refine ⟨fun v hv heq hin => List.mem_append.2 ?_,
      fun k hk hin hne => List.mem_append_left _ ?_⟩
    · subst heq
      rcases hr.cover u hp'.lt with ⟨w, hw, rfl⟩ | ⟨k, hk⟩
      · obtain ⟨hs, hinner⟩ := (hr.direct w v hw hv).1 hs
        refine .inl (ih.1 w hw rfl ?_)
        by_cases hvh : v = h
        · exact hvh ▸ hinner d (hvh ▸ hd)
        · exact hpred hin hvh hs
      · obtain rfl := hr.inj v k hv (hr.header_lt hk) ((hr.leaves k u _ hk).1 hs)
        by_cases hvh : v = h
        · rw [← hone u (hvh ▸ hk)]
          exact .inl hp'.mem_last
        · exact .inl (ih.2 v hk hin hvh)
    · rcases hr.cover u hp'.lt with ⟨w, hw, rfl⟩ | ⟨k', hk'⟩
      · exact ih.1 w hw rfl (hpred hin hne ((hr.enters w k u' hw hk).1 hs).1)
      · rw [(hr.leaves k' u u' hk').1 hs] at hk
        exact absurd hk (hr.apart k' k (hr.header_lt hk'))

section Loops

variable (hg : g.WellFormed) (hg' : g'.WellFormed) (hreach : ∀ v, v < g.size → g.Reachable 0 v)
include hg hreach

theorem not_dominates_of_enters (hv : v < g.size) (hd : Door h d)
    (henter : d ∈ g'.succs (place v)) : ¬ g.Dominates 0 h v := by
  intro hdom
  obtain ⟨hh, hout⟩ := (hr.enters v h d hv hd).1 henter
  have hin := LoopForest.contains_of_dominates hg (hr.isLoop h d hd).1 (hreach v hv) hh hdom
  rw [hin] at hout
  cases hout

omit hreach in
theorem exists_enters (hentry : ∀ v, 0 ∉ g.succs v) (hd : Door h d) :
    ∃ v, g.Reachable 0 v ∧ d ∈ g'.succs (place v) := by
  obtain ⟨hl, -⟩ := hr.isLoop h d hd
  have hne : h ≠ 0 := by
    rintro rfl
    have hout := LoopForest.not_contains_entry hg hl hentry
    have hin : (LoopForest.loopAt g 0 0).contains 0 = true := LoopForest.contains_header hg hl
    rw [hout] at hin
    cases hin
  obtain ⟨v, hv, hvr⟩ := LoopForest.exists_entering hg hl hne
  obtain ⟨hpred, hout⟩ := List.mem_filter.1 hv
  have hs : h ∈ g.succs v := (hg.symmetric v h).2 hpred
  exact ⟨v, hvr, (hr.enters v h d hvr.lt hd).2 ⟨hs, by simpa using hout⟩⟩

theorem reachable (hentry : ∀ v, 0 ∉ g.succs v) (hu : u < g'.size) : g'.Reachable 0 u := by
  rcases hr.cover u hu with ⟨v, hv, rfl⟩ | ⟨h, hd⟩
  · exact hr.reachable_place (hreach v hv)
  · obtain ⟨v, hv, henter⟩ := hr.exists_enters hg hentry hd
    exact (hr.reachable_place hv).step henter hu

theorem not_dominates_door (hentry : ∀ v, 0 ∉ g.succs v) (hd : Door h d) :
    ¬ g'.Dominates 0 (place h) d := by
  have hlt := (hr.isLoop h d hd).2
  obtain ⟨v, hvr, henter⟩ := hr.exists_enters hg hentry hd
  intro hdom
  apply hr.not_dominates_of_enters hg hreach hvr.lt hd henter
  -- A path to what enters the new node goes on to it, and its last node is no header.
  refine (hr.dominates_place_iff (hr.header_lt hd) hvr.lt).1 fun p' hp' => ?_
  rcases List.mem_append.1 (hdom _ (hp'.step henter hlt)) with hmem | hmem
  · exact hmem
  · rw [List.mem_singleton] at hmem
    exact absurd (hmem ▸ hd) (hr.apart h h (hr.header_lt hd))

include hg'

variable (hentry : ∀ v, 0 ∉ g.succs v)
include hentry

theorem mem_latches (hv : v ∈ LoopForest.latches g' (.ofGraph g' 0) (place h)) (hh : h < g.size) :
    ∃ w ∈ LoopForest.latches g (.ofGraph g 0) h, v = place w := by
  obtain ⟨hvr, hs, hdom⟩ := (LoopForest.mem_latches hg').1 hv
  rcases hr.cover v hvr.lt with ⟨w, hw, rfl⟩ | ⟨k, hd⟩
  · refine ⟨w, (LoopForest.mem_latches hg).2 ⟨hreach w hw, ?_, ?_⟩, rfl⟩
    · exact ((hr.direct w h hw hh).1 hs).1
    · exact (hr.dominates_place_iff hh hw).1 hdom
  · obtain rfl : h = k :=
      hr.inj h k hh (hr.header_lt hd) ((hr.leaves k v _ hd).1 hs)
    exact absurd hdom (hr.not_dominates_door hg hreach hentry hd)

/-- Every loop is an old one. -/
theorem exists_header (hl' : l' ∈ (LoopForest.ofGraph g' (.ofGraph g' 0)).loops) :
    ∃ l ∈ (LoopForest.ofGraph g (.ofGraph g 0)).loops, l'.header = place l.header := by
  obtain ⟨-, hlt, hne⟩ := LoopForest.eq_loopAt hl'
  obtain ⟨t, ht⟩ := List.exists_mem_of_ne_nil _ hne
  rcases hr.cover l'.header hlt with ⟨h, hh, heq⟩ | ⟨h, hd⟩
  · rw [heq] at ht
    obtain ⟨w, hw, -⟩ := hr.mem_latches hg hg' hreach hentry ht hh
    refine ⟨LoopForest.loopAt g 0 h, ?_, heq⟩
    rw [LoopForest.loops_ofGraph]
    refine List.mem_map_of_mem (List.mem_filter.2 ⟨List.mem_range.2 hh, ?_⟩)
    simpa using List.ne_nil_of_mem hw
  · obtain ⟨htr, hs, hdom⟩ := (LoopForest.mem_latches hg').1 ht
    rcases hr.cover t htr.lt with ⟨v, hv, rfl⟩ | ⟨k, hdk⟩
    · exact absurd (hr.dominates_of_door hd hdom)
        (hr.not_dominates_of_enters hg hreach hv hd hs)
    · have heq := (hr.leaves k t _ hdk).1 hs
      exact absurd (heq ▸ hd) (hr.apart k h (hr.header_lt hdk))

variable (hl : l ∈ (LoopForest.ofGraph g (.ofGraph g 0)).loops)
  (hl' : l' ∈ (LoopForest.ofGraph g' (.ofGraph g' 0)).loops) (heq : l'.header = place l.header)
include hl hl' heq

/-- Nothing is in a loop that was not in it, but for new nodes of the loops inside. -/
theorem of_contains (hu : l'.contains u = true) :
    (∀ v, v < g.size → u = place v → l.contains v = true) ∧
      ∀ h, Door h u → l.contains h = true ∧ h ≠ l.header := by
  have hlt := (LoopForest.eq_loopAt hl).2.1
  have hin := (LoopForest.contains_iff hg' hl').1 hu
  rw [heq] at hin
  clear hu
  -- By induction on how `u` came into the loop, for old and new nodes at once.
  induction hin with
  | header =>
    refine ⟨fun v hv hplace => ?_, fun h hd => absurd hd (hr.apart _ h hlt)⟩
    rw [← hr.inj _ v hlt hv hplace]
    exact LoopForest.contains_header hg hl
  | latch ht =>
    obtain ⟨w, hw, rfl⟩ := hr.mem_latches hg hg' hreach hentry ht hlt
    have hwlt := ((LoopForest.mem_latches hg).1 hw).1.lt
    refine ⟨fun v hv hplace => ?_, fun h hd => absurd hd (hr.apart w h hwlt)⟩
    rw [← hr.inj w v hwlt hv hplace]
    exact (LoopForest.contains_iff hg hl).2 (.latch hw)
  | @pred u u' hu' hne hs ih =>
    have hsize := (hg'.succs_lt u u' hs).2
    constructor
    · rintro v hv rfl
      rcases hr.cover u' hsize with ⟨w, hw, rfl⟩ | ⟨h, hd⟩
      · refine LoopForest.contains_pred hg hl (ih.1 w hw rfl) (fun hwh => hne (hwh ▸ rfl)) ?_
        exact ((hr.direct v w hv hw).1 hs).1
      · obtain ⟨hin, hneq⟩ := ih.2 h hd
        exact LoopForest.contains_pred hg hl hin hneq ((hr.enters v h u' hv hd).1 hs).1
    · intro h hd
      obtain rfl := (hr.leaves h u u' hd).1 hs
      exact ⟨ih.1 h (hr.header_lt hd) rfl, fun hh => hne (hh ▸ rfl)⟩

omit hreach hentry in
theorem contains_place_of (hv : l.contains v = true) : l'.contains (place v) = true := by
  have hlt := (LoopForest.eq_loopAt hl).2.1
  have hin := (LoopForest.contains_iff hg hl).1 hv
  clear hv
  induction hin with
  | header =>
    rw [← heq]
    exact LoopForest.contains_header hg' hl'
  | @latch v ht =>
    obtain ⟨hvr, hs, hdom⟩ := (LoopForest.mem_latches hg).1 ht
    have hv : l.contains v = true := (LoopForest.contains_iff hg hl).2 (.latch ht)
    apply LoopForest.contains_of_dominates hg' hl' (hr.reachable_place hvr)
    · rw [heq, hr.direct v l.header hvr.lt hlt]
      refine ⟨hs, fun d hd => ?_⟩
      rwa [← (LoopForest.eq_loopAt hl).1]
    · rw [heq]
      exact (hr.dominates_place_iff hlt hvr.lt).2 hdom
  | @pred v w hw hne hs ih =>
    obtain ⟨hvlt, hwlt⟩ := hg.succs_lt v w hs
    have hne' : place w ≠ l'.header := fun hh => hne (hr.inj w _ hwlt hlt (hh.trans heq))
    rcases hr.edge hvlt hwlt hs with hdirect | ⟨d, hd, henter⟩
    · exact LoopForest.contains_pred hg' hl' ih hne' hdirect
    · have hin : l'.contains d = true :=
        LoopForest.contains_pred hg' hl' ih hne' ((hr.leaves w d _ hd).2 rfl)
      refine LoopForest.contains_pred hg' hl' hin (fun hh => ?_) henter
      exact hr.apart l.header w hlt (heq ▸ hh ▸ hd)

theorem contains_place_iff (hv : v < g.size) :
    l'.contains (place v) = true ↔ l.contains v = true :=
  ⟨fun h => (hr.of_contains hg hg' hreach hentry hl hl' heq h).1 v hv rfl,
    hr.contains_place_of hg hg' hl hl' heq⟩

theorem contains_door_iff (hd : Door h d) :
    l'.contains d = true ↔ l.contains h = true ∧ h ≠ l.header := by
  constructor
  · exact fun hin => (hr.of_contains hg hg' hreach hentry hl hl' heq hin).2 h hd
  · rintro ⟨hin, hne⟩
    have hplace := hr.contains_place_of hg hg' hl hl' heq hin
    refine LoopForest.contains_pred hg' hl' hplace (fun hh => hne ?_)
      ((hr.leaves h d _ hd).2 rfl)
    exact hr.inj h _ (hr.header_lt hd) (LoopForest.eq_loopAt hl).2.1 (hh.trans heq)

end Loops

end Rerouted

end FlowOpt
