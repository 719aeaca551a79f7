import FlowOpt.Proofs.Except
import FlowOpt.Proofs.Hoist.Invariant

/-!
# What is marked is the least set closed under the rule

Each scan but the last marks something, so the marking ends, and it ends where no instruction of the
loop can be marked any more. Every mark was put by the rule, from marks that stood before, so that
it belongs to any set that is closed under the rule. Two instructions that read each other's
results support no mark.
-/

namespace FlowOpt

namespace NaturalLoop

variable {g : FlowGraph} {l : NaturalLoop} {live : FactMap} {s t : Site} {x : String}
  {sites marked before after out : List Site} {fuel : Nat}

theorem length_foldl_canMark (sites : List Site) (live : FactMap) (rest marked : List Site) :
    let next := rest.foldl (fun marked s =>
      if canMark sites live marked s then marked ++ [s] else marked) marked
    marked.length ≤ next.length ∧
      (next.length = marked.length → next = marked ∧
        ∀ s ∈ rest, canMark sites live marked s = false) := by
  induction rest generalizing marked with
  | nil => exact ⟨le_rfl, fun _ => ⟨rfl, by simp⟩⟩
  | cons s rest ih =>
    simp only [List.foldl_cons]
    cases hs : canMark sites live marked s with
    | true =>
      have hle := (ih (marked ++ [s])).1
      rw [List.length_append, List.length_singleton] at hle
      simp only [if_true]
      exact ⟨by omega, fun h => by omega⟩
    | false =>
      obtain ⟨hle, hsame⟩ := ih marked
      refine ⟨hle, fun h => ⟨(hsame h).1, fun t ht => ?_⟩⟩
      rcases List.mem_cons.1 ht with rfl | ht
      · exact hs
      · exact (hsame h).2 t ht

theorem markScan_cases (sites : List Site) (live : FactMap) (marked : List Site) :
    marked.length < (markScan sites live marked).length ∨
      markScan sites live marked = marked ∧ ∀ s ∈ sites, canMark sites live marked s = false := by
  obtain ⟨hle, hsame⟩ := length_foldl_canMark sites live sites marked
  rcases Nat.lt_or_eq_of_le hle with hlt | heq
  · exact .inl hlt
  · exact .inr (hsame heq.symm)

inductive MarksTo (sites : List Site) (live : FactMap) : List Site → List Site → Prop
  | last {marked : List Site} (h : markScan sites live marked = marked) :
      MarksTo sites live marked marked
  | again {marked out : List Site} (h : markScan sites live marked ≠ marked)
      (hout : MarksTo sites live (markScan sites live marked) out) : MarksTo sites live marked out

theorem MarksTo.not_canMark (h : MarksTo sites live marked out) (hs : s ∈ sites) :
    canMark sites live out s = false := by
  induction h with
  | last hscan =>
    rcases markScan_cases sites live _ with hlt | ⟨-, hnone⟩
    · rw [hscan] at hlt
      exact absurd hlt (Nat.lt_irrefl _)
    · exact hnone s hs
  | again _ _ ih => exact ih

theorem Marks.length_le (h : Marks sites live marked) : marked.length ≤ sites.length := by
  have hnodup : marked.Nodup :=
    h.pairwise.imp fun hst heq => hst.2 (congrArg (·.instr.dest) heq)
  exact (hnodup.subperm h.mem).length_le

/-- More fuel than sites is enough for all scans. -/
theorem Marks.marksTo (h : Marks sites live marked) (hf : sites.length < fuel + marked.length) :
    MarksTo sites live marked (markLoop sites live fuel marked) := by
  induction fuel generalizing marked with
  | zero =>
    have hle := h.length_le
    omega
  | succ fuel ih =>
    unfold markLoop
    simp only
    rcases markScan_cases sites live marked with hlt | ⟨hscan, -⟩
    · rw [if_neg (Nat.ne_of_gt hlt)]
      exact .again (fun hscan => absurd hlt (by simp [hscan])) (ih h.scan (by omega))
    · rw [hscan, if_pos rfl]
      exact .last hscan

theorem marksTo_invariants (g : FlowGraph) (l : NaturalLoop) (live : FactMap) :
    MarksTo (l.sites g) live [] (l.invariants g live) :=
  (Marks.nil (l.sites g) live).marksTo (by simp)

theorem nodup_sites (g : FlowGraph) (l : NaturalLoop) : (l.sites g).Nodup := by
  refine List.nodup_flatMap.2 ⟨fun v _ => ?_, (BitSet.nodup_members _).imp fun {v w} hne => ?_⟩
  · have hzip : ((((g.node? v).map (·.block.instrs)).getD []).zipIdx.map (·.2)).Nodup := by
      rw [List.zipIdx_map_snd]
      exact List.nodup_range'
    refine (List.Nodup.of_map _ hzip).map fun p q hpq => ?_
    simp only [Site.mk.injEq] at hpq
    exact Prod.ext hpq.2.2 hpq.2.1
  · intro s hs hs'
    obtain ⟨p, -, rfl⟩ := List.mem_map.1 hs
    obtain ⟨q, -, hq⟩ := List.mem_map.1 hs'
    exact hne (congrArg Site.node hq).symm

structure AssignsAlone (sites : List Site) (s : Site) (x : String) : Prop where
  mem : s ∈ sites
  dest : s.instr.dest = some x
  alone : ∀ t ∈ sites, t.instr.dest = some x → t = s

theorem mem_assignments : s ∈ assignments sites x ↔ s ∈ sites ∧ s.instr.dest = some x := by
  rw [assignments, List.mem_filter, beq_iff_eq]

theorem assignments_eq_nil_iff :
    assignments sites x = [] ↔ ∀ t ∈ sites, t.instr.dest ≠ some x := by
  rw [assignments, List.filter_eq_nil_iff]
  exact forall₂_congr fun t _ => not_congr beq_iff_eq

theorem assignments_eq_singleton_iff (hn : sites.Nodup) :
    assignments sites x = [s] ↔ AssignsAlone sites s x := by
  constructor
  · intro h
    obtain ⟨hs, hd⟩ := mem_assignments.1 (h ▸ List.mem_singleton_self s)
    refine ⟨hs, hd, fun t ht htd => List.mem_singleton.1 ?_⟩
    exact h ▸ mem_assignments.2 ⟨ht, htd⟩
  · intro h
    have hnodup : (assignments sites x).Nodup := hn.filter _
    refine List.perm_singleton.1 ((List.perm_ext_iff_of_nodup hnodup (List.nodup_singleton s)).2
      fun t => ?_)
    rw [mem_assignments, List.mem_singleton]
    exact ⟨fun ht => h.alone t ht.1 ht.2, fun ht => ht ▸ ⟨h.mem, h.dest⟩⟩

/-- The rule by which an instruction is marked, given the instructions marked. -/
structure Markable (sites : List Site) (live : FactMap) (marked : Set Site) (s : Site) : Prop where
  movable : s.instr.isMovable = true
  dest : ∃ x, AssignsAlone sites s x ∧ NameMap.contains live x = false
  args : ∀ x ∈ s.instr.args, (∀ t ∈ sites, t.instr.dest ≠ some x) ∨
    ∃ t ∈ marked, AssignsAlone sites t x

theorem Markable.mono {nodes more : Set Site} (h : Markable sites live nodes s)
    (hsub : nodes ⊆ more) : Markable sites live more s := by
  refine ⟨h.movable, h.dest, fun x hx => (h.args x hx).imp_right ?_⟩
  rintro ⟨t, ht, halone⟩
  exact ⟨t, hsub ht, halone⟩

def ClosedUnderMarking (sites : List Site) (live : FactMap) (marked : Set Site) : Prop :=
  ∀ s ∈ sites, Markable sites live marked s → s ∈ marked

theorem ownsDest_iff (hn : sites.Nodup) (hs : s ∈ sites) :
    ownsDest sites live s = true ↔
      ∃ x, AssignsAlone sites s x ∧ NameMap.contains live x = false := by
  unfold ownsDest
  cases hd : s.instr.dest with
  | none =>
    refine iff_of_false (by simp) ?_
    rintro ⟨x, hx, -⟩
    cases hd.symm.trans hx.dest
  | some x =>
    simp only [Bool.and_eq_true, Bool.not_eq_true', beq_iff_eq, List.length_eq_one_iff,
      assignments_eq_singleton_iff hn]
    constructor
    · rintro ⟨hlive, t, ht⟩
      obtain rfl := ht.alone s hs hd
      exact ⟨x, ht, hlive⟩
    · rintro ⟨y, hy, hlive⟩
      obtain rfl := Option.some.inj (hd.symm.trans hy.dest)
      exact ⟨hlive, s, hy⟩

theorem isInvariantArg_iff (hmarked : ∀ t ∈ marked, t ∈ l.sites g) :
    isInvariantArg (l.sites g) marked x = true ↔ (∀ t ∈ l.sites g, t.instr.dest ≠ some x) ∨
      ∃ t ∈ marked, AssignsAlone (l.sites g) t x := by
  have hn := nodup_sites g l
  unfold isInvariantArg
  split
  · next hnil => simpa using .inl (assignments_eq_nil_iff.1 hnil)
  · next t ht =>
    rw [assignments_eq_singleton_iff hn] at ht
    rw [List.any_eq_true]
    constructor
    · rintro ⟨u, hu, hat⟩
      exact .inr ⟨t, eq_of_isAt (hmarked u hu) ht.mem hat ▸ hu, ht⟩
    · rintro (hnone | ⟨u, hu, hau⟩)
      · exact absurd ht.dest (hnone t ht.mem)
      · exact ⟨u, hu, by simp [Site.isAt, ht.alone u hau.mem hau.dest]⟩
  · next hnil hone =>
    refine ⟨by simp, ?_⟩
    rintro (hnone | ⟨u, -, hau⟩)
    · exact absurd (assignments_eq_nil_iff.2 hnone) hnil
    · exact absurd ((assignments_eq_singleton_iff hn).2 hau) (hone u)

/-- The test of the scan is the rule, for what is not marked yet. -/
theorem canMark_iff (hmarked : ∀ t ∈ marked, t ∈ l.sites g) (hs : s ∈ l.sites g) :
    canMark (l.sites g) live marked s = true ↔
      s ∉ marked ∧ Markable (l.sites g) live {t | t ∈ marked} s := by
  have hnew : (!marked.any (·.isAt s)) = true ↔ s ∉ marked := by
    rw [Bool.not_eq_true', List.any_eq_false]
    constructor
    · exact fun h hmem => h s hmem (by simp [Site.isAt])
    · exact fun h t ht hat => h (eq_of_isAt (hmarked t ht) hs hat ▸ ht)
  simp only [canMark, Bool.and_eq_true, hnew, ownsDest_iff (nodup_sites g l) hs, List.all_eq_true,
    isInvariantArg_iff hmarked]
  constructor
  · rintro ⟨⟨⟨hn, hm⟩, hd⟩, ha⟩
    exact ⟨hn, hm, hd, ha⟩
  · rintro ⟨hn, hm, hd, ha⟩
    exact ⟨⟨⟨hn, hm⟩, hd⟩, ha⟩

theorem closed_invariants (g : FlowGraph) (l : NaturalLoop) (live : FactMap) :
    ClosedUnderMarking (l.sites g) live {s | s ∈ l.invariants g live} := by
  intro s hs hrule
  by_contra hnot
  have hcan := (canMark_iff (marks_invariants g l live).mem hs).2 ⟨hnot, hrule⟩
  rw [(marksTo_invariants g l live).not_canMark hs] at hcan
  cases hcan

/-- What is marked belongs to every closed set, by induction on what was marked before it. -/
theorem Marks.mem_of_closed {nodes : Set Site} (h : Marks (l.sites g) live marked)
    (hclosed : ClosedUnderMarking (l.sites g) live nodes) (hs : s ∈ marked) : s ∈ nodes := by
  have hbefore : ∀ before after, marked = before ++ after → ∀ t ∈ before, t ∈ nodes := by
    intro before
    induction before using List.reverseRecOn with
    | nil => exact fun _ _ t ht => absurd ht List.not_mem_nil
    | append_singleton before u ih =>
      intro after heq t ht
      rw [List.append_assoc, List.singleton_append] at heq
      rcases List.mem_append.1 ht with ht | ht
      · exact ih (u :: after) heq t ht
      · rw [List.mem_singleton.1 ht]
        have hsites : ∀ t ∈ before, t ∈ l.sites g := fun t ht =>
          h.mem t (heq ▸ List.mem_append_left _ ht)
        have hu : u ∈ l.sites g := h.mem u (by simp [heq])
        obtain ⟨-, hrule⟩ := (canMark_iff hsites hu).1 (h.allowed before u after heq)
        exact hclosed u hu (hrule.mono fun t ht => ih (u :: after) heq t ht)
  exact hbefore marked [] (List.append_nil _).symm s hs

theorem isLeast_invariants (g : FlowGraph) (l : NaturalLoop) (live : FactMap) :
    IsLeast {marked | ClosedUnderMarking (l.sites g) live marked}
      {s | s ∈ l.invariants g live} :=
  ⟨closed_invariants g l live, fun _ hclosed _ hs =>
    (marks_invariants g l live).mem_of_closed hclosed hs⟩

/-- What follows for an instruction from those it depends on holds of all that are marked. -/
theorem invariants_induction {P : Site → Prop}
    (h : ∀ s ∈ l.invariants g live, (∀ x ∈ s.instr.args, ∀ t ∈ l.sites g,
      t.instr.dest = some x → P t) → P s) : ∀ s ∈ l.invariants g live, P s := by
  have hclosed : ClosedUnderMarking (l.sites g) live {s | s ∈ l.invariants g live ∧ P s} := by
    intro s hs hrule
    have hmem := closed_invariants g l live s hs (hrule.mono fun t ht => ht.1)
    refine ⟨hmem, h s hmem fun x hx t ht hd => ?_⟩
    rcases hrule.args x hx with hnone | ⟨u, hu, halone⟩
    · exact absurd hd (hnone t ht)
    · exact halone.alone t ht hd ▸ hu.2
  exact fun s hs => ((isLeast_invariants g l live).2 hclosed hs).2

theorem mem_invariants (hs : s ∈ l.sites g) (hmov : s.instr.isMovable = true)
    (hd : s.instr.dest = some x) (hlive : NameMap.contains live x = false)
    (hone : ∀ t ∈ l.sites g, t.instr.dest = some x → t = s)
    (hargs : ∀ y ∈ s.instr.args, ∀ t ∈ l.sites g, t.instr.dest = some y →
      t ∈ l.invariants g live) : s ∈ l.invariants g live := by
  refine closed_invariants g l live s hs ⟨hmov, ⟨x, ⟨hs, hd, hone⟩, hlive⟩, fun y hy => ?_⟩
  by_cases hnone : ∀ t ∈ l.sites g, t.instr.dest ≠ some y
  · exact .inl hnone
  · push Not at hnone
    obtain ⟨t, ht, htd⟩ := hnone
    obtain ⟨z, hz, -, honly⟩ := (marks_invariants g l live).ownsDest (hargs y hy t ht htd)
    obtain rfl : z = y := Option.some.inj (hz.symm.trans htd)
    exact .inr ⟨t, hargs z hy t ht htd, ht, htd, honly⟩

/-- The marking ends with each instruction marked once, behind those in the loop that assign what it
reads. What it marks is the least set that is closed under the rule. -/
theorem invariants_least (g : FlowGraph) (l : NaturalLoop) (live : FactMap) :
    (∀ s, s ∈ l.sites g ↔ s.node ∈ l.body.members ∧ g.InstrAt s.node s.index s.instr) ∧
      MarksTo (l.sites g) live [] (l.invariants g live) ∧
      ((l.invariants g live).map fun s => (s.node, s.index)).Nodup ∧
      (∀ s ∈ l.invariants g live, s ∈ l.sites g ∧ s.instr.isMovable = true) ∧
      IsLeast {marked | ClosedUnderMarking (l.sites g) live marked}
        {s | s ∈ l.invariants g live} ∧
      ∀ before s after, l.invariants g live = before ++ s :: after → ∀ x ∈ s.instr.args,
        ∀ t ∈ l.sites g, t.instr.dest = some x → t ∈ before := by
  have hm := marks_invariants g l live
  refine ⟨fun s => mem_sites_iff, marksTo_invariants g l live, ?_,
    fun s hs => ⟨hm.mem s hs, hm.isMovable hs⟩, isLeast_invariants g l live,
    fun before s after heq x hx t ht hd => arg_mem_before heq hx ht hd⟩
  rw [List.Nodup, List.pairwise_map]
  refine pairwise_of_split fun before s after heq t ht hplace => ?_
  have hnot := hm.not_isAt heq ht
  rw [Site.isAt_iff.2 ⟨congrArg Prod.fst hplace, congrArg Prod.snd hplace⟩] at hnot
  cases hnot

def waiting : List Block :=
  [⟨"start", [.jump "head"]⟩,
    ⟨"head", [.atLabel "head", .compute "mul" "b" (.named "int") ["a", "n"],
      .branch "c" "tail" "done"]⟩,
    ⟨"tail", [.atLabel "tail", .constant "a" (.named "int") (.int 2), .jump "head"]⟩,
    ⟨"done", [.atLabel "done", .ret []]⟩]

theorem waiting_least : ∃ g l b a, FlowGraph.ofBlocks waiting "entry" = .ok g ∧
    l ∈ g.loops.loops ∧ l.invariants g .empty = [a] ++ b :: [] ∧
    (a.node, a.index) = (2, 1) ∧ (b.node, b.index) = (1, 1) ∧ "a" ∈ b.instr.args ∧
    (∀ t ∈ l.sites g, t.instr.dest = some "a" → t ∈ [a]) ∧
    IsLeast {marked | ClosedUnderMarking (l.sites g) .empty marked} {s | s ∈ l.invariants g .empty} := by
  have hmarked : (FlowGraph.ofBlocks waiting "entry").toOption.any (fun g =>
      g.loops.loops.any fun l => l.invariants g .empty =
        [⟨2, 1, .constant "a" (.named "int") (.int 2)⟩,
          ⟨1, 1, .compute "mul" "b" (.named "int") ["a", "n"]⟩]) = true := by
    decide +kernel
  obtain ⟨g, hg, hloop⟩ := exists_of_toOption_any hmarked
  simp only [List.any_eq_true, decide_eq_true_eq] at hloop
  obtain ⟨l, hl, hmarks⟩ := hloop
  obtain ⟨-, -, -, -, hleast, horder⟩ := invariants_least g l .empty
  have harg : "a" ∈ (.compute "mul" "b" (.named "int") ["a", "n"] : Instruction).args := by
    decide
  exact ⟨g, l, _, _, hg, hl, hmarks, rfl, rfl, harg,
    fun t ht hd => horder [_] _ [] hmarks "a" harg t ht hd, hleast⟩

end NaturalLoop

end FlowOpt
