import FlowOpt.Proofs.Cut
import FlowOpt.Proofs.FlowGraph.Exact

/-!
# Cutting loses nothing

Code is cut into pieces that give it back when they are joined. A label that stands twice is the one
thing that stops it; then the label is told whose second record comes first. What cutting promises
of the pieces leaves no choice: whatever has all of it is what cutting gives.
-/

namespace FlowOpt

namespace Block

variable {instrs : List Instruction} {blocks : List Block} {b : Block} {name : String}

def LabelsTwice (instrs : List Instruction) : Prop :=
  ∃ j k : Nat, ∃ i i' : Instruction, ∃ name, j < k ∧ instrs[j]? = some i ∧ instrs[k]? = some i' ∧
    i.label = some name ∧ i'.label = some name

theorem nodup_declared_iff : (declared instrs).Nodup ↔ ¬ LabelsTwice instrs := by
  rw [declared, List.Nodup, List.pairwise_filterMap, List.pairwise_iff_getElem]
  constructor
  · rintro h ⟨j, k, i, i', name, hlt, hi, hi', hlabel, hlabel'⟩
    obtain ⟨hj, rfl⟩ := List.getElem?_eq_some_iff.1 hi
    obtain ⟨hk, rfl⟩ := List.getElem?_eq_some_iff.1 hi'
    exact h j k hj hk hlt name hlabel name hlabel' rfl
  · rintro h j k hj hk hlt name hlabel _ hlabel' rfl
    exact h ⟨j, k, _, _, name, hlt, List.getElem?_eq_getElem hj, List.getElem?_eq_getElem hk,
      hlabel, hlabel'⟩

/-- The name of what has no label is none of the labels, so it makes no repetition. -/
theorem firstRepeat_names : FirstRepeat ((frontName? instrs).toList ++ declared instrs) name ↔
    FirstRepeat (declared instrs) name := by
  cases hfront : frontName? instrs with
  | none => rfl
  | some x => exact firstRepeat_cons_iff (frontName?_not_mem hfront)

theorem split_eq_error_iff {e : Error} : split instrs = .error e ↔
    ∃ name, e = .duplicateBlock name ∧ FirstRepeat (declared instrs) name := by
  have hnames : ∀ name, FirstRepeat (declared instrs) name ↔
      firstRepeat? [] (((runs instrs).map (ofRun (declared instrs))).map (·.name)) = some name :=
    fun name => by rw [firstRepeat_iff, names_split_runs, firstRepeat_names]
  simp only [hnames]
  unfold split
  simp only
  cases firstRepeat? [] (((runs instrs).map (ofRun (declared instrs))).map (·.name)) with
  | none => simp
  | some name => simp [eq_comm]

/-- The code in pieces: nothing is lost, labels stand in front and give the names, and only what
stands before all of them can be without one. -/
structure Pieces (instrs : List Instruction) (blocks : List Block) : Prop where
  joined : flatten blocks = instrs
  ne_nil : ∀ b ∈ blocks, b.instrs ≠ []
  inside : ∀ b ∈ blocks, ∀ i ∈ b.instrs.tail, i.isLabel = false
  named : ∀ b ∈ blocks, ∀ name, b.label = some name → b.name = name
  labeled : ∀ b ∈ blocks.tail, b.label ≠ none
  front : ∀ b ∈ blocks, b.label = none → ∃ n, b.name = unlabeled n ∧
    unlabeled n ∉ declared instrs ∧ ∀ m < n, unlabeled m ∈ declared instrs
  nodup : (blocks.map (·.name)).Nodup

theorem Cut.pieces (h : Cut blocks) : Pieces (flatten blocks) blocks where
  joined := rfl
  ne_nil _ hb := h.ne_nil hb
  inside b hb i hi := (h.shape b hb).elim (fun hheaded => hheaded.2 i hi) fun hbare =>
    hbare.1.2 i (List.mem_of_mem_tail hi)
  named b hb name hlabel := by
    rcases h.shape b hb with hheaded | ⟨hbare, -⟩
    · exact Option.some.inj (hheaded.1.symm.trans hlabel)
    · cases hbare.label_eq.symm.trans hlabel
  labeled b hb hlabel := by
    cases blocks with
    | nil => cases hb
    | cons first rest => cases (h.headed_of_mem_tail hb).1.symm.trans hlabel
  front b hb hlabel := by
    rcases h.shape b hb with hheaded | ⟨hbare, names, hnames, hname⟩
    · cases hheaded.1.symm.trans hlabel
    · cases blocks with
      | nil => cases hb
      | cons first rest =>
        obtain ⟨hfirst, rfl⟩ := List.cons.inj hnames
        obtain rfl := List.inj_on_of_nodup_map h.nodup hb List.mem_cons_self hfirst.symm
        rw [declared_flatten_of_bare hbare fun c hc => h.headed_of_mem_tail hc]
        obtain ⟨-, hfree, hleast⟩ := freshIndex_least unlabeled_injective (rest.map (·.name)) 0
        exact ⟨_, hname, hfree, fun m hm => hleast m (Nat.zero_le m) hm⟩
  nodup := h.nodup

variable (h : Pieces instrs blocks)

include h in
theorem Pieces.headed (hb : b ∈ blocks) (hlabel : b.label ≠ none) : b.Headed := by
  obtain ⟨name, hname⟩ := Option.ne_none_iff_exists'.1 hlabel
  refine ⟨?_, h.inside b hb⟩
  rw [h.named b hb name hname, hname]

include h in
theorem Pieces.bare (hb : b ∈ blocks) (hlabel : b.label = none) : b.Bare := by
  refine ⟨h.ne_nil b hb, fun i hi => ?_⟩
  cases hinstrs : b.instrs with
  | nil => exact absurd hinstrs (h.ne_nil b hb)
  | cons first body =>
    rw [hinstrs] at hi
    rcases List.mem_cons.1 hi with rfl | hi
    · simpa [label, hinstrs, Instruction.isLabel] using hlabel
    · exact h.inside b hb i (by rwa [hinstrs])

include h in
theorem Pieces.cut : Cut blocks := by
  refine ⟨h.nodup, fun b hb => ?_⟩
  by_cases hlabel : b.label = none
  · have hbare := h.bare hb hlabel
    cases hblocks : blocks with
    | nil => cases hblocks ▸ hb
    | cons first rest =>
      subst hblocks
      have hrest : ∀ c ∈ rest, c.Headed := fun c hc =>
        h.headed (List.mem_cons_of_mem _ hc) (h.labeled c hc)
      rcases List.mem_cons.1 hb with rfl | hb
      · obtain ⟨n, hname, hfree, hleast⟩ := h.front b hb hlabel
        have hdeclared : declared instrs = rest.map (·.name) :=
          h.joined ▸ declared_flatten_of_bare hbare hrest
        rw [hdeclared] at hfree hleast
        refine .inr ⟨hbare, rest.map (·.name), rfl, ?_⟩
        rw [hname, frontName, freshIndex_eq_of_least unlabeled_injective (Nat.zero_le n) hfree
          fun m _ hm => hleast m hm]
      · exact absurd hlabel (h.labeled b hb)
  · exact .inl (h.headed hb hlabel)

/-- Cutting fails just if a label stands twice, and with the one whose second record comes first.
Otherwise it gives the pieces of the code, and there is one way only to have them. -/
theorem split_lossless (instrs : List Instruction) :
    ((∃ e, split instrs = .error e) ↔ LabelsTwice instrs) ∧
      (∀ e, split instrs = .error e ↔ ∃ name, e = .duplicateBlock name ∧
        FirstRepeat (declared instrs) name) ∧
      ∀ blocks, split instrs = .ok blocks ↔ Pieces instrs blocks := by
  refine ⟨?_, fun e => split_eq_error_iff, fun blocks => ?_⟩
  · rw [← not_iff_not, ← nodup_declared_iff, ← split_isOk_iff]
    cases split instrs <;> simp
  · rw [split_eq_ok_iff]
    constructor
    · rintro ⟨hcut, rfl⟩
      exact hcut.pieces
    · exact fun h => ⟨h.cut, h.joined⟩

end Block

end FlowOpt
