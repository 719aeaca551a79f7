import FlowOpt.Proofs.Execution
import FlowOpt.Proofs.Names

/-!
# Cutting code and writing out its jumps

Cutting code into blocks loses no instruction and adds none. Writing out where control runs on
keeps the names of the blocks; it puts labels in front and jumps behind, and then only the last
block can be left at its end.
-/

namespace FlowOpt

namespace Block

variable {b c : Block} {blocks rest : List Block} {i : Instruction} {name next : String}
  {instrs : List Instruction}

theorem following_cons_of_ne {a : String} {names : List String} (h : a ≠ name) :
    following (a :: names) name = following names name := by
  cases names with
  | nil => rfl
  | cons b names => rw [following, if_neg h]

theorem following_eq_none_iff {names : List String} :
    following names name = none ↔ name ∉ names.dropLast := by
  induction names with
  | nil => simp [following]
  | cons a names ih =>
    cases names with
    | nil => simp [following]
    | cons b names =>
      rw [following, List.dropLast_cons_cons, List.mem_cons, not_or, ← ih]
      by_cases h : a = name
      · simp [h]
      · simp [h, Ne.symm h]

theorem following_eq_getElem? {names : List String} (hn : names.Nodup) {k : Nat}
    (hk : names[k]? = some name) : following names name = names[k + 1]? := by
  induction names generalizing k with
  | nil => simp at hk
  | cons a names ih =>
    obtain ⟨ha, hn⟩ := List.nodup_cons.1 hn
    cases k with
    | zero =>
      obtain rfl : a = name := by simpa using hk
      cases names with
      | nil => rfl
      | cons b names => simp [following]
    | succ k =>
      have hk' : names[k]? = some name := by simpa using hk
      have hne : a ≠ name := by
        intro h
        exact ha (h ▸ List.mem_of_getElem? hk')
      rw [following_cons_of_ne hne, ih hn hk']
      simp

theorem flatten_runs (instrs : List Instruction) : (runs instrs).flatten = instrs := by
  induction instrs with
  | nil => rfl
  | cons i rest ih =>
    unfold runs
    cases hr : runs rest with
    | nil =>
      rw [hr] at ih
      simp [← ih]
    | cons run more =>
      rw [hr, List.flatten_cons] at ih
      simp only
      split
      · simp [← ih]
      · simp [← ih]

theorem mem_of_mem_runs {run : List Instruction} (hr : run ∈ runs instrs) (hi : i ∈ run) :
    i ∈ instrs := by
  rw [← flatten_runs instrs]
  exact List.mem_flatten.2 ⟨run, hr, hi⟩

theorem split_ok (h : split instrs = .ok blocks) :
    blocks = (runs instrs).map (ofRun (instrs.filterMap (·.label))) := by
  unfold split at h
  simp only at h
  split at h
  · cases h
  · exact (Except.ok.inj h).symm

theorem mem_of_mem_split (h : split instrs = .ok blocks) (hb : b ∈ blocks) (hi : i ∈ b.instrs) :
    i ∈ instrs := by
  rw [split_ok h] at hb
  obtain ⟨run, hr, rfl⟩ := List.mem_map.1 hb
  exact mem_of_mem_runs hr hi

/-- The instructions of `b` with labels in front, and behind them a jump to the next block where
control would run on into it. -/
structure MadeExplicit (b b' : Block) (next : Option String) : Prop where
  name_eq : b'.name = b.name
  instrs_eq : ∃ front back, b'.instrs = front ++ b.instrs ++ back ∧
    (∀ i ∈ front, i = .atLabel b.name) ∧
    ((b.fallsThrough = true ∧ ∃ n, next = some n ∧ back = [.jump n]) ∨
      (back = [] ∧ (b.fallsThrough = false ∨ next = none)))

theorem fallsThrough_ensureLabel (b : Block) : b.ensureLabel.fallsThrough = b.fallsThrough := by
  unfold ensureLabel
  split
  · cases hi : b.instrs with
    | nil => simp [fallsThrough, terminator, hi, Instruction.atLabel, Instruction.isTerminator]
    | cons i rest => simp [fallsThrough, terminator, hi]
  · rfl

theorem MadeExplicit.of_ensureLabel {b' : Block} {next : Option String}
    (h : MadeExplicit b.ensureLabel b' next) : MadeExplicit b b' next := by
  obtain ⟨hname, front, back, hinstrs, hfront, hback⟩ := h
  rw [fallsThrough_ensureLabel] at hback
  have hn : b.ensureLabel.name = b.name := by
    unfold ensureLabel
    split <;> rfl
  rw [hn] at hname hfront
  constructor
  · exact hname
  · unfold ensureLabel at hinstrs
    split at hinstrs
    · exact ⟨front ++ [.atLabel b.name], back, by simp [hinstrs], by
        intro i hi
        rcases List.mem_append.1 hi with hi | hi
        · exact hfront i hi
        · exact List.mem_singleton.1 hi, hback⟩
    · exact ⟨front, back, hinstrs, hfront, hback⟩

theorem length_explicitFrom (b : Block) (rest : List Block) :
    (explicitFrom b rest).length = rest.length + 1 := by
  induction rest generalizing b with
  | nil => rfl
  | cons next rest ih =>
    unfold explicitFrom
    split
    · rw [List.length_cons, ih, List.length_cons]
    · rw [List.length_cons, ih, List.length_cons]

theorem explicitFrom_getElem? (b : Block) (rest : List Block) {k : Nat}
    (hc : (b :: rest)[k]? = some c) : ∃ c', (explicitFrom b rest)[k]? = some c' ∧
      MadeExplicit c c' ((b :: rest)[k + 1]?.map (·.name)) := by
  induction rest generalizing b c k with
  | nil =>
    cases k with
    | zero =>
      obtain rfl : b = c := by simpa using hc
      exact ⟨b, rfl, rfl, [], [], by simp, by simp, .inr ⟨rfl, .inr rfl⟩⟩
    | succ k => simp at hc
  | cons next rest ih =>
    unfold explicitFrom
    cases k with
    | zero =>
      obtain rfl : b = c := by simpa using hc
      split
      · next hf =>
        exact ⟨_, rfl, rfl, [], [.jump next.name], by simp [push], by simp,
          .inl ⟨hf, next.name, rfl, rfl⟩⟩
      · next hf =>
        exact ⟨b, rfl, rfl, [], [], by simp, by simp, .inr ⟨rfl, .inl (by simpa using hf)⟩⟩
    | succ k =>
      have hc' : (next :: rest)[k]? = some c := by simpa using hc
      have hnext : (b :: next :: rest)[k + 1 + 1]? = (next :: rest)[k + 1]? := by simp
      rw [hnext]
      split
      · rw [List.getElem?_cons_succ]
        cases k with
        | zero =>
          obtain rfl : next = c := by simpa using hc'
          have hzero : (next.ensureLabel :: rest)[0]? = some next.ensureLabel := rfl
          obtain ⟨c', hget, hex⟩ := ih next.ensureLabel hzero
          exact ⟨c', hget, hex.of_ensureLabel⟩
        | succ k => exact ih next.ensureLabel hc'
      · rw [List.getElem?_cons_succ]
        exact ih next hc'

theorem addTerminators_getElem? {k : Nat} (hc : blocks[k]? = some c) :
    ∃ c', (addTerminators blocks)[k]? = some c' ∧
      MadeExplicit c c' (blocks[k + 1]?.map (·.name)) := by
  cases blocks with
  | nil => simp at hc
  | cons b rest => exact explicitFrom_getElem? b rest hc

theorem length_addTerminators (blocks : List Block) :
    (addTerminators blocks).length = blocks.length := by
  cases blocks with
  | nil => rfl
  | cons b rest => exact length_explicitFrom b rest

theorem exists_of_addTerminators_getElem? {k : Nat} (hc : (addTerminators blocks)[k]? = some c) :
    ∃ b, blocks[k]? = some b ∧ MadeExplicit b c (blocks[k + 1]?.map (·.name)) := by
  have hlt : k < blocks.length := by
    rw [← length_addTerminators]
    exact (List.getElem?_eq_some_iff.1 hc).1
  obtain ⟨c', hc', hex⟩ := addTerminators_getElem? (List.getElem?_eq_getElem hlt)
  obtain rfl := Option.some.inj (hc.symm.trans hc')
  exact ⟨_, List.getElem?_eq_getElem hlt, hex⟩

theorem names_addTerminators (blocks : List Block) :
    (addTerminators blocks).map (·.name) = blocks.map (·.name) := by
  apply List.ext_getElem?
  intro k
  rw [List.getElem?_map, List.getElem?_map]
  cases hc : (addTerminators blocks)[k]? with
  | none =>
    have hlen := List.getElem?_eq_none_iff.1 hc
    rw [length_addTerminators] at hlen
    rw [List.getElem?_eq_none hlen]
  | some c =>
    obtain ⟨b, hb, hex⟩ := exists_of_addTerminators_getElem? hc
    simp [hb, hex.name_eq]

theorem getLast?_eq_of_append {l : List Instruction} (hl : instrs = l ++ [i]) :
    instrs.getLast? = some i := by
  simp [hl]

theorem fallsThrough_of_forall (b : Block) (h : ∀ i ∈ b.instrs, i.isTerminator = false) :
    b.fallsThrough = true := by
  unfold fallsThrough terminator
  cases hi : b.instrs.getLast? with
  | none => rfl
  | some i => simp [h i (List.mem_of_getLast? hi)]

/-- With the jumps written out, nothing stands behind a block that is left at its end. -/
theorem next_eq_none_of_fallsThrough {k : Nat} (hb : (addTerminators blocks)[k]? = some b)
    (hf : b.fallsThrough = true) : blocks[k + 1]? = none := by
  obtain ⟨c, hc, hex⟩ := exists_of_addTerminators_getElem? hb
  obtain ⟨front, back, hinstrs, hfront, hback⟩ := hex.instrs_eq
  rcases hback with ⟨-, n, -, rfl⟩ | ⟨rfl, hfall | hnext⟩
  · have hlast : b.instrs.getLast? = some (.jump n) := getLast?_eq_of_append hinstrs
    simp [fallsThrough, terminator, hlast, Instruction.jump, Instruction.isTerminator] at hf
  · cases hi : c.instrs.getLast? with
    | none => simp [fallsThrough, terminator, hi] at hfall
    | some i =>
      have hlast : b.instrs.getLast? = some i := by
        rw [hinstrs, List.append_nil, List.getLast?_append, hi]
        rfl
      simp [fallsThrough, terminator, hi] at hfall
      simp [fallsThrough, terminator, hlast, hfall] at hf
  · simpa using hnext

theorem following_eq_none (hn : (blocks.map (·.name)).Nodup) (hb : b ∈ addTerminators blocks)
    (hf : b.fallsThrough = true) :
    following ((addTerminators blocks).map (·.name)) b.name = none := by
  obtain ⟨k, hk⟩ := List.mem_iff_getElem?.1 hb
  have hname : ((addTerminators blocks).map (·.name))[k]? = some b.name := by
    rw [List.getElem?_map, hk]
    rfl
  rw [names_addTerminators] at hname ⊢
  rw [following_eq_getElem? hn hname, List.getElem?_map, next_eq_none_of_fallsThrough hk hf]
  rfl

/-- With the jumps written out every block but the last ends in an instruction it is left by. -/
theorem fallsThrough_of_mem_dropLast (hb : b ∈ (addTerminators blocks).dropLast) :
    b.fallsThrough = false := by
  obtain ⟨k, hk, hget⟩ := List.mem_iff_getElem.1 hb
  rw [List.getElem_dropLast] at hget
  rw [List.length_dropLast, length_addTerminators] at hk
  rw [← Bool.not_eq_true]
  intro hf
  have hnone := next_eq_none_of_fallsThrough (hget ▸ List.getElem?_eq_getElem _) hf
  rw [List.getElem?_eq_none_iff] at hnone
  omega

theorem addTerminators_eq_self (h : ∀ b ∈ blocks.dropLast, b.fallsThrough = false) :
    addTerminators blocks = blocks := by
  cases blocks with
  | nil => rfl
  | cons b rest =>
    change explicitFrom b rest = b :: rest
    induction rest generalizing b with
    | nil => rfl
    | cons next rest ih =>
      rw [List.dropLast_cons_of_ne_nil (by simp)] at h
      rw [explicitFrom, if_neg (by simp [h b List.mem_cons_self]),
        ih next fun c hc => h c (List.mem_cons_of_mem _ hc)]

theorem addTerminators_idem (blocks : List Block) :
    addTerminators (addTerminators blocks) = addTerminators blocks :=
  addTerminators_eq_self fun _ hb => fallsThrough_of_mem_dropLast hb

theorem fallsThrough_eq_false_iff : b.fallsThrough = false ↔
    ∃ before i, b.instrs = before ++ [i] ∧ i.isTerminator = true := by
  rcases List.eq_nil_or_concat b.instrs with hnil | ⟨before, i, hi⟩
  · simp [fallsThrough, terminator, hnil]
  · rw [List.concat_eq_append] at hi
    cases hterm : i.isTerminator <;> simp [fallsThrough, terminator, hi, hterm]

theorem exists_of_mem_addTerminators (hb : b ∈ addTerminators blocks) :
    ∃ c ∈ blocks, ∃ front back, b.instrs = front ++ c.instrs ++ back ∧
      (∀ i ∈ front, ∃ l, i = .atLabel l) ∧
      (back = [] ∨ c.fallsThrough = true ∧ ∃ n, back = [.jump n]) := by
  obtain ⟨k, hk⟩ := List.mem_iff_getElem?.1 hb
  obtain ⟨c, hc, hex⟩ := exists_of_addTerminators_getElem? hk
  obtain ⟨front, back, hinstrs, hfront, hback⟩ := hex.instrs_eq
  refine ⟨c, List.mem_of_getElem? hc, front, back, hinstrs, fun i hi => ⟨_, hfront i hi⟩, ?_⟩
  rcases hback with ⟨hf, n, -, hjump⟩ | ⟨hnil, -⟩
  · exact .inr ⟨hf, n, hjump⟩
  · exact .inl hnil

theorem mem_instrs_addTerminators (hb : b ∈ addTerminators blocks) (hi : i ∈ b.instrs) :
    (∃ c ∈ blocks, i ∈ c.instrs) ∨ (∃ l, i = .atLabel l) ∨ ∃ l, i = .jump l := by
  obtain ⟨c, hc, front, back, hinstrs, hfront, hback⟩ := exists_of_mem_addTerminators hb
  rw [hinstrs, List.append_assoc, List.mem_append, List.mem_append] at hi
  rcases hi with hi | hi | hi
  · exact .inr (.inl (hfront i hi))
  · exact .inl ⟨c, hc, hi⟩
  · rcases hback with rfl | ⟨-, n, rfl⟩
    · cases hi
    · exact .inr (.inr ⟨n, List.mem_singleton.1 hi⟩)

theorem eq_atLabel_of_isLabel (h : ∀ b ∈ blocks, ∀ i ∈ b.instrs, i.isLabel = true →
    ∃ l, i = .atLabel l) (hb : b ∈ addTerminators blocks) (hi : i ∈ b.instrs)
    (hl : i.isLabel = true) : ∃ l, i = .atLabel l := by
  rcases mem_instrs_addTerminators hb hi with ⟨c, hc, hic⟩ | hlabel | ⟨l, rfl⟩
  · exact h c hc i hic hl
  · exact hlabel
  · simp [Instruction.isLabel, Instruction.jump] at hl

theorem isTerminator_of_isHead (h : isHead i = true)
    (hl : i.isLabel = true → i.isTerminator = false) : i.isTerminator = false := by
  rw [isHead, Bool.or_eq_true] at h
  rcases h with h | h
  · exact hl h
  · rw [Instruction.isPhi, beq_iff_eq] at h
    rw [Instruction.isTerminator, h]
    rfl

theorem isTerminator_of_mem_head (h : ∀ i ∈ b.instrs, i.isLabel = true → ∃ l, i = .atLabel l)
    (hi : i ∈ b.instrs.takeWhile isHead) : i.isTerminator = false := by
  apply isTerminator_of_isHead (List.all_eq_true.1 List.all_takeWhile i hi)
  intro hl
  obtain ⟨l, rfl⟩ := h i ((List.takeWhile_sublist _).subset hi) hl
  rfl

theorem mem_dropLast_append (before : List Instruction) (i j : Instruction)
    (rest : List Instruction) : i ∈ (before ++ i :: j :: rest).dropLast := by
  rw [List.dropLast_append_of_ne_nil (List.cons_ne_nil _ _),
    List.dropLast_cons_of_ne_nil (List.cons_ne_nil _ _)]
  exact List.mem_append_right _ List.mem_cons_self

def EndsProperly (b : Block) : Prop :=
  ∀ before i after, b.instrs = before ++ i :: after → i.isTerminator = true →
    i.dest = none ∧ after = []

theorem endsProperly_iff {b : Block} : b.EndsProperly ↔
    (∀ i ∈ b.instrs.dropLast, i.isTerminator = false) ∧
      ∀ i ∈ b.instrs, i.isTerminator = true → i.dest = none := by
  constructor
  · intro h
    constructor
    · intro i hi
      by_contra hterm
      rw [Bool.not_eq_false] at hterm
      obtain ⟨before, after, hdrop⟩ := List.append_of_mem hi
      have hne : b.instrs ≠ [] := by
        rintro hnil
        simp [hnil] at hi
      have hinstrs : b.instrs = before ++ i :: (after ++ [b.instrs.getLast hne]) := by
        rw [← List.cons_append, ← List.append_assoc, ← hdrop, List.dropLast_append_getLast]
      simpa using (h before i _ hinstrs hterm).2
    · intro i hi hterm
      obtain ⟨before, after, hinstrs⟩ := List.append_of_mem hi
      exact (h before i after hinstrs hterm).1
  · intro ⟨hlast, hdest⟩ before i after hinstrs hterm
    refine ⟨hdest i (by simp [hinstrs]) hterm, ?_⟩
    cases after with
    | nil => rfl
    | cons j after =>
      have hi : i ∈ b.instrs.dropLast := hinstrs ▸ mem_dropLast_append before i j after
      simp [hlast i hi] at hterm

instance (b : Block) : Decidable b.EndsProperly := decidable_of_iff _ endsProperly_iff.symm

theorem passed_concat {done rest : List Instruction} (hinstrs : b.instrs = done ++ i :: rest)
    (hdone : ∀ j ∈ done, j.isTerminator = false) (hi : i.isTerminator = false) :
    b.instrs = (done ++ [i]) ++ rest ∧ ∀ j ∈ done ++ [i], j.isTerminator = false := by
  constructor
  · rw [hinstrs, List.append_assoc, List.singleton_append]
  · exact List.forall_mem_append.2 ⟨hdone, List.forall_mem_singleton.2 hi⟩

theorem endsProperly_labeled_jump (name target : String) :
    (Block.labeled name [.jump target]).EndsProperly := by
  rw [endsProperly_iff]
  constructor
  · intro i hi
    obtain rfl := List.mem_singleton.1 hi
    rfl
  · intro i hi _
    rcases List.mem_cons.1 hi with rfl | hi
    · rfl
    · obtain rfl := List.mem_singleton.1 hi
      rfl

end Block

end FlowOpt
