import FlowOpt.Proofs.Block

/-!
# Where code is cut

Code is cut just in front of its labels. So every block holds something, only its first instruction
can be a label, and the names of the blocks are the labels, behind a fresh one if the code does not
begin with a label. An instruction that control leaves stands at the end of its block just if the
code has a label behind it, or nothing.
-/

namespace FlowOpt

namespace Block

open FlowOpt.Execution

variable {instrs l : List Instruction} {blocks : List Block} {b : Block} {i : Instruction}

theorem runs_eq_splitBy (instrs : List Instruction) :
    runs instrs = instrs.splitBy fun _ j => !j.isLabel := by
  symm
  rw [List.splitBy_eq_iff]
  induction instrs with
  | nil => simp [runs]
  | cons i rest ih =>
    obtain ⟨hflat, hnil, hchain, hcut⟩ := ih
    unfold runs
    cases hr : runs rest with
    | nil =>
      rw [hr] at hflat
      simp [hflat]
    | cons run more =>
      rw [hr] at hflat hnil hchain hcut
      cases run with
      | nil => simp at hnil
      | cons j run =>
        have hj := hchain _ List.mem_cons_self
        have hmore : ∀ m ∈ more, m.IsChain fun _ j => (!j.isLabel) = true := fun m hm =>
          hchain m (List.mem_cons_of_mem _ hm)
        have hmorenil : [] ∉ more := fun h => hnil (List.mem_cons_of_mem _ h)
        cases hlabel : j.isLabel with
        | true =>
          simp only [List.head?_cons, Option.any_some, hlabel, if_true]
          refine ⟨by rw [hflat]; rfl, ?_, ?_, ?_⟩
          · simpa using hmorenil
          · intro m hm
            rcases List.mem_cons.1 hm with rfl | hm
            · exact .singleton i
            · exact hchain m hm
          · exact .cons_cons ⟨by simp, by simp, by simp [hlabel]⟩ hcut
        | false =>
          simp only [List.head?_cons, Option.any_some, hlabel, Bool.false_eq_true, if_false]
          refine ⟨by rw [hflat]; rfl, ?_, ?_, ?_⟩
          · simpa using hmorenil
          · intro m hm
            rcases List.mem_cons.1 hm with rfl | hm
            · exact .cons_cons (by simp [hlabel]) hj
            · exact hmore m hm
          · cases more with
            | nil => exact .singleton _
            | cons next more =>
              rw [List.isChain_cons_cons] at hcut ⊢
              obtain ⟨⟨_, hne, hnext⟩, hrest⟩ := hcut
              exact ⟨⟨by simp, hne, by simpa using hnext⟩, hrest⟩

theorem isChain_iff_tail {p : Instruction → Bool} :
    l.IsChain (fun _ j => p j = true) ↔ ∀ j ∈ l.tail, p j = true := by
  induction l with
  | nil => simp
  | cons i l ih =>
    cases l with
    | nil => simp
    | cons j l =>
      rw [List.isChain_cons_cons, ih, List.tail_cons, List.tail_cons, List.forall_mem_cons]

theorem ne_nil_of_mem_runs {run : List Instruction} (h : run ∈ runs instrs) : run ≠ [] :=
  List.ne_nil_of_mem_splitBy (runs_eq_splitBy instrs ▸ h)

theorem isLabel_of_mem_tail {run : List Instruction} (h : run ∈ runs instrs)
    (hi : i ∈ run.tail) : i.isLabel = false := by
  have hchain := List.isChain_of_mem_splitBy (runs_eq_splitBy instrs ▸ h)
  simpa using isChain_iff_tail.1 hchain i hi

/-- Behind every jump, branch and return stands a label, if anything. -/
def Separated (instrs : List Instruction) : Prop :=
  instrs.IsChain fun i j => i.isTerminator = true → j.isLabel = true

instance (instrs : List Instruction) : Decidable (Separated instrs) :=
  inferInstanceAs (Decidable (List.IsChain _ instrs))

theorem separated_iff_of_tail (h : ∀ i ∈ l.tail, i.isLabel = false) :
    Separated l ↔ ∀ i ∈ l.dropLast, i.isTerminator = false := by
  unfold Separated
  induction l with
  | nil => simp
  | cons i l ih =>
    cases l with
    | nil => simp
    | cons j l =>
      have hj : j.isLabel = false := h j List.mem_cons_self
      rw [List.isChain_cons_cons, ih fun k hk => h k (List.mem_cons_of_mem _ hk),
        List.dropLast_cons_cons, List.forall_mem_cons, hj]
      simp

theorem separated_iff_runs :
    Separated instrs ↔ ∀ run ∈ runs instrs, ∀ i ∈ run.dropLast, i.isTerminator = false := by
  have hnil : [] ∉ runs instrs := fun h => ne_nil_of_mem_runs h rfl
  have hcut : (runs instrs).IsChain fun run next =>
      ∀ i ∈ run.getLast?, ∀ j ∈ next.head?, i.isTerminator = true → j.isLabel = true := by
    rw [runs_eq_splitBy]
    refine (List.isChain_getLast_head_splitBy _ _).imp fun run next hlabel i _ j hj _ => ?_
    obtain ⟨_, hne, hlabel⟩ := hlabel
    rw [List.head?_eq_some_head hne] at hj
    obtain rfl := Option.some.inj hj
    simpa using hlabel
  conv_lhs => rw [← flatten_runs instrs, Separated, List.isChain_flatten hnil]
  rw [and_iff_left hcut]
  exact forall₂_congr fun run hrun => separated_iff_of_tail fun i hi => isLabel_of_mem_tail hrun hi

theorem flatten_split (h : split instrs = .ok blocks) : flatten blocks = instrs := by
  rw [split_ok h, flatten, List.flatMap_map]
  exact List.flatMap_id.trans (flatten_runs instrs)

theorem ne_nil_of_mem_split (h : split instrs = .ok blocks) (hb : b ∈ blocks) : b.instrs ≠ [] := by
  rw [split_ok h] at hb
  obtain ⟨run, hrun, rfl⟩ := List.mem_map.1 hb
  exact ne_nil_of_mem_runs hrun

theorem isLabel_of_mem_tail_split (h : split instrs = .ok blocks) (hb : b ∈ blocks)
    (hi : i ∈ b.instrs.tail) : i.isLabel = false := by
  rw [split_ok h] at hb
  obtain ⟨run, hrun, rfl⟩ := List.mem_map.1 hb
  exact isLabel_of_mem_tail hrun hi

theorem separated_iff_split (h : split instrs = .ok blocks) :
    Separated instrs ↔ ∀ b ∈ blocks, ∀ i ∈ b.instrs.dropLast, i.isTerminator = false := by
  rw [separated_iff_runs, split_ok h, List.forall_mem_map]
  rfl

section Names

abbrev declared (instrs : List Instruction) : List String := instrs.filterMap (·.label)

def unlabeled (n : Nat) : String := "b" ++ toString n

def frontName? (instrs : List Instruction) : Option String :=
  if instrs.head?.any (!·.isLabel) then
    some (unlabeled (freshIndex unlabeled (declared instrs) 0))
  else none

theorem unlabeled_injective (m n : Nat) (h : unlabeled m = unlabeled n) : m = n := by
  have hdigits : toString m = toString n := by
    rw [← String.toList_inj] at h ⊢
    simpa [unlabeled, String.toList_append] using h
  exact Nat.repr_injective hdigits

theorem frontName?_not_mem {x : String} (h : frontName? instrs = some x) :
    x ∉ declared instrs := by
  unfold frontName? at h
  split at h
  · obtain rfl := Option.some.inj h
    exact freshIndex_not_mem unlabeled_injective _ _
  · cases h

theorem labels_runs (instrs : List Instruction) :
    (runs instrs).map (fun run => run.head?.bind (·.label)) =
      (if instrs.head?.any (!·.isLabel) then [none] else []) ++
        (declared instrs).map some := by
  induction instrs with
  | nil => rfl
  | cons i rest ih =>
    have hcons : ∀ m : List (Option String), i.label :: m =
        (if (i :: rest).head?.any (!·.isLabel) then [none] else []) ++
          i.label.toList.map some ++ m := by
      intro m
      cases hi : i.label <;> simp [Instruction.isLabel, hi]
    have hlabels : (declared (i :: rest)).map some =
        i.label.toList.map some ++ (declared rest).map some := by
      cases hi : i.label <;> simp [hi]
    rw [hlabels, ← List.append_assoc, ← hcons]
    unfold runs
    cases hr : runs rest with
    | nil =>
      have hrest : rest = [] := by rw [← flatten_runs rest, hr]; rfl
      simp [hrest]
    | cons run more =>
      rw [hr, List.map_cons] at ih
      have hany : run.head?.any (·.isLabel) = (run.head?.bind (·.label)).isSome := by
        cases run.head? <;> rfl
      simp only [hany]
      -- Only what stands first can be without a label.
      split at ih
      · rw [List.singleton_append] at ih
        obtain ⟨hnone, hmore⟩ := List.cons.inj ih
        rw [hnone, ← hmore]
        simp
      · cases hlabel : run.head?.bind (·.label) with
        | none =>
          have hmem : none ∈ (declared rest).map some := by
            rw [List.nil_append, hlabel] at ih
            rw [← ih]
            exact List.mem_cons_self
          simp at hmem
        | some l =>
          rw [List.nil_append, hlabel] at ih
          simp [← ih, hlabel]

theorem names_split_runs (instrs : List Instruction) :
    ((runs instrs).map (ofRun (declared instrs))).map (·.name) =
      (frontName? instrs).toList ++ declared instrs := by
  have hnames : ((runs instrs).map (ofRun (declared instrs))).map (·.name) =
      ((runs instrs).map fun run => run.head?.bind (·.label)).map
        (·.getD (unlabeled (freshIndex unlabeled (declared instrs) 0))) := by
    rw [List.map_map, List.map_map]
    rfl
  rw [hnames, labels_runs, List.map_append, List.map_map, frontName?]
  congr 1
  · split <;> rfl
  · exact List.map_id _

theorem names_split (h : split instrs = .ok blocks) :
    blocks.map (·.name) = (frontName? instrs).toList ++ declared instrs := by
  rw [split_ok h]
  exact names_split_runs instrs

theorem nodup_frontName? :
    ((frontName? instrs).toList ++ declared instrs).Nodup ↔ (declared instrs).Nodup := by
  cases hfront : frontName? instrs with
  | none => rfl
  | some x =>
    rw [Option.toList_some, List.singleton_append, List.nodup_cons]
    exact and_iff_right (frontName?_not_mem hfront)

/-- Cutting fails just if a label stands twice. -/
theorem split_isOk_iff : (∃ blocks, split instrs = .ok blocks) ↔ (declared instrs).Nodup := by
  rw [← nodup_frontName?, ← names_split_runs]
  unfold split
  simp only
  generalize (runs instrs).map (ofRun (declared instrs)) = blocks
  cases hrepeat : firstRepeat? [] (blocks.map (·.name)) with
  | none => simpa using (firstRepeat?_eq_none.1 hrepeat).1
  | some name =>
    refine iff_of_false (fun ⟨_, h⟩ => nomatch h) fun hn => ?_
    have hnone := firstRepeat?_eq_none.2 ⟨hn, fun _ _ => List.not_mem_nil⟩
    simp [hrepeat] at hnone

theorem eq_duplicateBlock_of_split {e : Error} (h : split instrs = .error e) :
    ∃ name, e = .duplicateBlock name := by
  unfold split at h
  simp only at h
  split at h
  · next name _ => exact ⟨name, (Except.error.inj h).symm⟩
  · cases h

end Names

section Runs

variable {V : Type} {I : Interp V} {σ : Store V} {source : Option String} {target : String}
  {effects : List (Effect V)} {es : List (RunEvent V)} {s t : State V}

def Within (blocks : List Block) (s : State V) : Prop :=
  ∀ name rest, s.point = .inside name rest → ∃ b ∈ blocks, b.name = name ∧ rest <:+ b.instrs

theorem Within.enters (h : Enters blocks source target σ effects es s) : Within blocks s := by
  obtain ⟨hb, _, _⟩ := h
  rintro _ _ ⟨⟩
  exact ⟨_, hb, rfl, List.dropWhile_suffix _⟩

theorem Within.step (h : Within blocks s) (hstep : Step blocks I s es t) : Within blocks t := by
  have htail : ∀ {name i rest}, s.point = .inside name (i :: rest) →
      ∃ b ∈ blocks, b.name = name ∧ rest <:+ b.instrs := by
    intro name i rest hs
    obtain ⟨b, hb, hname, hsuffix⟩ := h name (i :: rest) hs
    exact ⟨b, hb, hname, (List.suffix_cons i rest).trans hsuffix⟩
  cases hstep with
  | label _ =>
    rintro _ _ ⟨⟩
    exact htail rfl
  | branch _ _ _ _ he => exact .enters he
  | ret _ _ _ => rintro _ _ ⟨⟩
  | operation _ _ _ _ =>
    rintro _ _ ⟨⟩
    exact htail rfl
  | runOn _ he => exact .enters he
  | finish _ => rintro _ _ ⟨⟩

theorem Within.run (h : Within blocks s) (hrun : Run blocks I s es t) : Within blocks t := by
  induction hrun with
  | refl s => exact h
  | step hs _ ih => exact ih (h.step hs)

theorem Within.runsFrom (h : RunsFrom blocks I σ es s) : Within blocks s := by
  obtain ⟨_, _, _, _, _, henter, hrun, _⟩ := h
  exact (Within.enters henter).run hrun

def Proceeds (s t : State V) : Prop :=
  ∀ name i j rest, s.point = .inside name (i :: j :: rest) → t.point = .inside name (j :: rest)

theorem proceeds_of_step (hends : ∀ b ∈ blocks, ∀ i ∈ b.instrs.dropLast, i.isTerminator = false)
    (h : Within blocks s) (hstep : Step blocks I s es t) : Proceeds s t := by
  intro name i j rest hs
  have hi : i.isTerminator = false := by
    obtain ⟨b, hb, _, before, hinstrs⟩ := h _ _ hs
    exact hends b hb i (hinstrs ▸ mem_dropLast_append before i j rest)
  cases hstep with
  | label _ =>
    cases hs
    rfl
  | branch _ hbranch _ _ _ =>
    cases hs
    simp [Instruction.isTerminator_of_isBranch hbranch] at hi
  | ret _ hret _ =>
    cases hs
    simp [Instruction.isTerminator, hret] at hi
  | operation _ _ _ _ =>
    cases hs
    rfl
  | runOn _ _ => cases hs
  | finish _ => cases hs

end Runs

/-- Cutting loses nothing, and only the first instruction of a block can be a label. Control leaves
the blocks from their last instructions alone just if behind every jump, branch and return stands a
label or nothing; then every run executes what is in a block in its order. -/
theorem split_leaves_at_ends (instrs : List Instruction) (blocks : List Block)
    (h : split instrs = .ok blocks) :
    flatten blocks = instrs ∧
      (∀ b ∈ blocks, b.instrs ≠ [] ∧ ∀ i ∈ b.instrs.tail, i.isLabel = false) ∧
      ((∀ b ∈ blocks, ∀ i ∈ b.instrs.dropLast, i.isTerminator = false) ↔ Separated instrs) ∧
      (Separated instrs → ∀ (V : Type) (I : Interp V) (σ : Store V) (events es : List (RunEvent V))
        (s t : State V), RunsFrom blocks I σ events s → Step blocks I s es t → Proceeds s t) := by
  refine ⟨flatten_split h, fun b hb => ?_, (separated_iff_split h).symm, ?_⟩
  · exact ⟨ne_nil_of_mem_split h hb, fun i hi => isLabel_of_mem_tail_split h hb hi⟩
  · intro hsep V I σ events es s t hrun hstep
    exact proceeds_of_step ((separated_iff_split h).1 hsep) (.runsFrom hrun) hstep

def circling : List Instruction :=
  [.constant "x" (.named "int") (.int 1), .atLabel "top", .effect "print" ["x"],
    .branch "c" "top" "done", .atLabel "done", .ret []]

def circlingBlocks : List Block :=
  [⟨"b0", [.constant "x" (.named "int") (.int 1)]⟩,
    ⟨"top", [.atLabel "top", .effect "print" ["x"], .branch "c" "top" "done"]⟩,
    ⟨"done", [.atLabel "done", .ret []]⟩]

theorem circling_leaves_at_ends : split circling = .ok circlingBlocks ∧
    flatten circlingBlocks = circling ∧
    (∀ b ∈ circlingBlocks, b.instrs ≠ [] ∧ ∀ i ∈ b.instrs.tail, i.isLabel = false) ∧
    (∀ b ∈ circlingBlocks, ∀ i ∈ b.instrs.dropLast, i.isTerminator = false) ∧
    Separated circling ∧
    ∀ (V : Type) (I : Interp V) (σ : Store V) (events es : List (RunEvent V)) (s t : State V),
      RunsFrom circlingBlocks I σ events s → Step circlingBlocks I s es t → Proceeds s t := by
  have hsplit : split circling = .ok circlingBlocks := by decide +kernel
  have hseparated : Separated circling := by decide
  obtain ⟨hflatten, hlabels, hends, hruns⟩ := split_leaves_at_ends circling circlingBlocks hsplit
  exact ⟨hsplit, hflatten, hlabels, hends.2 hseparated, hseparated, hruns hseparated⟩

/-- Code behind a jump, without a label. -/
def jumpingOver : List Instruction :=
  [.jump "done", .constant "x" (.named "int") (.int 1), .atLabel "done", .ret []]

/-- It stays in the block that the jump leaves. -/
theorem jumpingOver_leaves_inside : ∃ blocks b i, split jumpingOver = .ok blocks ∧ b ∈ blocks ∧
    i ∈ b.instrs.dropLast ∧ i.isTerminator = true := by
  have hsplit : split jumpingOver = .ok
      [⟨"b0", [.jump "done", .constant "x" (.named "int") (.int 1)]⟩,
        ⟨"done", [.atLabel "done", .ret []]⟩] := by decide +kernel
  exact ⟨_, _, .jump "done", hsplit, List.mem_cons_self, List.mem_cons_self, rfl⟩

end Block

end FlowOpt
