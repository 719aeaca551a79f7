import Mathlib
import FlowOpt.Block

/-!
# Executing blocks

Control is inside a block with some instructions left, or the code is finished. When a block is
entered the phis at its head take their values from the block that was left, all at once. Jumps and
branches enter the block they name, an operation applies its operator to the values of its
arguments, and behind its last instruction a block runs on into the next one. An instruction that
reads a variable without a value does not execute. A run lists what happens as events.
-/

namespace FlowOpt

theorem Instruction.isTerminator_of_isBranch {i : Instruction} (h : i.isBranch = true) :
    i.isTerminator = true := by
  unfold isTerminator
  unfold isBranch at h
  rw [h, Bool.true_or]

namespace Block

def isHead (i : Instruction) : Bool := i.isLabel || i.isPhi

def headPhis (b : Block) : List Instruction := (b.instrs.takeWhile isHead).filter (·.isPhi)

def body (b : Block) : List Instruction := b.instrs.dropWhile isHead

def following : List String → String → Option String
  | a :: b :: rest, name => if a = name then some b else following (b :: rest) name
  | _, _ => none

section Heads

variable {b : Block} {heads rest : List Instruction}

theorem instrs_eq_append_body (b : Block) : b.instrs = b.instrs.takeWhile isHead ++ b.body :=
  List.takeWhile_append_dropWhile.symm

theorem filter_isPhi_head (hrest : ∀ i ∈ rest, i.isPhi = false) :
    (rest.takeWhile isHead).filter (·.isPhi) = [] := by
  rw [List.filter_eq_nil_iff]
  intro i hi
  rw [hrest i ((List.takeWhile_sublist _).subset hi)]
  exact Bool.false_ne_true

theorem headPhis_eq_nil (hb : ∀ i ∈ b.instrs, i.isPhi = false) : b.headPhis = [] :=
  filter_isPhi_head hb

theorem headPhis_of_append (hb : b.instrs = heads ++ rest) (hheads : ∀ i ∈ heads, isHead i = true)
    (hrest : ∀ i ∈ rest, i.isPhi = false) : b.headPhis = heads.filter (·.isPhi) := by
  rw [headPhis, hb, List.takeWhile_append_of_pos hheads, List.filter_append,
    filter_isPhi_head hrest, List.append_nil]

theorem body_of_append (hb : b.instrs = heads ++ rest) (hheads : ∀ i ∈ heads, isHead i = true) :
    b.body = rest.dropWhile isHead := by
  rw [body, hb, List.dropWhile_append_of_pos hheads]

theorem head_of_append (hb : b.instrs = heads ++ rest) (hheads : ∀ i ∈ heads, isHead i = true)
    (hrest : ∀ i, rest.head? = some i → isHead i = false) :
    b.headPhis = heads.filter (·.isPhi) ∧ b.body = rest := by
  have hnone : rest.takeWhile isHead = [] ∧ rest.dropWhile isHead = rest := by
    cases rest with
    | nil => exact ⟨rfl, rfl⟩
    | cons i rest =>
      have hi := hrest i rfl
      exact ⟨List.takeWhile_cons_of_neg (by simp [hi]), List.dropWhile_cons_of_neg (by simp [hi])⟩
  constructor
  · rw [headPhis, hb, List.takeWhile_append_of_pos hheads, hnone.1, List.append_nil]
  · rw [body, hb, List.dropWhile_append_of_pos hheads, hnone.2]

theorem dropWhile_isHead (hrest : ∀ i ∈ rest, i.isPhi = false) :
    rest.dropWhile isHead = rest.dropWhile (·.isLabel) := by
  induction rest with
  | nil => rfl
  | cons i rest ih =>
    have hhead : isHead i = i.isLabel := by
      rw [isHead, hrest i List.mem_cons_self, Bool.or_false]
    rw [List.dropWhile_cons, List.dropWhile_cons, hhead,
      ih fun j hj => hrest j (List.mem_cons_of_mem _ hj)]

end Heads

end Block

namespace Execution

variable {V : Type}

/-- An operation that was executed, without the names of variables. -/
structure Effect (V : Type) where
  op : Option String
  funcs : List String
  value : Option Literal
  args : List V
  result : V

/-- What operators compute from a record, the values of its arguments and the operations executed
so far, if they do not fail, and which way a branch goes. -/
structure Interp (V : Type) where
  result : Instruction → List V → List (Effect V) → Option V
  taken : List V → Bool

abbrev Store (V : Type) := String → Option V

inductive Action (V : Type)
  | enter
  | phi (dest : Option String) (value : Option V)
  | operation (i : Instruction) (args : List V) (result : V)
  | branch (op : Option String) (args : List V) (taken : Bool)
  /-- The code is left with values, or at its end. -/
  | leave (args : Option (List V))

structure RunEvent (V : Type) where
  block : String
  action : Action V

inductive Point
  | inside (block : String) (rest : List Instruction)
  | finished

def Point.block? : Point → Option String
  | .inside b _ => some b
  | .finished => none

theorem Point.eq_finished {p : Point} (h : p.block? = none) : p = .finished := by
  cases p with
  | inside => cases h
  | finished => rfl

structure State (V : Type) where
  point : Point
  store : Store V
  effects : List (Effect V)

namespace Store

def assign (σ : Store V) (dest : Option String) (value : Option V) : Store V :=
  match dest with
  | none => σ
  | some x => Function.update σ x value

def assignAll (σ : Store V) (phis : List Instruction) (values : List (Option V)) : Store V :=
  (phis.zip values).foldl (fun σ e => σ.assign e.1.dest e.2) σ

end Store

def operand? (source : Option String) (i : Instruction) : Option String :=
  source.bind fun s => (i.labels.zip i.args).lookup s

def effectOf (i : Instruction) (args : List V) (result : V) : Effect V :=
  ⟨i.op, i.funcs, i.value, args, result⟩

def decision (I : Interp V) (i : Instruction) (args : List V) : Bool :=
  i.op == some "jmp" || I.taken args

def entryEvents (b : Block) (values : List (Option V)) : List (RunEvent V) :=
  ⟨b.name, .enter⟩ :: (b.headPhis.zip values).map fun e => ⟨b.name, .phi e.1.dest e.2⟩

/-- Entering a block: each phi at its head reads its operand in the store before. -/
inductive Enters (blocks : List Block) (source : Option String) (target : String) (σ : Store V)
    (effects : List (Effect V)) : List (RunEvent V) → State V → Prop
  | intro {b : Block} {values : List (Option V)} (hb : b ∈ blocks) (hn : b.name = target)
      (hv : List.Forall₂ (fun i v => ∃ x, operand? source i = some x ∧ v = σ x)
        b.headPhis values) :
      Enters blocks source target σ effects (entryEvents b values)
        ⟨.inside b.name b.body, σ.assignAll b.headPhis values, effects⟩

variable (blocks : List Block) (I : Interp V)

inductive Step : State V → List (RunEvent V) → State V → Prop
  | label {b : String} {i : Instruction} {rest : List Instruction} {σ : Store V}
      {effects : List (Effect V)} (hi : i.isLabel = true) :
      Step ⟨.inside b (i :: rest), σ, effects⟩ [] ⟨.inside b rest, σ, effects⟩
  | branch {b target : String} {i : Instruction} {rest : List Instruction} {σ : Store V}
      {effects : List (Effect V)} {args : List V} {events : List (RunEvent V)} {s : State V}
      (hl : i.isLabel = false) (hi : i.isBranch = true) (ha : i.args.map σ = args.map some)
      (ht : i.labels[if decision I i args then 0 else 1]? = some target)
      (he : Enters blocks (some b) target σ effects events s) :
      Step ⟨.inside b (i :: rest), σ, effects⟩
        (⟨b, .branch i.op args (decision I i args)⟩ :: events) s
  | ret {b : String} {i : Instruction} {rest : List Instruction} {σ : Store V}
      {effects : List (Effect V)} {args : List V} (hl : i.isLabel = false)
      (hi : i.op = some "ret") (ha : i.args.map σ = args.map some) :
      Step ⟨.inside b (i :: rest), σ, effects⟩ [⟨b, .leave (some args)⟩]
        ⟨.finished, σ, effects⟩
  | operation {b : String} {i : Instruction} {rest : List Instruction} {σ : Store V}
      {effects : List (Effect V)} {args : List V} {r : V} (hl : i.isLabel = false)
      (hi : i.isTerminator = false) (ha : i.args.map σ = args.map some)
      (hr : I.result { i with dest := none } args effects = some r) :
      Step ⟨.inside b (i :: rest), σ, effects⟩ [⟨b, .operation i args r⟩]
        ⟨.inside b rest, σ.assign i.dest (some r), effects ++ [effectOf i args r]⟩
  | runOn {b target : String} {σ : Store V} {effects : List (Effect V)}
      {events : List (RunEvent V)} {s : State V}
      (hf : Block.following (blocks.map (·.name)) b = some target)
      (he : Enters blocks (some b) target σ effects events s) :
      Step ⟨.inside b [], σ, effects⟩ events s
  | finish {b : String} {σ : Store V} {effects : List (Effect V)}
      (hf : Block.following (blocks.map (·.name)) b = none) :
      Step ⟨.inside b [], σ, effects⟩ [⟨b, .leave none⟩] ⟨.finished, σ, effects⟩

inductive Run : State V → List (RunEvent V) → State V → Prop
  | refl (s : State V) : Run s [] s
  | step {s t u : State V} {es es' : List (RunEvent V)} (h : Step blocks I s es t)
      (hr : Run t es' u) : Run s (es ++ es') u

def Stuck (s : State V) : Prop := ∀ es t, ¬ Step blocks I s es t

def RunsFrom (σ : Store V) (events : List (RunEvent V)) (s : State V) : Prop :=
  ∃ (first : Block) (es es' : List (RunEvent V)) (t : State V), blocks.head? = some first ∧
    Enters blocks none first.name σ [] es t ∧ Run blocks I t es' s ∧ events = es ++ es'

variable {blocks I} {s t u : State V} {es es' : List (RunEvent V)}

theorem Enters.of_headPhis_eq_nil {b : Block} (hb : b ∈ blocks) (hp : b.headPhis = [])
    (source : Option String) (σ : Store V) (effects : List (Effect V)) :
    Enters blocks source b.name σ effects [⟨b.name, .enter⟩]
      ⟨.inside b.name b.body, σ, effects⟩ := by
  have hreads : List.Forall₂ (fun i v => ∃ x, operand? source i = some x ∧ v = σ x)
      b.headPhis [] := by
    rw [hp]
    exact .nil
  have henters : Enters blocks source b.name σ effects _ _ := .intro hb rfl hreads
  rwa [entryEvents, hp] at henters

theorem Enters.eq_of_headPhis_eq_nil {source : Option String} {target : String} {σ : Store V}
    {effects : List (Effect V)} (h : Enters blocks source target σ effects es s)
    (hp : ∀ b ∈ blocks, b.headPhis = []) : ∃ b ∈ blocks, b.name = target ∧
      es = [⟨b.name, .enter⟩] ∧ s = ⟨.inside b.name b.body, σ, effects⟩ := by
  obtain ⟨hb, hn, -⟩ := h
  next b values =>
  refine ⟨b, hb, hn, ?_, ?_⟩
  · rw [entryEvents, hp b hb]
    rfl
  · rw [hp b hb]
    rfl

theorem operand?_map_labels {i : Instruction} {f : String → String} {source source' : String}
    (hf : ∀ l ∈ i.labels, f l = source' ↔ l = source) :
    operand? (some source') { i with labels := i.labels.map f } = operand? (some source) i := by
  have hlookup : ∀ labels args : List String, (∀ l ∈ labels, f l = source' ↔ l = source) →
      ((labels.map f).zip args).lookup source' = (labels.zip args).lookup source := by
    intro labels
    induction labels with
    | nil => exact fun _ _ => rfl
    | cons l labels ih =>
      intro args hl
      cases args with
      | nil => rfl
      | cons x args =>
        have hrest := ih args fun k hk => hl k (List.mem_cons_of_mem _ hk)
        rw [List.map_cons, List.zip_cons_cons, List.zip_cons_cons, List.lookup_cons,
          List.lookup_cons, hrest]
        have hbeq : (source' == f l) = (source == l) := by
          rw [Bool.eq_iff_iff, beq_iff_eq, beq_iff_eq, eq_comm, hl l List.mem_cons_self, eq_comm]
        rw [hbeq]
  exact hlookup i.labels i.args hf

theorem mem_zip_of_operand? {i : Instruction} {source x : String}
    (h : operand? (some source) i = some x) : (x, source) ∈ i.args.zip i.labels := by
  have hlookup : ∀ labels args : List String, (labels.zip args).lookup source = some x →
      (x, source) ∈ args.zip labels := by
    intro labels
    induction labels with
    | nil =>
      intro args hnil
      cases hnil
    | cons l labels ih =>
      intro args hl
      cases args with
      | nil => cases hl
      | cons y args =>
        rw [List.zip_cons_cons, List.lookup_cons] at hl
        rw [List.zip_cons_cons, List.mem_cons]
        split at hl
        · next hsource =>
          obtain rfl := Option.some.inj hl
          exact .inl (by rw [beq_iff_eq.1 hsource])
        · exact .inr (ih args hl)
  exact hlookup i.labels i.args h

theorem Run.single (h : Step blocks I s es t) : Run blocks I s es t := by
  have hr := Run.step h (.refl t)
  rwa [List.append_nil] at hr

theorem Run.trans (h : Run blocks I s es t) (h' : Run blocks I t es' u) :
    Run blocks I s (es ++ es') u := by
  induction h with
  | refl s => exact h'
  | step hs _ ih =>
    rw [List.append_assoc]
    exact .step hs (ih h')

section Simulation

variable {blocks' : List Block} {I' : Interp V} {E : Type} {f f' : RunEvent V → Option E}
  {R : State V → State V → Prop} {Stops : State V → Prop}

/-- If every step of one program is answered by a run of another that shows the same, unless that
stops, so is every run. -/
theorem Run.simulate_unless
    (hstep : ∀ s es s' t, Step blocks I s es s' → R s t →
      (∃ es' t', Run blocks' I' t es' t' ∧ R s' t' ∧ es'.filterMap f' = es.filterMap f) ∨
      ∃ es' t', Run blocks' I' t es' t' ∧ Stops t' ∧ es'.filterMap f' <+: es.filterMap f)
    (h : Run blocks I s es u) (hst : R s t) :
    (∃ es' t', Run blocks' I' t es' t' ∧ R u t' ∧ es'.filterMap f' = es.filterMap f) ∨
      ∃ es' t', Run blocks' I' t es' t' ∧ Stops t' ∧ es'.filterMap f' <+: es.filterMap f := by
  induction h generalizing t with
  | refl s => exact .inl ⟨[], t, .refl t, hst, rfl⟩
  | @step s s₁ u es₁ es₂ hs _ ih =>
    rw [List.filterMap_append]
    rcases hstep _ _ _ _ hs hst with ⟨es₁', t₁, hr₁, hR₁, he₁⟩ | ⟨es₁', t₁, hr₁, hstop, he₁⟩
    · rcases ih hR₁ with ⟨es₂', t₂, hr₂, hR₂, he₂⟩ | ⟨es₂', t₂, hr₂, hstop, he₂⟩
      · refine .inl ⟨es₁' ++ es₂', t₂, hr₁.trans hr₂, hR₂, ?_⟩
        rw [List.filterMap_append, he₁, he₂]
      · refine .inr ⟨es₁' ++ es₂', t₂, hr₁.trans hr₂, hstop, ?_⟩
        rw [List.filterMap_append, he₁]
        exact (List.prefix_append_right_inj _).2 he₂
    · exact .inr ⟨es₁', t₁, hr₁, hstop, he₁.trans (List.prefix_append _ _)⟩

/-- If every step of one program is answered by a run of another that shows the same, so is every
run. -/
theorem Run.simulate
    (hstep : ∀ s es s' t, Step blocks I s es s' → R s t → ∃ es' t',
      Run blocks' I' t es' t' ∧ R s' t' ∧ es'.filterMap f' = es.filterMap f)
    (h : Run blocks I s es u) (hst : R s t) : ∃ es' t',
      Run blocks' I' t es' t' ∧ R u t' ∧ es'.filterMap f' = es.filterMap f := by
  have hanswer : ∀ s es s' t, Step blocks I s es s' → R s t →
      (∃ es' t', Run blocks' I' t es' t' ∧ R s' t' ∧ es'.filterMap f' = es.filterMap f) ∨
      ∃ es' t', Run blocks' I' t es' t' ∧ False ∧ es'.filterMap f' <+: es.filterMap f :=
    fun s es s' t hs hR => .inl (hstep s es s' t hs hR)
  rcases h.simulate_unless hanswer hst with hrun | ⟨_, _, _, hstop, _⟩
  · exact hrun
  · exact hstop.elim

end Simulation

namespace Store

variable {σ : Store V} {x y : String} {value : Option V} {phis : List Instruction}
  {values : List (Option V)} {dest : Option String} {i : Instruction}

theorem assign_of_ne (h : dest ≠ some x) : σ.assign dest value x = σ x := by
  cases dest with
  | none => rfl
  | some y =>
    have hxy : x ≠ y := by
      intro heq
      exact h (heq ▸ rfl)
    exact Function.update_of_ne hxy _ _

@[simp] theorem assign_self : σ.assign (some x) value x = value := Function.update_self _ _ _

theorem assignAll_cons (σ : Store V) (i : Instruction) (v : Option V) (phis : List Instruction)
    (values : List (Option V)) :
    σ.assignAll (i :: phis) (v :: values) = (σ.assign i.dest v).assignAll phis values := rfl

theorem assignAll_of_not_mem (h : x ∉ phis.filterMap (·.dest)) :
    σ.assignAll phis values x = σ x := by
  induction phis generalizing σ values with
  | nil => rfl
  | cons i phis ih =>
    cases values with
    | nil => rfl
    | cons v values =>
      have hi : i.dest ≠ some x := fun hd => h (List.mem_filterMap.2 ⟨i, List.mem_cons_self, hd⟩)
      have hrest : x ∉ phis.filterMap (·.dest) := fun hm => by
        obtain ⟨j, hj, hd⟩ := List.mem_filterMap.1 hm
        exact h (List.mem_filterMap.2 ⟨j, List.mem_cons_of_mem _ hj, hd⟩)
      rw [assignAll_cons, ih hrest, assign_of_ne hi]

theorem assignAll_congr {σ' : Store V} {phis' : List Instruction}
    (hd : phis'.map (·.dest) = phis.map (·.dest)) (hlen : values.length = phis.length)
    (h : x ∉ phis.filterMap (·.dest) → σ x = σ' x) :
    σ.assignAll phis values x = σ'.assignAll phis' values x := by
  induction phis generalizing σ σ' phis' values with
  | nil =>
    obtain rfl := List.map_eq_nil_iff.1 hd
    exact h (by simp)
  | cons i phis ih =>
    obtain ⟨v, values, rfl⟩ := List.exists_cons_of_length_eq_add_one hlen
    obtain ⟨i', phis', rfl, hi, hd⟩ := List.map_eq_cons_iff.1 hd
    have hdest : i'.dest = i.dest := hi
    rw [assignAll_cons, assignAll_cons, hdest]
    apply ih hd (Nat.succ.inj hlen)
    intro hrest
    by_cases hx : i.dest = some x
    · rw [hx, assign_self, assign_self]
    · rw [assign_of_ne hx, assign_of_ne hx]
      apply h
      rw [List.mem_filterMap]
      rintro ⟨j, hj, hdj⟩
      rcases List.mem_cons.1 hj with rfl | hj
      · exact hx hdj
      · exact hrest (List.mem_filterMap.2 ⟨j, hj, hdj⟩)

theorem assignAll_of_mem (hn : (phis.filterMap (·.dest)).Nodup)
    (hv : (i, value) ∈ phis.zip values) (hi : i.dest = some x) :
    σ.assignAll phis values x = value := by
  induction phis generalizing σ values with
  | nil => simp at hv
  | cons j phis ih =>
    cases values with
    | nil => simp at hv
    | cons v values =>
      rw [assignAll_cons]
      rw [List.zip_cons_cons, List.mem_cons] at hv
      rcases hv with heq | hv
      · obtain ⟨rfl, rfl⟩ := Prod.mk.inj heq
        simp only [List.filterMap_cons, hi, List.nodup_cons] at hn
        rw [assignAll_of_not_mem hn.1, hi, assign_self]
      · apply ih _ hv
        cases hj : j.dest with
        | none =>
          simp only [List.filterMap_cons, hj] at hn
          exact hn
        | some y =>
          simp only [List.filterMap_cons, hj, List.nodup_cons] at hn
          exact hn.2

theorem assignAll_map_of_mem {f : Instruction → Option V} (hn : (phis.filterMap (·.dest)).Nodup)
    (hm : i ∈ phis) (hi : i.dest = some x) : σ.assignAll phis (phis.map f) x = f i := by
  apply assignAll_of_mem hn _ hi
  have hzip : phis.zip (phis.map f) = phis.map fun i => (i, f i) := by
    rw [← List.zip_map', List.map_id']
  rw [hzip]
  exact List.mem_map_of_mem hm

end Store

end Execution

end FlowOpt
