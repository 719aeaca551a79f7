import FlowOpt.Program.Function

/-!
# Equality of records

Records are compared as the program does: both zeros are equal, and what is no number differs from
itself. So equality is symmetric and transitive, and reflexive on what holds numbers only.
-/

namespace FlowOpt

/-- What is no number differs from everything, itself included. -/
instance : PartialEquivBEq Binary64 where
  symm {x y} h := by
    change Binary64.equal x y = true at h
    change Binary64.equal y x = true
    simp only [Binary64.equal, Bool.and_eq_true, beq_iff_eq, Bool.or_eq_true] at h ⊢
    obtain ⟨⟨⟨hx, hy⟩, hm⟩, hs⟩ := h
    exact ⟨⟨⟨hy, hx⟩, hm.symm⟩, hs.imp (hm ▸ ·) Eq.symm⟩
  trans {x y z} h h' := by
    change Binary64.equal x y = true at h
    change Binary64.equal y z = true at h'
    change Binary64.equal x z = true
    simp only [Binary64.equal, Bool.and_eq_true, beq_iff_eq, Bool.or_eq_true] at h h' ⊢
    obtain ⟨⟨⟨hx, -⟩, hm⟩, hs⟩ := h
    obtain ⟨⟨⟨-, hz⟩, hm'⟩, hs'⟩ := h'
    refine ⟨⟨⟨hx, hz⟩, hm.trans hm'⟩, ?_⟩
    rcases hs with hs | hs
    · exact .inl hs
    · exact hs'.imp (hm ▸ ·) hs.trans

instance : PartialEquivBEq Literal where
  symm {a b} h := by
    change Literal.equal a b = true at h
    change Literal.equal b a = true
    cases a <;> cases b <;> first | exact PartialEquivBEq.symm h | cases h
  trans {a b c} h h' := by
    change Literal.equal a b = true at h
    change Literal.equal b c = true at h'
    change Literal.equal a c = true
    cases a <;> cases b <;> cases c <;>
      first | exact PartialEquivBEq.trans h h' | cases h | cases h'

theorem Binary64.beq_self {x : Binary64} (h : x.isNaN = false) : (x == x) = true := by
  change equal x x = true
  simp [equal, h]

theorem Literal.beq_self {v : Literal} (h : ∀ x, v = .float x → x.isNaN = false) :
    (v == v) = true := by
  cases v with
  | bool b => exact beq_self_eq_true b
  | int n => exact beq_self_eq_true n
  | float x => exact Binary64.beq_self (h x rfl)

theorem beq_self_of_forall_mem {α : Type} [BEq α] {as : List α} (h : ∀ a ∈ as, (a == a) = true) :
    (as == as) = true := by
  induction as with
  | nil => rfl
  | cons a as ih =>
    rw [List.cons_beq_cons, h a List.mem_cons_self, ih fun b hb => h b (List.mem_cons_of_mem _ hb)]
    rfl

/-- If the literal of the instruction is of floating point, it is a number. -/
def Instruction.NaNFree (i : Instruction) : Prop := ∀ x, i.value = some (.float x) → x.isNaN = false

instance (i : Instruction) : Decidable i.NaNFree :=
  match h : i.value with
  | some (.float x) => decidable_of_iff (x.isNaN = false) (by simp [Instruction.NaNFree, h])
  | some (.bool _) => isTrue (by simp [Instruction.NaNFree, h])
  | some (.int _) => isTrue (by simp [Instruction.NaNFree, h])
  | none => isTrue (by simp [Instruction.NaNFree, h])

theorem Instruction.beq_self {i : Instruction} (h : i.NaNFree) : (i == i) = true := by
  have hvalue : (i.value == i.value) = true := by
    cases hv : i.value with
    | none => rfl
    | some v => exact Literal.beq_self fun x hx => h x (hx ▸ hv)
  change equal i i = true
  simp only [equal, BEq.rfl, hvalue, Bool.and_self]

theorem Function.beq_self {f : Function} (h : ∀ i ∈ f.instrs, i.NaNFree) : (f == f) = true := by
  have hinstrs := beq_self_of_forall_mem fun i hi => Instruction.beq_self (h i hi)
  change equal f f = true
  simp only [equal, BEq.rfl, hinstrs, Bool.and_self]

theorem Program.beq_self {p : Program}
    (h : ∀ f ∈ p.functions, ∀ i ∈ f.instrs, i.NaNFree) : (p == p) = true :=
  beq_self_of_forall_mem fun f hf => Function.beq_self (h f hf)

end FlowOpt
