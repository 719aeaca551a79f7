import Mathlib
import FlowOpt.BitSet

/-!
# Words of bits

A word that is not zero is a multiple of a power of two and that power, so taking one from it
borrows from its lowest bit alone: taking lowest bits until none is left lists the bits of a word in
ascending order. Lists of words are combined place by place as far as both reach.
-/

namespace FlowOpt.BitSet

section Word

variable {word : Word} {i : Nat}

theorem and_twoPow_eq_zero : word &&& BitVec.twoPow 64 i = 0#64 ↔ word.getLsbD i = false := by
  rw [BitVec.and_twoPow]
  split
  · next hbit =>
    have hi : i < 64 := BitVec.lt_of_getLsbD hbit
    have hne : BitVec.twoPow 64 i ≠ 0#64 := fun h => by
      have hzero := congrArg (·.getLsbD i) h
      simp [hi] at hzero
    simp [hbit, hne]
  · next hbit => simp [hbit]

theorem and_not_eq_zero {other : Word} : word &&& ~~~other = 0#64 ↔
    ∀ i, word.getLsbD i = true → other.getLsbD i = true := by
  constructor
  · intro h i hi
    have hzero := congrArg (·.getLsbD i) h
    simpa [hi, BitVec.lt_of_getLsbD hi] using hzero
  · intro h
    apply BitVec.eq_of_getLsbD_eq
    intro i hlt
    cases hbit : word.getLsbD i with
    | false => simp [hbit]
    | true => simp [hbit, h i hbit]

theorem le_of_getLsbD (h : word.getLsbD i = true) : word.ctz.toNat ≤ i := by
  by_contra hlt
  rw [BitVec.getLsbD_false_of_lt_ctz (by omega)] at h
  cases h

theorem toNat_eq_lowest (h : word ≠ 0#64) : word.toNat =
    2 ^ (word.ctz.toNat + 1) * (word.toNat / 2 ^ (word.ctz.toNat + 1)) + 2 ^ word.ctz.toNat := by
  have hlow : word.toNat % 2 ^ (word.ctz.toNat + 1) = 2 ^ word.ctz.toNat := by
    apply Nat.eq_of_testBit_eq
    intro i
    rw [Nat.testBit_mod_two_pow, Nat.testBit_two_pow]
    rcases Nat.lt_trichotomy i word.ctz.toNat with hi | rfl | hi
    · have hbit : word.toNat.testBit i = false := BitVec.getLsbD_false_of_lt_ctz hi
      simp [hbit, hi.ne']
    · have hbit : word.toNat.testBit word.ctz.toNat = true :=
        BitVec.getLsbD_true_ctz_of_ne_zero h
      simp [hbit]
    · have hnot : ¬ i < word.ctz.toNat + 1 := by omega
      simp [hnot, hi.ne]
  have hsplit := Nat.div_add_mod word.toNat (2 ^ (word.ctz.toNat + 1))
  omega

theorem getLsbD_clear_lowest (h : word ≠ 0#64) :
    (word &&& (word - 1#64)).getLsbD i = true ↔
      word.getLsbD i = true ∧ i ≠ word.ctz.toNat := by
  have hword := toNat_eq_lowest h
  have hpos : 0 < 2 ^ word.ctz.toNat := Nat.two_pow_pos _
  have hlt : 2 ^ word.ctz.toNat < 2 ^ (word.ctz.toNat + 1) := Nat.pow_lt_pow_succ Nat.one_lt_two
  generalize word.toNat / 2 ^ (word.ctz.toNat + 1) = high at hword
  have hle : 1#64 ≤ word := by
    rw [BitVec.le_def, BitVec.toNat_ofNat]
    omega
  have hpred : (word - 1#64).toNat =
      2 ^ (word.ctz.toNat + 1) * high + (2 ^ word.ctz.toNat - 1) := by
    rw [BitVec.toNat_sub_of_le hle, BitVec.toNat_ofNat]
    omega
  rw [BitVec.getLsbD_and, Bool.and_eq_true]
  refine and_congr_right fun hbit => ?_
  have hmin := le_of_getLsbD hbit
  change word.toNat.testBit i = true at hbit
  change (word - 1#64).toNat.testBit i = true ↔ _
  -- At the lowest bit the two differ; above it both are the bits of `high`.
  rw [hword, Nat.testBit_two_pow_mul_add _ hlt] at hbit
  rw [hpred, Nat.testBit_two_pow_mul_add _ (by omega)]
  split at hbit
  · next hi =>
    have heq : i = word.ctz.toNat := by omega
    simp [heq, Nat.testBit_two_pow_sub_one]
  · next hi =>
    rw [if_neg hi]
    exact iff_of_true hbit (by omega)

/-- Bits that are cleared are never set again, so as many steps as there are places from the lowest
bit on find all of them. -/
theorem mem_lowestFirst {fuel : Nat} (h : ∀ i, word.getLsbD i = true → 64 ≤ i + fuel) :
    i ∈ lowestFirst fuel word ↔ word.getLsbD i = true := by
  induction fuel generalizing word with
  | zero =>
    simp only [lowestFirst, List.not_mem_nil, false_iff]
    intro hi
    have hle := h i hi
    have hlt := BitVec.lt_of_getLsbD hi
    omega
  | succ fuel ih =>
    rw [lowestFirst]
    split
    · next hz => simp [hz]
    · next hz =>
      have hrest : ∀ i, (word &&& (word - 1#64)).getLsbD i = true → 64 ≤ i + fuel := by
        intro i hi
        obtain ⟨hbit, hne⟩ := (getLsbD_clear_lowest hz).1 hi
        have hlow := h _ (BitVec.getLsbD_true_ctz_of_ne_zero hz)
        have hmin := le_of_getLsbD hbit
        omega
      rw [List.mem_cons, ih hrest, getLsbD_clear_lowest hz]
      constructor
      · rintro (rfl | ⟨hi, _⟩)
        · exact BitVec.getLsbD_true_ctz_of_ne_zero hz
        · exact hi
      · intro hi
        by_cases heq : i = word.ctz.toNat
        · exact .inl heq
        · exact .inr ⟨hi, heq⟩

theorem getLsbD_of_mem_lowestFirst {fuel : Nat} (h : i ∈ lowestFirst fuel word) :
    word.getLsbD i = true := by
  induction fuel generalizing word with
  | zero => cases h
  | succ fuel ih =>
    rw [lowestFirst] at h
    split at h
    · cases h
    · next hz =>
      rcases List.mem_cons.1 h with rfl | h
      · exact BitVec.getLsbD_true_ctz_of_ne_zero hz
      · exact ((getLsbD_clear_lowest hz).1 (ih h)).1

theorem pairwise_lowestFirst (fuel : Nat) (word : Word) :
    (lowestFirst fuel word).Pairwise (· < ·) := by
  induction fuel generalizing word with
  | zero => exact .nil
  | succ fuel ih =>
    rw [lowestFirst]
    split
    · exact .nil
    · next hz =>
      refine List.pairwise_cons.2 ⟨fun i hi => ?_, ih _⟩
      obtain ⟨hbit, hne⟩ := (getLsbD_clear_lowest hz).1 (getLsbD_of_mem_lowestFirst hi)
      have hmin := le_of_getLsbD hbit
      omega

theorem lowestFirst_eq (word : Word) :
    lowestFirst 64 word = (List.range 64).filter word.getLsbD := by
  refine (pairwise_lowestFirst 64 word).eq_of_mem_iff (List.pairwise_lt_range.filter _) fun i => ?_
  rw [mem_lowestFirst (by omega), List.mem_filter, List.mem_range]
  exact ⟨fun h => ⟨BitVec.lt_of_getLsbD h, h⟩, And.right⟩

theorem toNat_cpop_eq (word : Word) : word.cpop.toNat = (lowestFirst 64 word).length := by
  have hcount : ∀ k, word.cpopNatRec k 0 = ((List.range k).filter word.getLsbD).length := by
    intro k
    induction k with
    | zero => rfl
    | succ k ih =>
      rw [BitVec.cpopNatRec_succ, BitVec.cpopNatRec_add, ih, List.range_succ, List.filter_append,
        List.length_append]
      cases hbit : word.getLsbD k with
      | false => simp [hbit]
      | true => simp [hbit]
  rw [BitVec.toNat_cpop, hcount, lowestFirst_eq]

end Word

section Lists

variable {op : Word → Word → Word} {words others : List Word} {i : Nat}

theorem getElem?_combineWords : (combineWords op words others).1[i]? =
    words[i]?.map fun word => others[i]?.elim word (op word) := by
  induction words generalizing others i with
  | nil => cases others <;> rfl
  | cons word words ih =>
    cases others with
    | nil => cases i <;> simp [combineWords]
    | cons other others =>
      cases i with
      | zero => rfl
      | succ i => exact ih

theorem combineWords_snd :
    (combineWords op words others).2 = ((combineWords op words others).1 != words) := by
  induction words generalizing others with
  | nil => cases others <;> rfl
  | cons word words ih =>
    cases others with
    | nil => simp [combineWords]
    | cons other others =>
      have hcons : ((op word other :: (combineWords op words others).1) != word :: words) =
          (op word other != word || (combineWords op words others).1 != words) := by
        simp [bne, Bool.not_and]
      exact (congrArg _ ih).trans hcons.symm

end Lists

end FlowOpt.BitSet
