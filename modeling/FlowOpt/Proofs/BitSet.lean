import FlowOpt.Proofs.BitSet.Words

/-!
# Membership in sets of small numbers

Every number has a bit in some word, and no two numbers the same one. A set is tidy if it has no bit
at or beyond its capacity. All operations on sets of one capacity keep sets tidy, and a tidy set is
determined by its capacity and its members. Word-wise intersection is intersection of the members.
-/

namespace FlowOpt

theorem le_wordBits (capacity : Nat) : capacity ≤ wordBits capacity := by
  unfold wordBits wordCount
  omega

namespace BitSet

instance : Membership Nat BitSet := ⟨fun s n => s.contains n = true⟩

variable {s t : BitSet} {n m c : Nat}

/-- The bit of `n`, which may be at or beyond the capacity. -/
def bit (s : BitSet) (n : Nat) : Bool := (s.wordAt (n / 64)).getLsbD (n % 64)

theorem lt_wordBits_iff (s : BitSet) (n : Nat) :
    n < wordBits s.capacity ↔ n / 64 < s.words.length := by
  rw [s.length_words, wordBits]
  omega

theorem lt_wordBits_of_bit (h : s.bit n = true) : n < wordBits s.capacity := by
  rw [lt_wordBits_iff]
  by_contra hn
  rw [bit, wordAt, List.getElem?_eq_none (by omega)] at h
  simp at h

theorem bit_eq (h : n / 64 < s.words.length) : s.bit n = (s.words[n / 64]).getLsbD (n % 64) := by
  simp [bit, wordAt, h]

theorem bit_place {i k : Nat} (hi : i < s.words.length) (hk : k < 64) :
    s.bit (64 * i + k) = (s.words[i]).getLsbD k := by
  have hplace : (64 * i + k) / 64 = i ∧ (64 * i + k) % 64 = k := by omega
  simp [bit, wordAt, hplace, hi]

theorem ext_bit (hc : s.capacity = t.capacity) (hb : ∀ n, s.bit n = t.bit n) : s = t := by
  obtain ⟨c, words, hlength⟩ := s
  obtain ⟨c', words', hlength'⟩ := t
  obtain rfl : c = c' := hc
  suffices h : words = words' by subst h; rfl
  apply List.ext_getElem (hlength.trans hlength'.symm)
  intro i hi hi'
  apply BitVec.eq_of_getLsbD_eq
  intro k hk
  exact (bit_place hi hk).symm.trans ((hb _).trans (bit_place hi' hk))

theorem locate_of_lt (h : n < s.capacity) :
    s.locate n = some (n / 64, BitVec.twoPow 64 (n % 64)) := if_pos h

theorem locate_of_not_lt (h : ¬ n < s.capacity) : s.locate n = none := if_neg h

theorem contains_eq (s : BitSet) (n : Nat) :
    s.contains n = (decide (n < s.capacity) && s.bit n) := by
  unfold contains
  by_cases h : n < s.capacity
  · rw [locate_of_lt h, Bool.eq_iff_iff]
    simp [h, bit, and_twoPow_eq_zero]
  · simp [locate_of_not_lt h, h]

theorem mem_iff_contains : n ∈ s ↔ s.contains n = true := Iff.rfl

theorem mem_iff_bit : n ∈ s ↔ n < s.capacity ∧ s.bit n = true := by
  simp [mem_iff_contains, contains_eq]

theorem lt_capacity_of_mem (h : n ∈ s) : n < s.capacity := (mem_iff_bit.1 h).1

instance : Decidable (n ∈ s) := inferInstanceAs (Decidable (s.contains n = true))

/-- No bit is set at or beyond the capacity. -/
def Tidy (s : BitSet) : Prop := ∀ n, s.bit n = true → n < s.capacity

theorem Tidy.mem_iff (h : s.Tidy) : n ∈ s ↔ s.bit n = true := by
  rw [mem_iff_bit]
  exact ⟨And.right, fun hb => ⟨h n hb, hb⟩⟩

theorem Tidy.ext (hs : s.Tidy) (ht : t.Tidy) (hc : s.capacity = t.capacity)
    (hm : ∀ n, n ∈ s ↔ n ∈ t) : s = t := by
  refine ext_bit hc fun n => ?_
  rw [Bool.eq_iff_iff, ← hs.mem_iff, ← ht.mem_iff]
  exact hm n

@[simp] theorem capacity_empty (c : Nat) : (empty c).capacity = c := rfl

@[simp] theorem capacity_add (s : BitSet) (n : Nat) : (s.add n).capacity = s.capacity := rfl

@[simp] theorem capacity_inter (s t : BitSet) : (s.inter t).capacity = s.capacity := rfl

@[simp] theorem bit_empty (c n : Nat) : (empty c).bit n = false := by
  have hword : (empty c).wordAt (n / 64) = 0#64 := by
    rw [wordAt, empty, List.getElem?_replicate]
    split <;> rfl
  rw [bit, hword, BitVec.getLsbD_zero]

theorem getLsbD_tailMask {used i : Nat} (h : used < 64) :
    (BitVec.allOnes 64 &&& (BitVec.twoPow 64 used - 1#64)).getLsbD i = decide (i < used) := by
  have hpow : 2 ^ used < 2 ^ 64 := Nat.pow_lt_pow_right Nat.one_lt_two h
  have hpos : 0 < 2 ^ used := Nat.two_pow_pos used
  have hmask : (BitVec.twoPow 64 used - 1#64).toNat = 2 ^ used - 1 := by
    rw [BitVec.toNat_sub, BitVec.toNat_twoPow, BitVec.toNat_ofNat]
    omega
  rw [BitVec.allOnes_and]
  change (BitVec.twoPow 64 used - 1#64).toNat.testBit i = _
  rw [hmask, Nat.testBit_two_pow_sub_one]

/-- All words are full but the last one, where the capacity ends inside it. -/
theorem wordAt_full (c i : Nat) : (full c).wordAt i =
    if i < c / 64 then BitVec.allOnes 64
    else if i = c / 64 ∧ c % 64 ≠ 0 then
      BitVec.allOnes 64 &&& (BitVec.twoPow 64 (c % 64) - 1#64)
    else 0#64 := by
  have hwords : (full c).words =
      clearTail c (List.replicate (wordCount c) (BitVec.allOnes 64)) := rfl
  have hcount : wordCount c = if c % 64 = 0 then c / 64 else c / 64 + 1 := by
    unfold wordCount
    split <;> omega
  rw [wordAt, hwords, clearTail]
  split
  · next hz =>
    rw [if_pos hz] at hcount
    rw [List.getElem?_replicate, hcount]
    split <;> simp [hz]
  · next hz =>
    rw [if_neg hz] at hcount
    rw [List.getElem?_modify, List.length_replicate, List.getElem?_replicate, hcount,
      Nat.add_sub_cancel]
    rcases Nat.lt_trichotomy i (c / 64) with hi | rfl | hi
    · have hne : c / 64 ≠ i := by omega
      have hlt : i < c / 64 + 1 := by omega
      rw [if_pos hi, if_pos hlt]
      simp only [if_neg hne]
      rfl
    · rw [if_neg (Nat.lt_irrefl _), if_pos (Nat.lt_succ_self _), if_pos ⟨rfl, hz⟩]
      simp only [if_true]
      rfl
    · rw [if_neg (by omega), if_neg (by omega), if_neg (by omega)]
      rfl

@[simp] theorem bit_full (c n : Nat) : (full c).bit n = decide (n < c) := by
  have hk : n % 64 < 64 := Nat.mod_lt _ (by decide)
  rw [bit, wordAt_full]
  split
  · next hn =>
    have hlt : n < c := by omega
    rw [BitVec.getLsbD_allOnes, decide_eq_true hk, decide_eq_true hlt]
  · split
    · next hn =>
      rw [getLsbD_tailMask (Nat.mod_lt _ (by decide)), decide_eq_decide]
      omega
    · next hn =>
      have hge : ¬ n < c := by omega
      rw [BitVec.getLsbD_zero, decide_eq_false hge]

@[simp] theorem not_mem_empty (c n : Nat) : ¬ n ∈ empty c := by
  simp [mem_iff_bit]

theorem tidy_empty (c : Nat) : (empty c).Tidy := by
  intro n h
  simp at h

section Update

variable {change : Word → Word → Word}

/-- Only the bits in the word of `n` can change, and only with its mask. -/
theorem bit_update (hn : n < s.capacity) : (s.update n change).bit m =
    if m / 64 = n / 64 then
      (change (s.wordAt (m / 64)) (BitVec.twoPow 64 (n % 64))).getLsbD (m % 64)
    else s.bit m := by
  have hword : n / 64 < s.words.length :=
    (lt_wordBits_iff s n).1 (hn.trans_le (le_wordBits _))
  have hwords : (s.update n change).words =
      s.words.modify (n / 64) (change · (BitVec.twoPow 64 (n % 64))) := by
    simp only [update, locate_of_lt hn]
  rw [bit, wordAt, hwords, List.getElem?_modify]
  split
  · next heq =>
    rw [if_pos heq.symm, wordAt, ← heq]
    simp [hword]
  · next hne =>
    rw [if_neg (Ne.symm hne), bit, wordAt]
    simp

theorem update_of_not_lt (hn : ¬ n < s.capacity) : s.update n change = s := by
  refine ext_bit rfl fun m => ?_
  have hwords : (s.update n change).words = s.words := by
    simp only [update, locate_of_not_lt hn]
  rw [bit, wordAt, hwords, bit, wordAt]

theorem eq_iff_place (m n : Nat) : m = n ↔ m / 64 = n / 64 ∧ m % 64 = n % 64 := by omega

theorem getLsbD_mask (m n : Nat) :
    (BitVec.twoPow 64 (n % 64)).getLsbD (m % 64) = decide (m % 64 = n % 64) := by
  have hlt : n % 64 < 64 := Nat.mod_lt _ (by decide)
  rw [BitVec.getLsbD_twoPow, decide_eq_true hlt, Bool.true_and, decide_eq_decide]
  exact eq_comm

theorem bit_add : (s.add n).bit m = true ↔ s.bit m = true ∨ (m = n ∧ n < s.capacity) := by
  unfold add
  by_cases hn : n < s.capacity
  · rw [bit_update hn, eq_iff_place m n]
    split
    · next heq =>
      rw [BitVec.getLsbD_or, getLsbD_mask]
      simp [heq, hn, bit]
    · next hne => simp [hne]
  · simp [update_of_not_lt hn, hn]

theorem bit_drop : (s.drop n).bit m = true ↔ s.bit m = true ∧ ¬ (m = n ∧ n < s.capacity) := by
  unfold drop
  by_cases hn : n < s.capacity
  · rw [bit_update hn, eq_iff_place m n]
    split
    · next heq =>
      have hlt : m % 64 < 64 := Nat.mod_lt _ (by decide)
      rw [BitVec.getLsbD_and, BitVec.getLsbD_not, getLsbD_mask]
      simp [heq, hn, hlt, bit]
    · next hne => simp [hne]
  · simp [update_of_not_lt hn, hn]

end Update

@[simp] theorem mem_add : m ∈ s.add n ↔ m ∈ s ∨ (m = n ∧ n < s.capacity) := by
  rw [mem_iff_bit, bit_add, capacity_add, mem_iff_bit]
  constructor
  · rintro ⟨hm, h | h⟩
    · exact .inl ⟨hm, h⟩
    · exact .inr h
  · rintro (⟨hm, h⟩ | ⟨rfl, hn⟩)
    · exact ⟨hm, .inl h⟩
    · exact ⟨hn, .inr ⟨rfl, hn⟩⟩

theorem Tidy.add (h : s.Tidy) (n : Nat) : (s.add n).Tidy := by
  intro m hm
  rcases bit_add.1 hm with hb | ⟨rfl, hn⟩
  · exact h m hb
  · exact hn

section Combine

variable {op : Word → Word → Word}

/-- Bits are combined in the words that both sets have; the others stay. -/
theorem bit_combine (hm : m < wordBits s.capacity) : (s.combine t op).1.bit m =
    if m < wordBits t.capacity then (op (s.wordAt (m / 64)) (t.wordAt (m / 64))).getLsbD (m % 64)
    else s.bit m := by
  have hs : m / 64 < s.words.length := (lt_wordBits_iff s m).1 hm
  rw [bit, wordAt, combine, getElem?_combineWords]
  split
  · next ht =>
    rw [lt_wordBits_iff] at ht
    simp [wordAt, hs, ht]
  · next ht =>
    rw [lt_wordBits_iff, not_lt] at ht
    simp [bit, wordAt, hs, List.getElem?_eq_none ht]

theorem combine_snd : (s.combine t op).2 = true ↔ (s.combine t op).1 ≠ s := by
  have hsnd : (s.combine t op).2 = ((s.combine t op).1.words != s.words) := combineWords_snd
  rw [hsnd, bne_iff_ne]
  refine not_congr ⟨fun h => ?_, fun h => congrArg words h⟩
  refine ext_bit rfl fun n => ?_
  rw [bit, bit, wordAt, wordAt, h]

end Combine

/-- Members in the words that `t` lacks stay. -/
theorem bit_inter : (s.inter t).bit m = true ↔
    s.bit m = true ∧ (m < wordBits t.capacity → t.bit m = true) := by
  by_cases hm : m < wordBits s.capacity
  · rw [inter, intersectWith, bit_combine hm]
    split
    · next ht => simp [ht, bit]
    · next ht => simp [ht]
  · have hs : ¬ s.bit m = true := fun h => hm (lt_wordBits_of_bit h)
    have hinter : ¬ (s.inter t).bit m = true := fun h =>
      hm (lt_wordBits_of_bit (s := s.inter t) h)
    simp [hs, hinter]

/-- Members of `t` in the words that `s` lacks are left out. -/
theorem bit_union : (s.union t).bit m = true ↔
    s.bit m = true ∨ (t.bit m = true ∧ m < wordBits s.capacity) := by
  by_cases hm : m < wordBits s.capacity
  · rw [union, unionWith, bit_combine hm]
    split
    · simp [hm, bit]
    · next ht =>
      have ht : ¬ t.bit m = true := fun h => ht (lt_wordBits_of_bit h)
      simp [ht]
  · have hs : ¬ s.bit m = true := fun h => hm (lt_wordBits_of_bit h)
    have hunion : ¬ (s.union t).bit m = true := fun h =>
      hm (lt_wordBits_of_bit (s := s.union t) h)
    simp [hs, hunion, hm]

theorem isSubset_iff : s.isSubset t = true ↔
    ∀ n, s.bit n = true → n < wordBits t.capacity → t.bit n = true := by
  simp only [isSubset, List.all_eq_true, beq_iff_eq, and_not_eq_zero]
  constructor
  · intro h n hn ht
    have hs := (lt_wordBits_iff s n).1 (lt_wordBits_of_bit hn)
    rw [lt_wordBits_iff] at ht
    have hzip : (s.words[n / 64], t.words[n / 64]) ∈ s.words.zip t.words := by
      rw [← List.getElem_zip (h := by rw [List.length_zip]; omega)]
      exact List.getElem_mem _
    rw [bit_eq hs] at hn
    rw [bit_eq ht]
    exact h _ hzip _ hn
  · intro h p hp k hk
    obtain ⟨i, hi, rfl⟩ := List.mem_iff_getElem.1 hp
    rw [List.length_zip] at hi
    have hs : i < s.words.length := by omega
    have ht : i < t.words.length := by omega
    have hlt := BitVec.lt_of_getLsbD hk
    rw [List.getElem_zip] at hk ⊢
    rw [← bit_place hs hlt] at hk
    rw [← bit_place ht hlt]
    exact h _ hk ((lt_wordBits_iff t _).2 (by omega))

theorem isEmpty_iff : s.isEmpty = true ↔ ∀ n, s.bit n = false := by
  rw [isEmpty, List.all_eq_true]
  constructor
  · intro h n
    by_contra hn
    have hn : s.bit n = true := by simpa using hn
    have hlt := (lt_wordBits_iff s n).1 (lt_wordBits_of_bit hn)
    have hzero := beq_iff_eq.1 (h _ (List.getElem_mem hlt))
    rw [bit_eq hlt, hzero] at hn
    simp at hn
  · intro h word hword
    obtain ⟨i, hi, rfl⟩ := List.mem_iff_getElem.1 hword
    rw [beq_iff_eq]
    apply BitVec.eq_of_getLsbD_eq
    intro k hk
    rw [← bit_place hi hk, h, BitVec.getLsbD_zero]

theorem mem_inter (hc : s.capacity = t.capacity) : m ∈ s.inter t ↔ m ∈ s ∧ m ∈ t := by
  rw [mem_iff_bit, bit_inter, mem_iff_bit, mem_iff_bit, capacity_inter]
  constructor
  · rintro ⟨hm, hs, ht⟩
    exact ⟨⟨hm, hs⟩, hc ▸ hm, ht ((hc ▸ hm).trans_le (le_wordBits _))⟩
  · rintro ⟨⟨hm, hs⟩, _, ht⟩
    exact ⟨hm, hs, fun _ => ht⟩

theorem Tidy.inter (h : s.Tidy) : (s.inter t).Tidy := fun m hm => h m (bit_inter.1 hm).1

theorem insert_fst (s : BitSet) (n : Nat) : (s.insert n).1 = s.add n := rfl

/-- A number is new to a set if the set could hold it and does not. -/
theorem insert_snd : (s.insert n).2 = true ↔ n < s.capacity ∧ ¬ n ∈ s := by
  rw [mem_iff_bit, insert]
  by_cases h : n < s.capacity
  · simp [locate_of_lt h, h, bit, and_twoPow_eq_zero]
  · simp [locate_of_not_lt h, h]

theorem capacity_foldl_add (l : List Nat) (s : BitSet) :
    (l.foldl add s).capacity = s.capacity :=
  List.foldlRecOn (motive := fun t : BitSet => t.capacity = s.capacity) l add rfl fun _ h _ _ => h

theorem mem_foldl_add (l : List Nat) (s : BitSet) :
    m ∈ l.foldl add s ↔ m ∈ s ∨ (m ∈ l ∧ m < s.capacity) := by
  induction l generalizing s with
  | nil => simp
  | cons n l ih =>
    rw [List.foldl_cons, ih, mem_add, capacity_add, List.mem_cons]
    constructor
    · rintro ((h | ⟨rfl, hn⟩) | ⟨hm, hc⟩)
      · exact .inl h
      · exact .inr ⟨.inl rfl, hn⟩
      · exact .inr ⟨.inr hm, hc⟩
    · rintro (h | ⟨rfl | hm, hc⟩)
      · exact .inl (.inl h)
      · exact .inl (.inr ⟨rfl, hc⟩)
      · exact .inr ⟨hm, hc⟩

theorem tidy_foldl_add (l : List Nat) (h : s.Tidy) : (l.foldl add s).Tidy :=
  List.foldlRecOn (motive := Tidy) l add h fun _ h n _ => h.add n

@[simp] theorem capacity_ofList (c : Nat) (l : List Nat) : (ofList c l).capacity = c :=
  capacity_foldl_add l (empty c)

@[simp] theorem mem_ofList {l : List Nat} : m ∈ ofList c l ↔ m ∈ l ∧ m < c := by
  rw [ofList, mem_foldl_add]
  simp

theorem tidy_ofList (c : Nat) (l : List Nat) : (ofList c l).Tidy :=
  tidy_foldl_add l (tidy_empty c)

section Members

theorem mem_members_iff_bit : n ∈ s.members ↔ s.bit n = true := by
  simp only [members, List.mem_flatMap, List.mem_map, Prod.exists, List.mem_zipIdx_iff_getElem?]
  constructor
  · rintro ⟨word, i, hword, k, hk, rfl⟩
    rw [mem_lowestFirst (by omega)] at hk
    obtain ⟨hi, rfl⟩ := List.getElem?_eq_some_iff.1 hword
    rwa [bit_place hi (BitVec.lt_of_getLsbD hk)]
  · intro h
    have hlt : n / 64 < s.words.length := (lt_wordBits_iff s n).1 (lt_wordBits_of_bit h)
    refine ⟨s.words[n / 64], n / 64, List.getElem?_eq_getElem hlt, n % 64, ?_, by omega⟩
    rwa [mem_lowestFirst (by omega), ← bit_eq hlt]

theorem pairwise_members (s : BitSet) : s.members.Pairwise (· < ·) := by
  refine List.pairwise_flatMap.2 ⟨fun ⟨word, i⟩ _ => ?_, ?_⟩
  · refine List.pairwise_map.2 ((pairwise_lowestFirst 64 word).imp fun h => ?_)
    omega
  · have hplaces : s.words.zipIdx.Pairwise fun a b => a.2 < b.2 := by
      refine List.pairwise_map.1 ?_
      rw [List.zipIdx_map_snd]
      exact List.pairwise_lt_range'
    refine hplaces.imp ?_
    rintro ⟨word, i⟩ ⟨other, j⟩ hlt n hn m hm
    obtain ⟨k, hk, rfl⟩ := List.mem_map.1 hn
    obtain ⟨l, -, rfl⟩ := List.mem_map.1 hm
    have hk := BitVec.lt_of_getLsbD (getLsbD_of_mem_lowestFirst hk)
    have hlt : i < j := hlt
    omega

theorem nodup_members (s : BitSet) : s.members.Nodup := (pairwise_members s).imp Nat.ne_of_lt

theorem size_eq (s : BitSet) : s.size = s.members.length := by
  have hfold : ∀ (words : List Word) (i n : Nat),
      words.foldl (fun n word => n + word.cpop.toNat) n =
        n + ((words.zipIdx i).flatMap fun place =>
          (lowestFirst 64 place.1).map (64 * place.2 + ·)).length := by
    intro words
    induction words with
    | nil => intro i n; rfl
    | cons word words ih =>
      intro i n
      rw [List.foldl_cons, ih (i + 1), List.zipIdx_cons, List.flatMap_cons, List.length_append,
        List.length_map, toNat_cpop_eq, Nat.add_assoc]
  exact (hfold s.words 0 0).trans (Nat.zero_add _)

theorem Tidy.mem_members (h : s.Tidy) : n ∈ s.members ↔ n ∈ s := by
  rw [mem_members_iff_bit, h.mem_iff]

@[simp] theorem members_empty (c : Nat) : (empty c).members = [] :=
  List.eq_nil_iff_forall_not_mem.2 fun n hn => by simp [mem_members_iff_bit] at hn

end Members

theorem Tidy.size_le (h : s.Tidy) : s.size ≤ s.capacity := by
  have hsub : s.members ⊆ List.range s.capacity := fun n hn =>
    List.mem_range.2 (lt_capacity_of_mem (h.mem_members.1 hn))
  simpa [size_eq] using (s.nodup_members.subperm hsub).length_le

theorem Tidy.size_le_size (hs : s.Tidy) (ht : t.Tidy) (hm : ∀ n, n ∈ s → n ∈ t) :
    s.size ≤ t.size := by
  rw [size_eq, size_eq]
  exact (s.nodup_members.subperm fun n hn =>
    ht.mem_members.2 (hm n (hs.mem_members.1 hn))).length_le

theorem Tidy.size_lt_size (hs : s.Tidy) (ht : t.Tidy) (hm : ∀ n, n ∈ s → n ∈ t)
    (hn : n ∈ t) (hns : ¬ n ∈ s) : s.size < t.size := by
  have hnot : n ∉ s.members := fun h => hns (hs.mem_members.1 h)
  have hcons : (n :: s.members).Nodup := List.nodup_cons.2 ⟨hnot, s.nodup_members⟩
  rw [size_eq, size_eq]
  refine Nat.lt_of_succ_le (hcons.subperm (fun k hk => ?_)).length_le
  rcases List.mem_cons.1 hk with rfl | hk
  · exact ht.mem_members.2 hn
  · exact ht.mem_members.2 (hm k (hs.mem_members.1 hk))

end BitSet

end FlowOpt
