import FlowOpt.Proofs.BitSet

/-!
# Sets of small numbers as sets of numbers

Whatever is done with a set of small numbers can be told from the numbers whose bits it has, which
may reach the end of the last word, and from its capacity. Where all capacities are one, no set ever has
a number at or beyond it, and the sets are finite sets of numbers with their usual operations. Both
are statements about any row of commands on a growing list of sets: one kind of set answers as
another does if each single operation agrees with its image.
-/

namespace FlowOpt.BitSet

/-! ## Commands -/

inductive Creation
  | empty (capacity : Nat)
  | full (capacity : Nat)
  | ofList (capacity : Nat) (nodes : List Nat)

inductive Change
  | insert (n : Nat)
  | remove (n : Nat)

inductive Combination
  | intersect
  | union

inductive Question
  | contains (n : Nat)
  | capacity
  | size
  | isEmpty
  | members

inductive Comparison
  | isSubset
  | equal

inductive Command
  | create (how : Creation)
  | copy (i : Nat)
  | change (i : Nat) (how : Change)
  | combine (i j : Nat) (how : Combination)
  | ask (i : Nat) (question : Question)
  | compare (i j : Nat) (how : Comparison)

inductive Reply
  | done
  | flag (b : Bool)
  | number (n : Nat)
  | numbers (l : List Nat)
  /-- There is no set at a place. -/
  | absent
  deriving DecidableEq

/-- A kind of set, by its operations. Changes tell what they report. -/
structure Kind (σ : Type) where
  create : Creation → σ
  change : Change → σ → σ × Bool
  combine : Combination → σ → σ → σ × Bool
  ask : Question → σ → Reply
  compare : Comparison → σ → σ → Bool

namespace Kind

variable {σ : Type} (kind : Kind σ)

def perform (sets : List σ) : Command → Reply × List σ
  | .create how => (.done, sets ++ [kind.create how])
  | .copy i =>
    match sets[i]? with
    | some s => (.done, sets ++ [s])
    | none => (.absent, sets)
  | .change i how =>
    match sets[i]? with
    | some s => (.flag (kind.change how s).2, sets.set i (kind.change how s).1)
    | none => (.absent, sets)
  | .combine i j how =>
    match sets[i]?, sets[j]? with
    | some s, some t => (.flag (kind.combine how s t).2, sets.set i (kind.combine how s t).1)
    | _, _ => (.absent, sets)
  | .ask i question =>
    match sets[i]? with
    | some s => (kind.ask question s, sets)
    | none => (.absent, sets)
  | .compare i j how =>
    match sets[i]?, sets[j]? with
    | some s, some t => (.flag (kind.compare how s t), sets)
    | _, _ => (.absent, sets)

def run : List Command → List σ → List Reply × List σ
  | [], sets => ([], sets)
  | command :: commands, sets =>
    let step := kind.perform sets command
    let rest := run commands step.2
    (step.1 :: rest.1, rest.2)

end Kind

def Creation.capacity : Creation → Nat
  | .empty capacity => capacity
  | .full capacity => capacity
  | .ofList capacity _ => capacity

def Command.Allowed (capacities : Nat → Prop) : Command → Prop
  | .create how => capacities how.capacity
  | _ => True

/-- Each operation of the one kind is seen as that of the other, on sets that are valid, and leaves
them valid. -/
structure SeenAs {σ τ : Type} (kind : Kind σ) (other : Kind τ) (view : σ → τ) (valid : σ → Prop)
    (capacities : Nat → Prop) : Prop where
  create : ∀ how, capacities how.capacity →
    valid (kind.create how) ∧ view (kind.create how) = other.create how
  change : ∀ how s, valid s → valid (kind.change how s).1 ∧
    (view (kind.change how s).1, (kind.change how s).2) = other.change how (view s)
  combine : ∀ how s t, valid s → valid t → valid (kind.combine how s t).1 ∧
    (view (kind.combine how s t).1, (kind.combine how s t).2) = other.combine how (view s) (view t)
  ask : ∀ question s, valid s → kind.ask question s = other.ask question (view s)
  compare : ∀ how s t, valid s → valid t →
    kind.compare how s t = other.compare how (view s) (view t)

section Runs

variable {σ τ : Type} {kind : Kind σ} {other : Kind τ} {view : σ → τ} {valid : σ → Prop}
  {capacities : Nat → Prop} {sets : List σ}

theorem SeenAs.perform (h : SeenAs kind other view valid capacities)
    (hvalid : ∀ s ∈ sets, valid s) {command : Command} (hc : command.Allowed capacities) :
    (∀ s ∈ (kind.perform sets command).2, valid s) ∧
      other.perform (sets.map view) command =
        ((kind.perform sets command).1, (kind.perform sets command).2.map view) := by
  have hat : ∀ {i s}, sets[i]? = some s → valid s := fun hs =>
    hvalid _ (List.mem_of_getElem? hs)
  -- A set put behind the others or in the place of one leaves all of them valid if it is valid.
  have happend : ∀ {s}, valid s → ∀ t ∈ sets ++ [s], valid t := fun hs =>
    List.forall_mem_append.2 ⟨hvalid, List.forall_mem_singleton.2 hs⟩
  have hset : ∀ {i s}, valid s → ∀ t ∈ sets.set i s, valid t := by
    intro i s hs t ht
    rcases List.mem_or_eq_of_mem_set ht with ht | rfl
    · exact hvalid t ht
    · exact hs
  cases command with
  | create how =>
    obtain ⟨hv, heq⟩ := h.create how hc
    exact ⟨happend hv, by simp [Kind.perform, heq]⟩
  | copy i =>
    cases hs : sets[i]? with
    | none => simpa [Kind.perform, hs] using hvalid
    | some s =>
      simp only [Kind.perform, hs]
      exact ⟨happend (hat hs), by simp [hs]⟩
  | change i how =>
    cases hs : sets[i]? with
    | none => simpa [Kind.perform, hs] using hvalid
    | some s =>
      obtain ⟨hv, heq⟩ := h.change how s (hat hs)
      simp only [Kind.perform, hs]
      exact ⟨hset hv, by simp [hs, ← heq, List.map_set]⟩
  | combine i j how =>
    cases hs : sets[i]? with
    | none => simpa [Kind.perform, hs] using hvalid
    | some s =>
      cases ht : sets[j]? with
      | none => simpa [Kind.perform, hs, ht] using hvalid
      | some t =>
        obtain ⟨hv, heq⟩ := h.combine how s t (hat hs) (hat ht)
        simp only [Kind.perform, hs, ht]
        exact ⟨hset hv, by simp [hs, ht, ← heq, List.map_set]⟩
  | ask i question =>
    cases hs : sets[i]? with
    | none => simpa [Kind.perform, hs] using hvalid
    | some s => simpa [Kind.perform, hs, h.ask question s (hat hs)] using hvalid
  | compare i j how =>
    cases hs : sets[i]? with
    | none => simpa [Kind.perform, hs] using hvalid
    | some s =>
      cases ht : sets[j]? with
      | none => simpa [Kind.perform, hs, ht] using hvalid
      | some t => simpa [Kind.perform, hs, ht, h.compare how s t (hat hs) (hat ht)] using hvalid

theorem SeenAs.run (h : SeenAs kind other view valid capacities) {commands : List Command}
    (hc : ∀ command ∈ commands, command.Allowed capacities) (hvalid : ∀ s ∈ sets, valid s) :
    (∀ s ∈ (kind.run commands sets).2, valid s) ∧
      other.run commands (sets.map view) =
        ((kind.run commands sets).1, (kind.run commands sets).2.map view) := by
  induction commands generalizing sets with
  | nil => exact ⟨hvalid, rfl⟩
  | cons command commands ih =>
    obtain ⟨hnext, hstep⟩ := h.perform hvalid (hc command List.mem_cons_self)
    obtain ⟨hend, hrest⟩ := ih (fun c hm => hc c (List.mem_cons_of_mem _ hm)) hnext
    refine ⟨hend, ?_⟩
    rw [Kind.run, hstep, hrest]
    rfl

end Runs

/-! ## The kinds -/

def byWords : Kind BitSet where
  create
    | .empty capacity => empty capacity
    | .full capacity => full capacity
    | .ofList capacity nodes => ofList capacity nodes
  change
    | .insert n, s => s.insert n
    | .remove n, s => s.remove n
  combine
    | .intersect, s, t => s.intersectWith t
    | .union, s, t => s.unionWith t
  ask
    | .contains n, s => .flag (s.contains n)
    | .capacity, s => .number s.capacity
    | .size, s => .number s.size
    | .isEmpty, s => .flag s.isEmpty
    | .members, s => .numbers s.members
  compare
    | .isSubset, s, t => s.isSubset t
    | .equal, s, t => s == t

@[ext]
structure Numbers where
  capacity : Nat
  members : Finset Nat
  lt_wordBits : ∀ n ∈ members, n < wordBits capacity
  deriving DecidableEq

namespace Numbers

variable (s t : Numbers)

def below (capacity : Nat) (members : Finset Nat) : Numbers where
  capacity := capacity
  members := members.filter (· < capacity)
  lt_wordBits _ hn := (Finset.mem_filter.1 hn).2.trans_le (le_wordBits _)

def insert (n : Nat) : Numbers where
  capacity := s.capacity
  members := if n < s.capacity then Insert.insert n s.members else s.members
  lt_wordBits k hk := by
    split at hk
    · next hn =>
      rcases Finset.mem_insert.1 hk with rfl | hk
      · exact hn.trans_le (le_wordBits _)
      · exact s.lt_wordBits k hk
    · exact s.lt_wordBits k hk

def remove (n : Nat) : Numbers where
  capacity := s.capacity
  members := if n < s.capacity then s.members.erase n else s.members
  lt_wordBits k hk := by
    split at hk
    · exact s.lt_wordBits k (Finset.mem_of_mem_erase hk)
    · exact s.lt_wordBits k hk

/-- What `t` lacks goes, as far as the words of `t` reach. -/
def inter : Numbers where
  capacity := s.capacity
  members := s.members.filter fun n => n < wordBits t.capacity → n ∈ t.members
  lt_wordBits n hn := s.lt_wordBits n (Finset.mem_filter.1 hn).1

/-- What `t` has comes, as far as the words of `s` reach. -/
def union : Numbers where
  capacity := s.capacity
  members := s.members ∪ t.members.filter (· < wordBits s.capacity)
  lt_wordBits n hn := by
    rcases Finset.mem_union.1 hn with hn | hn
    · exact s.lt_wordBits n hn
    · exact (Finset.mem_filter.1 hn).2

variable {s t : Numbers} {m n : Nat}

theorem mem_insert : m ∈ (s.insert n).members ↔ m ∈ s.members ∨ (m = n ∧ n < s.capacity) := by
  rw [insert]
  split
  · next hn => simp [hn, or_comm]
  · next hn => simp [hn]

theorem mem_remove : m ∈ (s.remove n).members ↔ m ∈ s.members ∧ ¬ (m = n ∧ n < s.capacity) := by
  rw [remove]
  split
  · next hn => simp [hn, and_comm]
  · next hn => simp [hn]

theorem mem_inter : m ∈ (s.inter t).members ↔
    m ∈ s.members ∧ (m < wordBits t.capacity → m ∈ t.members) := Finset.mem_filter

theorem mem_union : m ∈ (s.union t).members ↔
    m ∈ s.members ∨ (m ∈ t.members ∧ m < wordBits s.capacity) := by
  rw [union, Finset.mem_union, Finset.mem_filter]

def kind : Kind Numbers where
  create
    | .empty capacity => below capacity ∅
    | .full capacity => below capacity (Finset.range capacity)
    | .ofList capacity nodes => below capacity nodes.toFinset
  change
    | .insert n, s => (s.insert n, decide (n < s.capacity ∧ n ∉ s.members))
    | .remove n, s => (s.remove n, decide (n < s.capacity ∧ n ∈ s.members))
  combine
    | .intersect, s, t => (s.inter t, decide ((s.inter t).members ≠ s.members))
    | .union, s, t => (s.union t, decide ((s.union t).members ≠ s.members))
  ask
    | .contains n, s => .flag (decide (n < s.capacity ∧ n ∈ s.members))
    | .capacity, s => .number s.capacity
    | .size, s => .number s.members.card
    | .isEmpty, s => .flag (decide (s.members = ∅))
    | .members, s => .numbers (s.members.sort (· ≤ ·))
  compare
    | .isSubset, s, t => decide (∀ n ∈ s.members, n < wordBits t.capacity → n ∈ t.members)
    | .equal, s, t => decide (s.capacity = t.capacity ∧ s.members = t.members)

end Numbers

def finsets (capacity : Nat) : Kind (Finset Nat) where
  create
    | .empty _ => ∅
    | .full _ => Finset.range capacity
    | .ofList _ nodes => nodes.toFinset.filter (· < capacity)
  change
    | .insert n, s =>
      if n < capacity then (Insert.insert n s, decide (n ∉ s)) else (s, false)
    | .remove n, s => (s.erase n, decide (n ∈ s))
  combine
    | .intersect, s, t => (s ∩ t, decide (s ∩ t ≠ s))
    | .union, s, t => (s ∪ t, decide (s ∪ t ≠ s))
  ask
    | .contains n, s => .flag (decide (n ∈ s))
    | .capacity, _ => .number capacity
    | .size, s => .number s.card
    | .isEmpty, s => .flag (decide (s = ∅))
    | .members, s => .numbers (s.sort (· ≤ ·))
  compare
    | .isSubset, s, t => decide (s ⊆ t)
    | .equal, s, t => decide (s = t)

/-! ## What each kind is seen as -/

def numbers (s : BitSet) : Numbers where
  capacity := s.capacity
  members := (Finset.range (wordBits s.capacity)).filter (s.bit · = true)
  lt_wordBits _ hn := Finset.mem_range.1 (Finset.mem_filter.1 hn).1

variable {s t : BitSet} {n : Nat}

theorem mem_numbers : n ∈ s.numbers.members ↔ s.bit n = true := by
  rw [numbers, Finset.mem_filter, Finset.mem_range]
  exact ⟨And.right, fun h => ⟨lt_wordBits_of_bit h, h⟩⟩

theorem numbers_ext {M : Numbers} (hc : s.capacity = M.capacity)
    (hm : ∀ n, s.bit n = true ↔ n ∈ M.members) : s.numbers = M :=
  Numbers.ext hc (Finset.ext fun n => mem_numbers.trans (hm n))

theorem eq_iff_numbers : s = t ↔ s.numbers = t.numbers := by
  refine ⟨congrArg numbers, fun h => ext_bit (congrArg Numbers.capacity h) fun n => ?_⟩
  rw [Bool.eq_iff_iff, ← mem_numbers, ← mem_numbers, h]

theorem sort_numbers (s : BitSet) : s.numbers.members.sort (· ≤ ·) = s.members := by
  refine (Finset.sortedLT_sort _).pairwise.eq_of_mem_iff (pairwise_members s) fun n => ?_
  rw [Finset.mem_sort, mem_numbers, mem_members_iff_bit]

theorem numbers_create (how : Creation) :
    (byWords.create how).numbers = Numbers.kind.create how := by
  cases how with
  | empty c => exact numbers_ext rfl fun n => by simp [byWords, Numbers.kind, Numbers.below]
  | full c => exact numbers_ext rfl fun n => by simp [byWords, Numbers.kind, Numbers.below]
  | ofList c nodes =>
    refine numbers_ext (capacity_ofList c nodes) fun n => ?_
    rw [byWords, ← (tidy_ofList c nodes).mem_iff]
    simp [Numbers.kind, Numbers.below]

theorem numbers_add (s : BitSet) (n : Nat) : (s.add n).numbers = s.numbers.insert n :=
  numbers_ext rfl fun m => by rw [bit_add, Numbers.mem_insert, mem_numbers]; rfl

theorem numbers_drop (s : BitSet) (n : Nat) : (s.drop n).numbers = s.numbers.remove n :=
  numbers_ext rfl fun m => by rw [bit_drop, Numbers.mem_remove, mem_numbers]; rfl

theorem numbers_inter (s t : BitSet) : (s.inter t).numbers = s.numbers.inter t.numbers :=
  numbers_ext rfl fun m => by rw [bit_inter, Numbers.mem_inter, mem_numbers, mem_numbers]; rfl

theorem numbers_union (s t : BitSet) : (s.union t).numbers = s.numbers.union t.numbers :=
  numbers_ext rfl fun m => by rw [bit_union, Numbers.mem_union, mem_numbers, mem_numbers]; rfl

theorem numbers_change (how : Change) (s : BitSet) :
    ((byWords.change how s).1.numbers, (byWords.change how s).2) =
      Numbers.kind.change how s.numbers := by
  cases how with
  | insert n =>
    refine Prod.ext (numbers_add s n) ?_
    change (s.insert n).2 = decide (n < s.capacity ∧ n ∉ s.numbers.members)
    rw [Bool.eq_iff_iff, insert_snd, decide_eq_true_iff, mem_iff_bit, mem_numbers]
    exact and_congr_right fun hn => not_congr (and_iff_right hn)
  | remove n =>
    refine Prod.ext (numbers_drop s n) ?_
    change s.contains n = decide (n < s.capacity ∧ n ∈ s.numbers.members)
    rw [Bool.eq_iff_iff, decide_eq_true_iff, mem_numbers]
    exact mem_iff_bit

/-- Sets combined word by word have changed if their numbers have: the capacity stays. -/
theorem combine_changed (s t : BitSet) (op : Word → Word → Word) : (s.combine t op).2 =
    decide ((s.combine t op).1.numbers.members ≠ s.numbers.members) := by
  rw [Bool.eq_iff_iff, combine_snd, decide_eq_true_iff]
  refine not_congr (eq_iff_numbers.trans ⟨congrArg Numbers.members, fun h => ?_⟩)
  exact Numbers.ext rfl h

theorem numbers_combine (how : Combination) (s t : BitSet) :
    ((byWords.combine how s t).1.numbers, (byWords.combine how s t).2) =
      Numbers.kind.combine how s.numbers t.numbers := by
  cases how with
  | intersect =>
    change ((s.inter t).numbers, (s.intersectWith t).2) =
      (s.numbers.inter t.numbers, decide ((s.numbers.inter t.numbers).members ≠ _))
    rw [intersectWith, combine_changed, ← numbers_inter]
    rfl
  | union =>
    change ((s.union t).numbers, (s.unionWith t).2) =
      (s.numbers.union t.numbers, decide ((s.numbers.union t.numbers).members ≠ _))
    rw [unionWith, combine_changed, ← numbers_union]
    rfl

theorem numbers_ask (question : Question) (s : BitSet) :
    byWords.ask question s = Numbers.kind.ask question s.numbers := by
  cases question with
  | contains n =>
    refine congrArg Reply.flag ?_
    rw [Bool.eq_iff_iff, decide_eq_true_iff, mem_numbers]
    exact mem_iff_bit
  | capacity => rfl
  | size =>
    refine congrArg Reply.number ?_
    rw [size_eq, ← sort_numbers, Finset.length_sort]
  | isEmpty =>
    refine congrArg Reply.flag ?_
    rw [Bool.eq_iff_iff, decide_eq_true_iff, isEmpty_iff, Finset.eq_empty_iff_forall_notMem]
    simp only [mem_numbers, Bool.not_eq_true]
  | members => exact congrArg Reply.numbers (sort_numbers s).symm

theorem numbers_compare (how : Comparison) (s t : BitSet) :
    byWords.compare how s t = Numbers.kind.compare how s.numbers t.numbers := by
  cases how with
  | isSubset =>
    change s.isSubset t = decide (∀ n ∈ s.numbers.members, n < wordBits t.capacity →
      n ∈ t.numbers.members)
    rw [Bool.eq_iff_iff, isSubset_iff, decide_eq_true_iff]
    simp only [mem_numbers]
  | equal =>
    change (s == t) = decide (s.capacity = t.capacity ∧ s.numbers.members = t.numbers.members)
    rw [Bool.eq_iff_iff, beq_iff_eq, eq_iff_numbers, decide_eq_true_iff]
    exact Numbers.ext_iff

theorem byWords_seenAs_numbers :
    SeenAs byWords Numbers.kind numbers (fun _ => True) (fun _ => True) where
  create how _ := ⟨trivial, numbers_create how⟩
  change how s _ := ⟨trivial, numbers_change how s⟩
  combine how s t _ _ := ⟨trivial, numbers_combine how s t⟩
  ask question s _ := numbers_ask question s
  compare how s t _ _ := numbers_compare how s t

/-- The numbers of a set that was made with the capacity `c`, all of them below it. -/
structure Numbers.Within (c : Nat) (s : Numbers) : Prop where
  capacity : s.capacity = c
  lt : ∀ n ∈ s.members, n < c

namespace Numbers.Within

variable {c n : Nat} {s t : Numbers}

theorem create (how : Creation) (h : how.capacity = c) : (kind.create how).Within c ∧
    (kind.create how).members = (finsets c).create how := by
  subst h
  cases how with
  | empty c => exact ⟨⟨rfl, by simp [kind, below]⟩, by simp [kind, below, finsets]⟩
  | full c =>
    refine ⟨⟨rfl, by simp [kind, below, Creation.capacity]⟩, Finset.ext fun n => ?_⟩
    simp [kind, below, finsets, Creation.capacity]
  | ofList c nodes =>
    refine ⟨⟨rfl, by simp [kind, below, Creation.capacity]⟩, rfl⟩

theorem lt_wordBits (h : s.Within c) (hn : n ∈ s.members) : n < wordBits c :=
  (h.lt n hn).trans_le (le_wordBits c)

theorem insert (h : s.Within c) (n : Nat) : (s.insert n).Within c where
  capacity := h.capacity
  lt m hm := by
    rcases mem_insert.1 hm with hm | ⟨rfl, hlt⟩
    · exact h.lt m hm
    · exact h.capacity ▸ hlt

theorem change (h : s.Within c) (how : Change) : (kind.change how s).1.Within c ∧
    ((kind.change how s).1.members, (kind.change how s).2) = (finsets c).change how s.members := by
  cases how with
  | insert n =>
    refine ⟨h.insert n, ?_⟩
    simp only [kind, finsets, Numbers.insert, h.capacity]
    split
    · next hn => simp [hn]
    · next hn => simp [hn]
  | remove n =>
    refine ⟨⟨h.capacity, fun m hm => h.lt m (mem_remove.1 hm).1⟩, Prod.ext ?_ ?_⟩
    · refine Finset.ext fun m => mem_remove.trans ?_
      rw [finsets, Finset.mem_erase, h.capacity, and_comm]
      exact and_congr_left fun hm => not_congr ⟨And.left, fun heq => ⟨heq, heq ▸ h.lt m hm⟩⟩
    · simp only [kind, finsets, decide_eq_decide, h.capacity]
      exact ⟨And.right, fun hn => ⟨h.lt n hn, hn⟩⟩

theorem inter_members (hs : s.Within c) (ht : t.Within c) :
    (s.inter t).members = s.members ∩ t.members := by
  refine Finset.ext fun n => ?_
  rw [mem_inter, Finset.mem_inter, ht.capacity]
  exact and_congr_right fun hn => ⟨fun h => h (hs.lt_wordBits hn), fun h _ => h⟩

theorem union_members (hs : s.Within c) (ht : t.Within c) :
    (s.union t).members = s.members ∪ t.members := by
  refine Finset.ext fun n => ?_
  rw [mem_union, Finset.mem_union, hs.capacity]
  exact or_congr_right ⟨And.left, fun hn => ⟨hn, ht.lt_wordBits hn⟩⟩

theorem combine (hs : s.Within c) (ht : t.Within c) (how : Combination) :
    (kind.combine how s t).1.Within c ∧
      ((kind.combine how s t).1.members, (kind.combine how s t).2) =
        (finsets c).combine how s.members t.members := by
  cases how with
  | intersect =>
    refine ⟨⟨hs.capacity, fun n hn => hs.lt n (mem_inter.1 hn).1⟩, ?_⟩
    simp only [kind, finsets, hs.inter_members ht]
  | union =>
    refine ⟨⟨hs.capacity, fun n hn => ?_⟩, ?_⟩
    · rcases mem_union.1 hn with hn | ⟨hn, -⟩
      · exact hs.lt n hn
      · exact ht.lt n hn
    · simp only [kind, finsets, hs.union_members ht]

theorem ask (h : s.Within c) (question : Question) :
    kind.ask question s = (finsets c).ask question s.members := by
  cases question with
  | contains n =>
    simp only [kind, finsets, h.capacity, Reply.flag.injEq, decide_eq_decide]
    exact ⟨And.right, fun hn => ⟨h.lt n hn, hn⟩⟩
  | capacity => exact congrArg Reply.number h.capacity
  | size => rfl
  | isEmpty => rfl
  | members => rfl

theorem compare (hs : s.Within c) (ht : t.Within c) (how : Comparison) :
    kind.compare how s t = (finsets c).compare how s.members t.members := by
  cases how with
  | isSubset =>
    simp only [kind, finsets, ht.capacity, decide_eq_decide]
    exact ⟨fun h n hn => h n hn (hs.lt_wordBits hn), fun h n hn _ => h hn⟩
  | equal =>
    simp only [kind, finsets, hs.capacity, ht.capacity, true_and]

end Numbers.Within

theorem numbers_seenAs_finsets (c : Nat) :
    SeenAs Numbers.kind (finsets c) Numbers.members (Numbers.Within c) (· = c) where
  create how hc := Numbers.Within.create how hc
  change how _ hs := hs.change how
  combine how _ _ hs ht := hs.combine ht how
  ask question _ hs := hs.ask question
  compare how _ _ hs ht := hs.compare ht how

/-- Whatever is done with sets of any capacities, they answer as their numbers do. If all are made
with one capacity, they answer as finite sets do, and all their numbers stay below it. -/
theorem run_refines (commands : List Command) :
    Numbers.kind.run commands [] =
      ((byWords.run commands []).1, (byWords.run commands []).2.map numbers) ∧
    ∀ c, (∀ command ∈ commands, command.Allowed (· = c)) →
      (finsets c).run commands [] =
        ((byWords.run commands []).1, (byWords.run commands []).2.map (·.numbers.members)) ∧
      ∀ s ∈ (byWords.run commands []).2, s.capacity = c ∧ ∀ n ∈ s.numbers.members, n < c := by
  have hany : ∀ command ∈ commands, command.Allowed fun _ => True := fun command _ => by
    cases command <;> trivial
  obtain ⟨-, hnumbers⟩ := byWords_seenAs_numbers.run hany (List.forall_mem_nil _)
  refine ⟨hnumbers, fun c hc => ?_⟩
  obtain ⟨hwithin, hfinsets⟩ := (numbers_seenAs_finsets c).run hc (List.forall_mem_nil _)
  rw [List.map_nil] at hnumbers hfinsets
  rw [hnumbers] at hwithin hfinsets
  refine ⟨?_, fun s hs => ?_⟩
  · rw [hfinsets, List.map_map]
    rfl
  · have hs := hwithin s.numbers (List.mem_map_of_mem hs)
    exact ⟨hs.capacity, hs.lt⟩

/-- The union is cut at the words of the first set, not at its capacity. -/
example : (byWords.run [.create (.empty 10), .create (.full 70), .combine 0 1 .union, .ask 0 .size,
    .ask 0 (.contains 20), .compare 0 1 .isSubset] []).1 =
    [.done, .done, .flag true, .number 64, .flag false, .flag true] := by
  decide +kernel

end FlowOpt.BitSet
