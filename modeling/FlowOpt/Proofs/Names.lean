import Mathlib
import FlowOpt.Names

/-!
# What maps hold and which names are free

Looking up a name finds what was put in last under it. The entries of a map are just what can be
looked up, each name once. A name with a fresh index is not in use, provided that different indices
give different names.
-/

namespace FlowOpt

namespace NameMap

variable {β γ : Type} {m : NameMap β} {x key : String} {a b value : β}

@[ext] theorem ext_entries {m n : NameMap β} (h : m.entries = n.entries) : m = n := by
  cases m
  cases n
  congr

@[simp] theorem get?_empty (x : String) : (empty : NameMap β).get? x = none := rfl

@[simp] theorem get?_default (x : String) : ({} : NameMap β).get? x = none := rfl

/-- Lists of entries compare equal if the names are the same and the rest compares equal. -/
theorem cons_beq_cons_iff [BEq β] {e e' : String × β} {l l' : List (String × β)} :
    (e :: l == e' :: l') = true ↔ e.1 = e'.1 ∧ (e.2 == e'.2) = true ∧ (l == l') = true := by
  have hentry : (e == e') = (e.1 == e'.1 && e.2 == e'.2) := rfl
  rw [List.cons_beq_cons, hentry, Bool.and_eq_true, Bool.and_eq_true, beq_iff_eq, and_assoc]

theorem lookup_cons_eq_ite (key x : String) (value : β) (l : List (String × β)) :
    ((key, value) :: l).lookup x = if x = key then some value else l.lookup x := by
  rw [List.lookup_cons]
  by_cases h : x = key
  · rw [beq_iff_eq.2 h, if_pos h]
  · rw [beq_eq_false_iff_ne.2 h, if_neg h]

theorem lookup_insertEntry (key x : String) (value : β) (l : List (String × β)) :
    (insertEntry key value l).lookup x = if x = key then some value else l.lookup x := by
  induction l with
  | nil => exact lookup_cons_eq_ite key x value []
  | cons e l ih =>
    obtain ⟨k, v⟩ := e
    unfold insertEntry
    by_cases hlt : key < k
    · rw [if_pos hlt, lookup_cons_eq_ite]
    · rw [if_neg hlt]
      by_cases heq : key = k
      · subst heq
        rw [if_pos rfl, lookup_cons_eq_ite, lookup_cons_eq_ite]
        split <;> rfl
      · rw [if_neg heq, lookup_cons_eq_ite, lookup_cons_eq_ite, ih]
        by_cases hk : x = k
        · rw [if_pos hk, if_pos hk, if_neg fun h => heq (h.symm.trans hk)]
        · rw [if_neg hk, if_neg hk]

@[simp] theorem get?_insert (m : NameMap β) (key x : String) (value : β) :
    (m.insert key value).get? x = if x = key then some value else m.get? x :=
  lookup_insertEntry key x value m.entries

theorem mem_entries_iff : (x, a) ∈ m.entries ↔ m.get? x = some a := by
  rw [get?, List.lookup_eq_some_iff]
  constructor
  · intro h
    obtain ⟨l, r, hl⟩ := List.append_of_mem h
    refine ⟨l, r, hl, fun p hp => ?_⟩
    have horder : InOrder (l ++ (x, a) :: r) := hl ▸ m.inOrder
    have hlt : p.1 < x := (List.pairwise_append.1 horder).2.2 p hp _ List.mem_cons_self
    exact bne_iff_ne.2 fun h => String.lt_irrefl x (h ▸ hlt)
  · rintro ⟨l, r, hl, _⟩
    simp [hl]

theorem mem_keys_iff : x ∈ m.keys ↔ ∃ a, m.get? x = some a := by
  unfold keys
  rw [List.mem_map]
  constructor
  · rintro ⟨⟨k, a⟩, he, rfl⟩
    exact ⟨a, mem_entries_iff.1 he⟩
  · rintro ⟨a, ha⟩
    exact ⟨(x, a), mem_entries_iff.2 ha, rfl⟩

theorem nodup_keys (m : NameMap β) : m.keys.Nodup := by
  unfold keys List.Nodup
  rw [List.pairwise_map]
  have horder : m.entries.Pairwise fun e f => e.1 < f.1 := m.inOrder
  refine horder.imp fun {e f} h => ?_
  intro heq
  exact String.lt_irrefl f.1 (heq ▸ h)

theorem contains_iff : m.contains x = true ↔ ∃ a, m.get? x = some a := by
  rw [contains, Option.isSome_iff_exists]

theorem get?_insertAll (m : NameMap β) (entries : List (String × β)) (x : String) :
    (m.insertAll entries).get? x = (entries.reverse.lookup x).or (m.get? x) := by
  unfold insertAll
  induction entries generalizing m with
  | nil => rfl
  | cons e entries ih =>
    rw [List.foldl_cons, ih, get?_insert, List.reverse_cons, List.lookup_append]
    rw [Option.or_assoc, lookup_cons_eq_ite e.1 x e.2]
    split <;> rfl

theorem get?_ofList (entries : List (String × β)) (x : String) :
    (ofList entries).get? x = entries.reverse.lookup x := by
  rw [ofList, get?_insertAll, get?_empty, Option.or_none]

theorem mem_of_get?_ofList {entries : List (String × β)} (h : (ofList entries).get? x = some a) :
    (x, a) ∈ entries := by
  rw [get?_ofList, List.lookup_eq_some_iff] at h
  obtain ⟨l, r, hl, -⟩ := h
  exact List.mem_reverse.1 (hl ▸ by simp)

theorem lookup_eq_some_of_mem {entries : List (String × β)} (hn : (entries.map (·.1)).Nodup)
    (h : (x, a) ∈ entries) : entries.lookup x = some a := by
  rw [List.lookup_eq_some_iff]
  obtain ⟨l, r, hl⟩ := List.append_of_mem h
  refine ⟨l, r, hl, fun p hp => bne_iff_ne.2 fun heq => ?_⟩
  rw [hl, List.map_append, List.map_cons, List.nodup_append] at hn
  exact hn.2.2 p.1 (List.mem_map.2 ⟨p, hp, rfl⟩) x List.mem_cons_self heq.symm

theorem get?_ofList_iff {entries : List (String × β)} (hn : (entries.map (·.1)).Nodup) :
    (ofList entries).get? x = some a ↔ (x, a) ∈ entries := by
  refine ⟨mem_of_get?_ofList, fun h => ?_⟩
  have hr : (entries.reverse.map (·.1)).Nodup := by
    rw [List.map_reverse, List.nodup_reverse]
    exact hn
  rw [get?_ofList]
  exact lookup_eq_some_of_mem hr (List.mem_reverse.2 h)

theorem get?_insertAll_entries (m n : NameMap β) (x : String) :
    (m.insertAll n.entries).get? x = (n.get? x).or (m.get? x) := by
  have hlookup : n.entries.reverse.lookup x = n.get? x := by
    ext a
    rw [← get?_ofList, get?_ofList_iff n.nodup_keys, mem_entries_iff]
  rw [get?_insertAll, hlookup]

theorem contains_insertAll {entries : List (String × β)} : (m.insertAll entries).contains x = true ↔
    m.contains x = true ∨ x ∈ entries.map (·.1) := by
  induction entries generalizing m with
  | nil => simp [insertAll]
  | cons e entries ih =>
    have hstep : m.insertAll (e :: entries) = (m.insert e.1 e.2).insertAll entries := rfl
    rw [hstep, ih, List.map_cons, List.mem_cons, ← or_assoc]
    refine or_congr_left ?_
    rw [contains_iff, contains_iff, get?_insert]
    by_cases h : x = e.1 <;> simp [h]

theorem get?_insertAll_map (m : NameMap β) (keys : List String) (f : String → β) (x : String) :
    (m.insertAll (keys.map fun y => (y, f y))).get? x =
      if x ∈ keys then some (f x) else m.get? x := by
  induction keys generalizing m with
  | nil => rfl
  | cons key keys ih =>
    have hstep : m.insertAll ((key :: keys).map fun y => (y, f y)) =
        (m.insert key (f key)).insertAll (keys.map fun y => (y, f y)) := rfl
    rw [hstep, ih, get?_insert]
    by_cases hx : x = key
    · simp [hx]
    · simp [hx]

theorem get?_filter_key (p : String → Bool) (m : NameMap β) (x : String) :
    (m.filter fun y _ => p y).get? x = if p x then m.get? x else none := by
  ext a
  rw [← mem_entries_iff]
  split
  · next h => simp [filter, h, mem_entries_iff]
  · next h => simp [filter, h]

@[simp] theorem get?_map (f : String → β → γ) (m : NameMap β) (x : String) :
    (m.map f).get? x = (m.get? x).map (f x) := by
  ext c
  rw [← mem_entries_iff, Option.map_eq_some_iff]
  simp only [map, List.mem_map, Prod.mk.injEq, Prod.exists]
  constructor
  · rintro ⟨y, a, ha, rfl, rfl⟩
    exact ⟨a, mem_entries_iff.1 ha, rfl⟩
  · rintro ⟨a, ha, rfl⟩
    exact ⟨x, a, mem_entries_iff.2 ha, rfl, rfl⟩

theorem ext_get? {m n : NameMap β} (h : ∀ x, m.get? x = n.get? x) : m = n := by
  have hstrict : ∀ m : NameMap β, m.entries.Pairwise fun e f => e.1 < f.1 := fun m => m.inOrder
  have hnodup : ∀ m : NameMap β, m.entries.Nodup := fun m => List.Nodup.of_map _ m.nodup_keys
  have hperm : m.entries.Perm n.entries := by
    refine (List.perm_ext_iff_of_nodup (hnodup m) (hnodup n)).2 fun e => ?_
    rw [mem_entries_iff, mem_entries_iff, h]
  apply ext_entries
  refine hperm.eq_of_pairwise (fun e f _ _ hlt hgt => ?_) (hstrict m) (hstrict n)
  exact absurd (String.lt_trans hlt hgt) (String.lt_irrefl _)

theorem contains_filter {p : String → β → Bool} : (m.filter p).contains x = true ↔
    ∃ a, m.get? x = some a ∧ p x a = true := by
  rw [contains_iff]
  refine exists_congr fun a => ?_
  rw [← mem_entries_iff, ← mem_entries_iff]
  exact List.mem_filter

end NameMap

variable {α : Type} [BEq α] [LawfulBEq α] {a : α} {l seen : List α}

theorem mem_foldl_distinct (l seen : List α) :
    a ∈ l.foldl (fun seen a => if seen.contains a then seen else seen ++ [a]) seen ↔
      a ∈ seen ∨ a ∈ l := by
  induction l generalizing seen with
  | nil => simp
  | cons b l ih =>
    rw [List.foldl_cons, ih, List.mem_cons, ← or_assoc]
    refine or_congr_left ?_
    by_cases hb : b ∈ seen
    · rw [if_pos (List.contains_iff_mem.2 hb)]
      exact ⟨.inl, fun h => h.elim id fun h => h ▸ hb⟩
    · rw [if_neg fun h => hb (List.contains_iff_mem.1 h), List.mem_append, List.mem_singleton]

theorem nodup_foldl_distinct (l : List α) (hseen : seen.Nodup) :
    (l.foldl (fun seen a => if seen.contains a then seen else seen ++ [a]) seen).Nodup := by
  refine List.foldlRecOn (motive := List.Nodup) l _ hseen fun seen hseen b _ => ?_
  by_cases hb : b ∈ seen
  · rwa [if_pos (List.contains_iff_mem.2 hb)]
  · rw [if_neg fun h => hb (List.contains_iff_mem.1 h)]
    exact hseen.append (List.nodup_singleton b) (by simpa using hb)

@[simp] theorem mem_distinct : a ∈ distinct l ↔ a ∈ l := by
  rw [distinct, mem_foldl_distinct]
  simp

theorem firstRepeat?_cons_of_mem (h : a ∈ seen) : firstRepeat? seen (a :: l) = some a :=
  if_pos (List.contains_iff_mem.2 h)

theorem firstRepeat?_cons_of_not_mem (h : a ∉ seen) :
    firstRepeat? seen (a :: l) = firstRepeat? (a :: seen) l :=
  if_neg fun hc => h (List.contains_iff_mem.1 hc)

theorem firstRepeat?_eq_none : firstRepeat? seen l = none ↔
    l.Nodup ∧ ∀ a ∈ l, a ∉ seen := by
  induction l generalizing seen with
  | nil => simp [firstRepeat?]
  | cons b l ih =>
    by_cases hb : b ∈ seen
    · rw [firstRepeat?_cons_of_mem hb]
      simp [hb]
    · rw [firstRepeat?_cons_of_not_mem hb, ih, List.nodup_cons]
      constructor
      · rintro ⟨hl, hn⟩
        refine ⟨⟨fun h => hn b h List.mem_cons_self, hl⟩, fun a ha => ?_⟩
        rcases List.mem_cons.1 ha with rfl | ha
        · exact hb
        · exact fun h => hn a ha (List.mem_cons_of_mem _ h)
      · rintro ⟨⟨hbl, hl⟩, hn⟩
        refine ⟨hl, fun a ha h => ?_⟩
        rcases List.mem_cons.1 h with rfl | h
        · exact hbl ha
        · exact hn a (List.mem_cons_of_mem _ ha) h

/-- The fresh index is the least one whose name is not in use: of more indices than there are names
in use one is free. -/
theorem freshIndex_least {name : Nat → String} (hn : ∀ i j, name i = name j → i = j)
    (used : List String) (start : Nat) : start ≤ freshIndex name used start ∧
      name (freshIndex name used start) ∉ used ∧
      ∀ i, start ≤ i → i < freshIndex name used start → name i ∈ used := by
  have hfree : ∃ i ∈ (List.range (used.length + 1)).map (start + ·), name i ∉ used := by
    by_contra hall
    push Not at hall
    have hnodup : (((List.range (used.length + 1)).map (start + ·)).map name).Nodup := by
      refine List.Nodup.map (fun i j h => hn i j h) ?_
      exact List.nodup_range.map fun i j h => Nat.add_left_cancel h
    have hsub : ((List.range (used.length + 1)).map (start + ·)).map name ⊆ used := by
      intro x hx
      obtain ⟨i, hi, rfl⟩ := List.mem_map.1 hx
      exact hall i hi
    have hle := (hnodup.subperm hsub).length_le
    simp at hle
  obtain ⟨i, hi, hnot⟩ := hfree
  unfold freshIndex
  cases hfind : ((List.range (used.length + 1)).map (start + ·)).find?
      fun n => !used.contains (name n) with
  | none =>
    have hused := List.find?_eq_none.1 hfind i hi
    simp [hnot] at hused
  | some j =>
    obtain ⟨hj, k, hk, rfl, hbefore⟩ := List.find?_eq_some_iff_getElem.1 hfind
    simp only [List.getElem_map, List.getElem_range, Option.getD_some] at hj hbefore ⊢
    refine ⟨Nat.le_add_right start k, by simpa using hj, fun i hle hlt => ?_⟩
    obtain ⟨d, rfl⟩ := Nat.exists_eq_add_of_le hle
    simpa using hbefore d (by omega)

theorem freshIndex_not_mem {name : Nat → String} (hn : ∀ i j, name i = name j → i = j)
    (used : List String) (start : Nat) : name (freshIndex name used start) ∉ used :=
  (freshIndex_least hn used start).2.1

theorem freshIndex_eq_of_least {name : Nat → String} (hn : ∀ i j, name i = name j → i = j)
    {used : List String} {start n : Nat} (hle : start ≤ n) (hfree : name n ∉ used)
    (hleast : ∀ i, start ≤ i → i < n → name i ∈ used) : freshIndex name used start = n := by
  obtain ⟨hle', hfree', hleast'⟩ := freshIndex_least hn used start
  rcases Nat.lt_trichotomy (freshIndex name used start) n with hlt | heq | hlt
  · exact absurd (hleast _ hle' hlt) hfree'
  · exact heq
  · exact absurd (hleast' _ hle hlt) hfree

theorem freshIndex_congr {name : Nat → String} (hn : ∀ i j, name i = name j → i = j)
    {used used' : List String} (h : ∀ i, name i ∈ used ↔ name i ∈ used') (start : Nat) :
    freshIndex name used start = freshIndex name used' start := by
  obtain ⟨hle, hfree, hleast⟩ := freshIndex_least hn used' start
  exact freshIndex_eq_of_least hn hle (mt (h _).1 hfree) fun i hs hlt => (h i).2 (hleast i hs hlt)

end FlowOpt
