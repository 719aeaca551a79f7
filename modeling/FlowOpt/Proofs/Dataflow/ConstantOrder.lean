import FlowOpt.Proofs.Dataflow.Facts
import FlowOpt.Proofs.Dataflow.Least

/-!
# Constants settle

Of a variable nothing is said at first, then that it is a constant, then that it is none. Joining
what is said of it gives the least that both allow, where constants that compare equal are one. So
the analysis of constants is monotone, each of its facts rises at most twice, and its runs end,
provided that no constant differs from itself.
-/

namespace FlowOpt

instance : PartialEquivBEq Fact where
  symm {f f'} h := by
    change Fact.equal f f' = true at h
    change Fact.equal f' f = true
    cases f <;> cases f' <;> first | exact h | exact PartialEquivBEq.symm h
  trans {f f' f''} h h' := by
    change Fact.equal f f' = true at h
    change Fact.equal f' f'' = true at h'
    change Fact.equal f f'' = true
    cases f <;> cases f' <;>
      first | exact h' | cases h | cases f'' <;> first | exact PartialEquivBEq.trans h h' | cases h'

namespace Fact

def OfConstants : Fact → Prop
  | .const c => (c == c) = true
  | .notConst => True
  | _ => False

/-- The first says no more of a variable than the second. -/
def Below : Option Fact → Option Fact → Prop
  | none, _ => True
  | some _, none => False
  | some f, some f' => f' = .notConst ∨ (f == f') = true

variable {f f' : Fact} {o o' o'' : Option Fact}

theorem notConst_beq_iff : (notConst == f) = true ↔ f = .notConst := by
  constructor
  · intro h
    cases f with
    | notConst => rfl
    | _ => cases h
  · rintro rfl
    rfl

theorem OfConstants.not_nan (h : f.OfConstants) : f.isNaN = false := by
  cases f with
  | const c =>
    cases c with
    | float x =>
      have hx : Binary64.equal x x = true := h
      simp only [Binary64.equal, Bool.and_eq_true, Bool.not_eq_true'] at hx
      exact hx.1.1.1
    | _ => rfl
  | _ => rfl

theorem Below.of_beq (h : (f == f') = true) : Below (some f) (some f') := .inr h

theorem Below.trans (h : Below o o') (h' : Below o' o'') : Below o o'' := by
  cases o with
  | none => trivial
  | some f =>
    cases o' with
    | none => cases h
    | some f' =>
      cases o'' with
      | none => cases h'
      | some f'' =>
        rcases h' with rfl | h'
        · exact .inl rfl
        · rcases h with rfl | h
          · exact .inl (notConst_beq_iff.1 h')
          · exact .inr (PartialEquivBEq.trans h h')

theorem merged_below_iff : Below (merged o o') o'' ↔ Below o o'' ∧ Below o' o'' := by
  cases o with
  | none => exact ⟨fun h => ⟨trivial, h⟩, And.right⟩
  | some f =>
    cases o' with
    | none => exact ⟨fun h => ⟨h, trivial⟩, And.left⟩
    | some f' =>
      cases o'' with
      | none => exact ⟨False.elim, And.left⟩
      | some f'' =>
        change (f'' = .notConst ∨ _) ↔ (f'' = .notConst ∨ _) ∧ (f'' = .notConst ∨ _)
        rw [← or_and_left]
        refine or_congr_right' fun hconst => ?_
        split
        · next heq =>
          refine ⟨fun h => ⟨h, ?_⟩, And.left⟩
          exact PartialEquivBEq.trans (PartialEquivBEq.symm heq) h
        · next hne =>
          refine ⟨fun h => absurd (notConst_beq_iff.1 h) hconst, fun h => absurd ?_ hne⟩
          exact PartialEquivBEq.trans h.1 (PartialEquivBEq.symm h.2)

theorem OfConstants.merged (h : ∀ f, o = some f → f.OfConstants)
    (h' : ∀ f, o' = some f → f.OfConstants) : ∀ f, Fact.merged o o' = some f → f.OfConstants := by
  intro f hf
  cases o with
  | none => exact h' f hf
  | some old =>
    cases o' with
    | none => exact h f hf
    | some fact =>
      obtain rfl := Option.some.inj hf
      split
      · exact h old rfl
      · trivial

def room : Option Fact → Nat
  | none => 2
  | some .notConst => 0
  | some _ => 1

theorem room_le (h : Below o o') : room o' ≤ room o := by
  cases o with
  | none =>
    cases o' with
    | none => exact le_rfl
    | some f => cases f <;> simp [room]
  | some f =>
    cases o' with
    | none => cases h
    | some f' =>
      rcases h with rfl | h
      · exact Nat.zero_le _
      · cases f <;> cases f' <;> first | exact le_rfl | cases h

theorem room_lt (hm : ∀ f, o = some f → f.OfConstants) (hle : Below o o')
    (hnot : ¬ Below o' o) : room o' < room o := by
  cases o' with
  | none => exact absurd trivial hnot
  | some f' =>
    cases o with
    | none => cases f' <;> simp [room]
    | some f =>
      have hback : ¬ (f = .notConst ∨ (f' == f) = true) := hnot
      rcases hle with rfl | hle
      · have hf := hm f rfl
        cases f with
        | const c => exact Nat.zero_lt_one
        | notConst => exact absurd (.inl rfl) hback
        | _ => cases hf
      · exact absurd (.inr (PartialEquivBEq.symm hle)) hback

end Fact

namespace NameMap

variable {β : Type} [BEq β]

theorem beq_of_lookup {l l' : List (String × β)} (hkeys : l.map (·.1) = l'.map (·.1))
    (hn : (l.map (·.1)).Nodup)
    (h : ∀ x a a', l.lookup x = some a → l'.lookup x = some a' → (a == a') = true) :
    (l == l') = true := by
  induction l generalizing l' with
  | nil =>
    cases l' with
    | nil => rfl
    | cons e' l' => cases hkeys
  | cons e l ih =>
    cases l' with
    | nil => cases hkeys
    | cons e' l' =>
      rw [List.map_cons, List.map_cons, List.cons.injEq] at hkeys
      rw [List.map_cons, List.nodup_cons] at hn
      obtain ⟨hkey, hkeys⟩ := hkeys
      have hhead : (e.2 == e'.2) = true := by
        refine h e.1 e.2 e'.2 ?_ ?_
        · exact (lookup_cons_eq_ite e.1 e.1 e.2 l).trans (if_pos rfl)
        · exact (lookup_cons_eq_ite e'.1 e.1 e'.2 l').trans (if_pos hkey)
      refine cons_beq_cons_iff.2 ⟨hkey, hhead, ih hkeys hn.2 fun x a a' ha ha' => ?_⟩
      -- A name of the rest is not that of the head.
      have hne : x ≠ e.1 := by
        rintro rfl
        obtain ⟨before, behind, hl, -⟩ := List.lookup_eq_some_iff.1 ha
        exact hn.1 (List.mem_map.2 ⟨(e.1, a), hl ▸ by simp, rfl⟩)
      apply h x a a'
      · rw [lookup_cons_eq_ite e.1 x e.2, if_neg hne, ha]
      · rw [lookup_cons_eq_ite e'.1 x e'.2, if_neg (hkey ▸ hne), ha']

theorem beq_of_get? {m n : NameMap β} (hkeys : ∀ x, m.contains x = true ↔ n.contains x = true)
    (h : ∀ x a a', m.get? x = some a → n.get? x = some a' → (a == a') = true) :
    (m == n) = true := by
  refine beq_of_lookup ?_ m.nodup_keys h
  have hsorted : ∀ m : NameMap β, m.keys.Pairwise (· < ·) := fun m => List.pairwise_map.2 m.inOrder
  apply List.Pairwise.eq_of_mem_iff (hsorted m) (hsorted n)
  intro x
  rw [← contains_iff_mem_keys, ← contains_iff_mem_keys, hkeys]

end NameMap

namespace FactMap

variable {m n l : FactMap} {maps : List FactMap} {vars : List String}

def Below (m n : FactMap) : Prop := ∀ x, Fact.Below (m.get? x) (n.get? x)

def OfConstants (vars : List String) (m : FactMap) : Prop :=
  ∀ x f, m.get? x = some f → f.OfConstants ∧ x ∈ vars

theorem OfConstants.fact (h : OfConstants vars m) (x : String) :
    ∀ f, m.get? x = some f → f.OfConstants := fun f hf => (h x f hf).1

theorem OfConstants.nanFree (h : OfConstants vars m) : m.NaNFree := by
  rintro ⟨x, f⟩ he
  exact (h x f (NameMap.mem_entries_iff.1 he)).1.not_nan

theorem Below.trans (h : m.Below n) (h' : n.Below l) : m.Below l := fun x => (h x).trans (h' x)

theorem Below.of_beq (h : (m == n) = true) : m.Below n := by
  intro x
  cases hm : m.get? x with
  | none => trivial
  | some f =>
    obtain ⟨f', hf'⟩ := NameMap.contains_iff.1
      ((NameMap.contains_eq_of_beq h).1 (NameMap.contains_iff.2 ⟨f, hm⟩))
    obtain ⟨f₀, hf₀, hbeq⟩ := NameMap.lookup_of_beq h hf'
    obtain rfl := Option.some.inj (hm.symm.trans hf₀)
    rw [hf']
    exact .of_beq hbeq

theorem beq_symm (h : (m == n) = true) : (n == m) = true := by
  refine NameMap.beq_of_get? (fun x => (NameMap.contains_eq_of_beq h).symm) fun x a a' ha ha' => ?_
  obtain ⟨f, hf, hbeq⟩ := NameMap.lookup_of_beq h ha
  obtain rfl := Option.some.inj (ha'.symm.trans hf)
  exact PartialEquivBEq.symm hbeq

theorem beq_of_below (h : m.Below n) (h' : n.Below m) : (m == n) = true := by
  have hkeys : ∀ {m n : FactMap}, m.Below n → ∀ x, m.contains x = true → n.contains x = true := by
    intro m n h x hx
    obtain ⟨f, hf⟩ := NameMap.contains_iff.1 hx
    have hx := h x
    rw [hf] at hx
    cases hn : n.get? x with
    | none =>
      rw [hn] at hx
      cases hx
    | some f' => exact NameMap.contains_iff.2 ⟨f', hn⟩
  refine NameMap.beq_of_get? (fun x => ⟨hkeys h x, hkeys h' x⟩) fun x f f' hf hf' => ?_
  have hle := h x
  have hge := h' x
  rw [hf, hf'] at hle hge
  rcases hle with rfl | hle
  · rcases hge with rfl | hge
    · rfl
    · exact PartialEquivBEq.symm hge
  · exact hle

theorem join_below_iff : (m.join n).Below l ↔ m.Below l ∧ n.Below l := by
  rw [Below, Below, Below, ← forall_and]
  refine forall_congr' fun x => ?_
  rw [get?_join, Fact.merged_below_iff]

theorem foldl_join_below_iff :
    (maps.foldl FactMap.join m).Below l ↔ m.Below l ∧ ∀ n ∈ maps, n.Below l := by
  induction maps generalizing m with
  | nil => simp
  | cons n maps ih => rw [List.foldl_cons, ih, join_below_iff, List.forall_mem_cons, and_assoc]

theorem empty_below (m : FactMap) : Below {} m := fun x => by
  rw [NameMap.get?_default]
  trivial

/-- Merging gives the least mapping that says no less than any that flows in. -/
theorem merge_below_iff :
    (constantPropagation.merge maps).Below l ↔ ∀ m ∈ maps, m.Below l :=
  foldl_join_below_iff.trans (and_iff_right (empty_below l))

theorem OfConstants.join (hm : OfConstants vars m) (hn : OfConstants vars n) :
    OfConstants vars (m.join n) := by
  intro x f hf
  rw [get?_join] at hf
  refine ⟨Fact.OfConstants.merged (hm.fact x) (hn.fact x) f hf, ?_⟩
  cases hx : m.get? x with
  | some f' => exact (hm x f' hx).2
  | none =>
    rw [hx] at hf
    exact (hn x f hf).2

theorem OfConstants.merge (h : ∀ m ∈ maps, OfConstants vars m) :
    OfConstants vars (constantPropagation.merge maps) :=
  List.foldlRecOn (motive := OfConstants vars) maps FactMap.join
    (fun x f hf => by simp at hf) fun _ hm n hn => hm.join (h n hn)

end FactMap

def constantOrder (vars : List String) : FactOrder where
  Dom := FactMap.OfConstants vars
  le := FactMap.Below
  nanFree hm := hm.nanFree
  empty x f hf := by simp at hf
  empty_le {m} _ := FactMap.empty_below m
  trans _ _ _ := FactMap.Below.trans
  beq_iff _ _ := ⟨fun h => ⟨.of_beq h, .of_beq (FactMap.beq_symm h)⟩,
    fun h => FactMap.beq_of_below h.1 h.2⟩

def constantRoom (vars : List String) (m : FactMap) : Nat :=
  ∑ x ∈ vars.toFinset, Fact.room (m.get? x)

theorem constantRoom_lt {vars : List String} {m n : FactMap} (hm : m.OfConstants vars)
    (hn : n.OfConstants vars) (h : (constantOrder vars).lt m n) :
    constantRoom vars n < constantRoom vars m := by
  obtain ⟨x, hx⟩ := not_forall.1 h.2
  have hvar : x ∈ vars := by
    cases hf : n.get? x with
    | some f => exact (hn x f hf).2
    | none =>
      rw [hf] at hx
      exact absurd trivial hx
  apply Finset.sum_lt_sum
  · exact fun y _ => Fact.room_le (h.1 y)
  · exact ⟨x, List.mem_toFinset.2 hvar, Fact.room_lt (hm.fact x) (h.1 x) hx⟩

end FlowOpt
