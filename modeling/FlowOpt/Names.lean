/-!
# Names

Lists of names without repetition, names that are not yet taken, and maps from names. A map keeps
its entries in the order of their names, so two maps with the same entries are equal.
-/

namespace FlowOpt

/-- The elements of a list, each where it stands first. -/
def distinct {α : Type} [BEq α] (l : List α) : List α :=
  l.foldl (fun seen a => if seen.contains a then seen else seen ++ [a]) []

/-- The first element that stands in the list a second time. -/
def firstRepeat? {α : Type} [BEq α] : List α → List α → Option α
  | _, [] => none
  | seen, a :: rest => if seen.contains a then some a else firstRepeat? (a :: seen) rest

/-- The least index from `start` on whose name is not in use. -/
def freshIndex (name : Nat → String) (used : List String) (start : Nat) : Nat :=
  (((List.range (used.length + 1)).map (start + ·)).find? fun n => !used.contains (name n)).getD
    start

/-- A name put into a list that is sorted and has no repetition. -/
def insertName (name : String) : List String → List String
  | [] => [name]
  | a :: rest =>
    if name < a then name :: a :: rest
    else if name = a then a :: rest
    else a :: insertName name rest

def sortedNames (names : List String) : List String :=
  names.foldl (fun sorted name => insertName name sorted) []

def insertEntry {β : Type} (key : String) (value : β) : List (String × β) → List (String × β)
  | [] => [(key, value)]
  | (k, v) :: rest =>
    if key < k then (key, value) :: (k, v) :: rest
    else if key = k then (key, value) :: rest
    else (k, v) :: insertEntry key value rest

theorem mem_insertEntry {β : Type} {key : String} {value : β} {p : String × β} :
    ∀ {l : List (String × β)}, p ∈ insertEntry key value l → p = (key, value) ∨ p ∈ l
  | [], h => by simpa [insertEntry] using h
  | (k, v) :: rest, h => by
    unfold insertEntry at h
    split at h
    · simpa using h
    · split at h
      · rcases List.mem_cons.1 h with h | h
        · exact .inl h
        · exact .inr (List.mem_cons_of_mem _ h)
      · rcases List.mem_cons.1 h with h | h
        · exact .inr (h ▸ List.mem_cons_self)
        · rcases mem_insertEntry h with h | h
          · exact .inl h
          · exact .inr (List.mem_cons_of_mem _ h)

/-- The entries stand in strict order of their names. -/
def InOrder {β : Type} (entries : List (String × β)) : Prop :=
  entries.Pairwise fun a b => a.1 < b.1

theorem inOrder_insertEntry {β : Type} {key : String} {value : β} :
    ∀ {l : List (String × β)}, InOrder l → InOrder (insertEntry key value l)
  | [], _ => by simp [insertEntry, InOrder]
  | (k, v) :: rest, h => by
    have hk : ∀ p ∈ rest, k < p.1 := (List.pairwise_cons.1 h).1
    have hr : InOrder rest := (List.pairwise_cons.1 h).2
    unfold insertEntry
    split
    · next hlt =>
      refine List.pairwise_cons.2 ⟨fun p hp => ?_, h⟩
      rcases List.mem_cons.1 hp with rfl | hp
      · exact hlt
      · exact String.lt_trans hlt (hk p hp)
    · split
      · next heq => exact List.pairwise_cons.2 ⟨fun p hp => heq ▸ hk p hp, hr⟩
      · next hlt hne =>
        have hgt : k < key := by
          rcases Decidable.em (k < key) with h | h
          · exact h
          · exact absurd (String.le_antisymm (String.not_lt.1 h) (String.not_lt.1 hlt)) hne
        refine List.pairwise_cons.2 ⟨fun p hp => ?_, inOrder_insertEntry hr⟩
        rcases mem_insertEntry hp with rfl | hp
        · exact hgt
        · exact hk p hp

structure NameMap (β : Type) where
  entries : List (String × β)
  inOrder : InOrder entries
  deriving DecidableEq

namespace NameMap

variable {β γ : Type}

def empty : NameMap β := ⟨[], List.Pairwise.nil⟩

instance : EmptyCollection (NameMap β) := ⟨empty⟩

instance : Inhabited (NameMap β) := ⟨empty⟩

def equal [BEq β] (m n : NameMap β) : Bool := m.entries == n.entries

instance [BEq β] : BEq (NameMap β) := ⟨equal⟩

def isEmpty (m : NameMap β) : Bool := m.entries.isEmpty

def get? (m : NameMap β) (key : String) : Option β := m.entries.lookup key

def contains (m : NameMap β) (key : String) : Bool := (m.get? key).isSome

def keys (m : NameMap β) : List String := m.entries.map (·.1)

def insert (m : NameMap β) (key : String) (value : β) : NameMap β :=
  ⟨insertEntry key value m.entries, inOrder_insertEntry m.inOrder⟩

def filter (p : String → β → Bool) (m : NameMap β) : NameMap β :=
  ⟨m.entries.filter fun e => p e.1 e.2, m.inOrder.filter _⟩

def map (f : String → β → γ) (m : NameMap β) : NameMap γ where
  entries := m.entries.map fun e => (e.1, f e.1 e.2)
  inOrder := by
    unfold InOrder
    rw [List.pairwise_map]
    exact m.inOrder

/-- Later entries replace earlier ones of the same name. -/
def insertAll (m : NameMap β) (entries : List (String × β)) : NameMap β :=
  entries.foldl (fun m e => m.insert e.1 e.2) m

def ofList (entries : List (String × β)) : NameMap β := empty.insertAll entries

end NameMap

end FlowOpt
