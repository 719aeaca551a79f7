/-!
# Sets of small numbers

A set over the numbers below `capacity` keeps a bit for every number, in words of 64 bits. A set of
the right size keeps below its capacity, and where sets of different sizes meet only the words that
both have are combined or compared.
-/

namespace FlowOpt

abbrev Word := BitVec 64

/-- The words that `capacity` members need. -/
def wordCount (capacity : Nat) : Nat := (capacity + 63) / 64

/-- The bits in these words. -/
def wordBits (capacity : Nat) : Nat := 64 * wordCount capacity

structure BitSet where
  capacity : Nat
  words : List Word
  length_words : words.length = wordCount capacity
  deriving DecidableEq

namespace BitSet

def empty (capacity : Nat) : BitSet :=
  ⟨capacity, List.replicate (wordCount capacity) 0#64, List.length_replicate⟩

/-- The last word without its bits at and beyond the capacity. -/
def clearTail (capacity : Nat) (words : List Word) : List Word :=
  if capacity % 64 = 0 then words
  else words.modify (words.length - 1) (· &&& (BitVec.twoPow 64 (capacity % 64) - 1#64))

theorem length_clearTail (capacity : Nat) (words : List Word) :
    (clearTail capacity words).length = words.length := by
  unfold clearTail
  split
  · rfl
  · exact List.length_modify ..

def full (capacity : Nat) : BitSet where
  capacity := capacity
  words := clearTail capacity (List.replicate (wordCount capacity) (BitVec.allOnes 64))
  length_words := (length_clearTail ..).trans List.length_replicate

variable (s t : BitSet)

/-- The place of a number below the capacity: its word, and the mask of its bit there. -/
def locate (n : Nat) : Option (Nat × Word) :=
  if n < s.capacity then some (n / 64, BitVec.twoPow 64 (n % 64)) else none

def wordAt (i : Nat) : Word := s.words[i]?.getD 0#64

/-- Whether `n` is a member below the capacity. -/
def contains (n : Nat) : Bool := (s.locate n).any fun (i, mask) => s.wordAt i &&& mask != 0#64

/-- The set with the word of `n` changed by its mask. Nothing at or beyond the capacity is
changed. -/
def update (n : Nat) (change : Word → Word → Word) : BitSet where
  capacity := s.capacity
  words := match s.locate n with
    | some (i, mask) => s.words.modify i (change · mask)
    | none => s.words
  length_words := by
    split
    · rw [List.length_modify, s.length_words]
    · exact s.length_words

def add (n : Nat) : BitSet := s.update n fun word mask => word ||| mask

def drop (n : Nat) : BitSet := s.update n fun word mask => word &&& ~~~mask

/-- The set with `n`, and whether `n` is new to it. -/
def insert (n : Nat) : BitSet × Bool :=
  (s.add n, (s.locate n).any fun (i, mask) => s.wordAt i &&& mask == 0#64)

/-- The set without `n`, and whether it had `n`. -/
def remove (n : Nat) : BitSet × Bool := (s.drop n, s.contains n)

/-- Words combined as far as both lists have some, the rest as it is, and whether a word differs
from what it was. -/
def combineWords (op : Word → Word → Word) : List Word → List Word → List Word × Bool
  | word :: words, other :: others =>
    let next := op word other
    let (rest, changed) := combineWords op words others
    (next :: rest, next != word || changed)
  | words, _ => (words, false)

theorem length_combineWords (op : Word → Word → Word) (words others : List Word) :
    (combineWords op words others).1.length = words.length := by
  induction words generalizing others with
  | nil => cases others <;> rfl
  | cons word words ih =>
    cases others with
    | nil => rfl
    | cons other others => exact congrArg (· + 1) (ih others)

def combine (op : Word → Word → Word) : BitSet × Bool :=
  let r := combineWords op s.words t.words
  (⟨s.capacity, r.1, (length_combineWords ..).trans s.length_words⟩, r.2)

/-- The intersection, and whether it differs from `s`. Members in the words that `t` lacks stay. -/
def intersectWith : BitSet × Bool := s.combine t fun word other => word &&& other

/-- The union, and whether it differs from `s`. Members of `t` in the words that `s` lacks are left
out. -/
def unionWith : BitSet × Bool := s.combine t fun word other => word ||| other

def inter : BitSet := (s.intersectWith t).1

def union : BitSet := (s.unionWith t).1

/-- Whether `t` has every member of `s` in the words that both have. -/
def isSubset : Bool := (s.words.zip t.words).all fun (word, other) => word &&& ~~~other == 0#64

/-- The numbers of the bits in a word, which are `fuel` at most: the lowest one, then those that are
left when it is cleared. -/
def lowestFirst : Nat → Word → List Nat
  | 0, _ => []
  | fuel + 1, word =>
    if word = 0#64 then []
    else word.ctz.toNat :: lowestFirst fuel (word &&& (word - 1#64))

/-- The members in ascending order. -/
def members : List Nat :=
  s.words.zipIdx.flatMap fun place => (lowestFirst 64 place.1).map (64 * place.2 + ·)

def size : Nat := s.words.foldl (fun n word => n + word.cpop.toNat) 0

def isEmpty : Bool := s.words.all (· == 0#64)

def ofList (capacity : Nat) (nodes : List Nat) : BitSet := nodes.foldl add (empty capacity)

def render : String :=
  "\x7b" ++ ", ".intercalate (s.members.map fun n => "NodeId(" ++ toString n ++ ")") ++ "\x7d"

end BitSet

end FlowOpt
