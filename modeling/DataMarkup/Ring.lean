/-! Bounded queues in a ring of slots. The items lie in a window that starts at `head`, has `count`
slots and may wrap around the end of the storage; all other slots are empty. -/

namespace DataMarkup

/-- The number of slots is a power of two, so that a position wraps around by the `mask`. -/
structure Ring (α : Type) where
  slots : Array (Option α)
  head : Nat
  tail : Nat
  count : Nat
  mask : Nat
  deriving DecidableEq

namespace Ring

def leastPowerOfTwo (n : Nat) : Nat := if n ≤ 1 then 1 else 1 <<< ((n - 1).log2 + 1)

theorem isPowerOfTwo_leastPowerOfTwo (n : Nat) : (leastPowerOfTwo n).isPowerOfTwo := by
  unfold leastPowerOfTwo
  split
  · exact Nat.isPowerOfTwo_one
  · exact ⟨_, Nat.one_shiftLeft _⟩

theorem le_leastPowerOfTwo (n : Nat) : n ≤ leastPowerOfTwo n := by
  unfold leastPowerOfTwo
  split
  · assumption
  · rw [Nat.one_shiftLeft]
    exact Nat.le_of_pred_lt Nat.lt_log2_self

theorem leastPowerOfTwo_le {n m : Nat} (h : n ≤ m) (hm : m.isPowerOfTwo) :
    leastPowerOfTwo n ≤ m := by
  obtain ⟨k, rfl⟩ := hm
  unfold leastPowerOfTwo
  split
  · exact Nat.one_le_two_pow
  · have hlog : (n - 1).log2 < k := (Nat.log2_lt (by omega)).mpr (by omega)
    rw [Nat.one_shiftLeft]
    exact Nat.pow_le_pow_right Nat.two_pos hlog

variable {α : Type}

def ofCapacity (n : Nat) : Ring α where
  slots := Array.replicate (leastPowerOfTwo (max n 2)) none
  head := 0
  tail := 0
  count := 0
  mask := leastPowerOfTwo (max n 2) - 1

def defaultCapacity : Nat := 1024

instance : Inhabited (Ring α) := ⟨ofCapacity defaultCapacity⟩

def capacity (r : Ring α) : Nat := r.slots.size

def isFull (r : Ring α) : Bool := r.count == r.capacity

def isEmpty (r : Ring α) : Bool := r.count == 0

def space (r : Ring α) : Nat := r.capacity - r.count

def index (r : Ring α) (i : Nat) : Nat := (r.head + i) &&& r.mask

def at? (r : Ring α) (i : Nat) : Option α := (r.slots[i]?).join

def tryPush (r : Ring α) (x : α) : Option α × Ring α :=
  if r.isFull then (some x, r)
  else
    (none,
      { r with
        slots := r.slots.setIfInBounds r.tail (some x)
        tail := (r.tail + 1) &&& r.mask
        count := r.count + 1 })

def pushAll (r : Ring α) : List α → Bool × Ring α
  | [] => (true, r)
  | x :: xs =>
    match r.tryPush x with
    | (none, r) => r.pushAll xs
    | (some _, r) => (false, r)

def pop (r : Ring α) : Option α × Ring α :=
  if r.count = 0 then (none, r)
  else
    (r.at? r.head,
      { r with
        slots := r.slots.setIfInBounds r.head none
        head := (r.head + 1) &&& r.mask
        count := r.count - 1 })

def peek? (r : Ring α) : Option α := if r.count = 0 then none else r.at? r.head

def window (r : Ring α) : List Nat := (List.range r.count).map r.index

def toList (r : Ring α) : List α := r.window.filterMap r.at?

def clear (r : Ring α) : Ring α :=
  { r with
    slots := r.window.foldl (fun slots i => slots.setIfInBounds i none) r.slots
    head := 0
    tail := 0
    count := 0 }

def unload (r : Ring α) (out : Array α) : Nat → Array α × Ring α
  | 0 => (out, r)
  | limit + 1 =>
    match r.pop with
    | (some x, r) => r.unload (out.push x) limit
    | (none, r) => (out, r)

structure Levels where
  capacity : Nat
  count : Nat
  space : Nat
  isEmpty : Bool
  isFull : Bool
  deriving DecidableEq

def levels (r : Ring α) : Levels := ⟨r.capacity, r.count, r.space, r.isEmpty, r.isFull⟩

theorem capacity_ofCapacity (n : Nat) :
    (ofCapacity n : Ring α).capacity = leastPowerOfTwo (max n 2) := by
  simp [ofCapacity, capacity]

theorem capacity_tryPush (r : Ring α) (x : α) : (r.tryPush x).2.capacity = r.capacity := by
  unfold tryPush
  split <;> simp [capacity]

theorem capacity_pop (r : Ring α) : r.pop.2.capacity = r.capacity := by
  unfold pop
  split <;> simp [capacity]

theorem count_tryPush {r : Ring α} (h : r.isFull = false) (x : α) :
    (r.tryPush x).2.count = r.count + 1 := by
  simp [tryPush, h]

theorem count_pop (r : Ring α) : r.pop.2.count = r.count - 1 := by
  unfold pop
  split <;> simp_all

theorem count_pos_of_pop {r : Ring α} {x : α} (h : r.pop.1 = some x) : 0 < r.count := by
  unfold pop at h
  split at h
  · cases h
  · omega

theorem peek?_eq (r : Ring α) : r.peek? = r.pop.1 := by
  unfold peek? pop
  split <;> rfl

end Ring
end DataMarkup
