import Mathlib.Data.List.Nodup
import DataMarkup.Proofs.Ring.Queue

/-! The slots of a ring, whatever has been asked of it. Those in the window are distinct and hold an item
each; all others are empty, so that an item is never overwritten and a cleared ring is as good as new. -/

namespace DataMarkup.Ring

variable {α : Type} {r : Ring α} {c n j : Nat} {xs : List α}

structure Tidy (r : Ring α) : Prop where
  capacity_isPowerOfTwo : r.capacity.isPowerOfTwo
  mask_eq : r.mask = r.capacity - 1
  head_lt : r.head < r.capacity
  tail_lt : r.tail < r.capacity
  tail_eq : r.tail = (r.head + r.count) % r.capacity
  count_le : r.count ≤ r.capacity
  index_lt : ∀ i, r.index i < r.capacity
  nodup : r.window.Nodup
  stored : ∀ j ∈ r.window, ∃ x, r.slots[j]? = some (some x)
  empty : ∀ j < r.capacity, j ∉ r.window → r.slots[j]? = some none

theorem getElem?_of_at?_eq_none (hj : j < r.capacity) (h : r.at? j = none) :
    r.slots[j]? = some none := by
  have hslot : r.slots[j]? = some r.slots[j] := Array.getElem?_eq_getElem hj
  rw [at?, hslot, Option.join_some] at h
  rw [hslot, h]

namespace WellFormed

theorem nodup_window (h : r.WellFormed) : r.window.Nodup := by
  apply List.Nodup.map_on _ List.nodup_range
  intro i hi j hj hij
  have hle := h.count_le
  rw [List.mem_range] at hi hj
  exact h.index_injOn (Nat.lt_of_lt_of_le hi hle) (Nat.lt_of_lt_of_le hj hle) hij

theorem exists_getElem?_of_mem_window (h : r.WellFormed) (hj : j ∈ r.window) :
    ∃ x, r.slots[j]? = some (some x) := by
  obtain ⟨i, hi, rfl⟩ := mem_window.mp hj
  obtain ⟨x, hx⟩ := Option.isSome_iff_exists.mp (h.isSome_at i hi)
  exact ⟨x, Option.join_eq_some_iff.mp hx⟩

theorem at?_of_not_mem_window (h : r.WellFormed) (hj : j ∉ r.window) : r.at? j = none :=
  h.at_eq_none j fun i hi hij => hj (mem_window.mpr ⟨i, hi, hij⟩)

theorem tidy (h : r.WellFormed) : r.Tidy where
  capacity_isPowerOfTwo := h.capacity_isPowerOfTwo
  mask_eq := h.mask_eq
  head_lt := h.head_lt
  tail_lt := h.tail_eq ▸ h.index_lt r.count
  tail_eq := h.tail_eq.trans (h.index_eq r.count)
  count_le := h.count_le
  index_lt := h.index_lt
  nodup := h.nodup_window
  stored _ hj := h.exists_getElem?_of_mem_window hj
  empty _ hlt hj := getElem?_of_at?_eq_none hlt (h.at?_of_not_mem_window hj)

theorem tail_not_mem_window (h : r.WellFormed) (hroom : r.isFull = false) :
    r.tail ∉ r.window := by
  intro hmem
  obtain ⟨i, hi, hij⟩ := mem_window.mp hmem
  have hlt : r.count < r.capacity :=
    Nat.lt_of_le_of_ne h.count_le (isFull_eq_false_iff.mp hroom)
  have hsame := h.index_injOn (Nat.lt_trans hi hlt) hlt (hij.trans h.tail_eq)
  exact absurd hsame (Nat.ne_of_lt hi)

theorem getElem?_tail (h : r.WellFormed) (hroom : r.isFull = false) :
    r.slots[r.tail]? = some none :=
  h.tidy.empty r.tail h.tidy.tail_lt (h.tail_not_mem_window hroom)

theorem getElem?_tryPush (h : r.WellFormed) (x : α) (hj : j ∈ r.window) :
    (r.tryPush x).2.slots[j]? = r.slots[j]? := by
  cases hfull : r.isFull with
  | true => rw [tryPush_of_isFull hfull]
  | false =>
    have hne : r.tail ≠ j := by
      rintro rfl
      exact h.tail_not_mem_window hfull hj
    simp only [Ring.tryPush, hfull, Bool.false_eq_true, if_false]
    exact Array.getElem?_setIfInBounds_ne hne

theorem exists_pop_eq_some (h : r.WellFormed) (hsome : r.count ≠ 0) :
    ∃ x, r.pop.1 = some x := by
  have hhead := h.isSome_at 0 (Nat.pos_of_ne_zero hsome)
  rw [h.index_zero, ← fst_pop hsome] at hhead
  exact Option.isSome_iff_exists.mp hhead

theorem slots_clear (h : r.WellFormed) :
    r.clear.slots = Array.replicate r.capacity none := by
  apply Array.ext_getElem?
  intro j
  rw [Array.getElem?_replicate]
  by_cases hj : j < r.capacity
  · rw [if_pos hj]
    exact getElem?_of_at?_eq_none (by rwa [capacity_clear]) (at?_clear h j)
  · rw [if_neg hj, Array.getElem?_eq_none_iff]
    show r.clear.capacity ≤ j
    rw [capacity_clear]
    exact Nat.le_of_not_lt hj

end WellFormed

theorem Holds.clear_eq (h : r.Holds (leastPowerOfTwo (max n 2)) xs) : r.clear = ofCapacity n := by
  have hslots := h.wellFormed.slots_clear
  have hmask : r.clear.mask = leastPowerOfTwo (max n 2) - 1 := by
    rw [← h.capacity_eq]
    exact h.wellFormed.mask_eq
  rw [h.capacity_eq] at hslots
  show Ring.mk r.clear.slots 0 0 0 r.clear.mask = _
  rw [hslots, hmask]
  rfl

theorem Holds.answerAll (h : r.Holds c xs) (requests : List (Request α)) :
    ∃ ys, (r.answerAll requests).Holds c ys := by
  induction requests generalizing r xs with
  | nil => exact ⟨xs, h⟩
  | cons request requests ih =>
    have hrefines : r.Refines ⟨xs, c⟩ := h
    have hnext := (hrefines.answer request).2
    rw [Refines, BoundedQueue.capacity_answer] at hnext
    exact ih hnext

/-- After any requests to a new ring, its slots hold an item exactly in the window. A push writes to an
empty slot, if at all, and leaves those in the window alone; a pop finds an item unless there is none; the
list of items is as long as the count; and clearing gives the new ring again, with no item left in it. -/
theorem tidy_answerAll (n : Nat) (requests : List (Request α)) :
    let r := (ofCapacity n : Ring α).answerAll requests
    r.Tidy ∧ (r.isFull = false → r.slots[r.tail]? = some none) ∧
      (∀ x, ∀ j ∈ r.window, (r.tryPush x).2.slots[j]? = r.slots[j]?) ∧
      (r.count ≠ 0 → ∃ x, r.pop.1 = some x) ∧ r.toList.length = r.count ∧
      r.clear = ofCapacity n := by
  intro r
  have hnew : (ofCapacity n : Ring α).Holds (leastPowerOfTwo (max n 2)) [] := holds_ofCapacity n
  obtain ⟨xs, hholds⟩ := hnew.answerAll requests
  have h : r.WellFormed := hholds.wellFormed
  refine ⟨h.tidy, h.getElem?_tail, ?_, h.exists_pop_eq_some, length_toList h, hholds.clear_eq⟩
  intro x j hj
  exact h.getElem?_tryPush x hj

theorem tidy_answerAll_wrapped :
    let r : Ring Nat := (ofCapacity 3).answerAll
      [.push 0, .push 1, .tryPush 2, .push 3, .pop, .push 4, .tryPush 5, .pop, .pop]
    r.window = [3, 0] ∧ r.isFull = false ∧ r.slots[r.tail]? = some none ∧
      (r.tryPush 6).2.slots[0]? = some (some 4) ∧ r.count ≠ 0 ∧ (∃ x, r.pop.1 = some x) ∧
      r.clear = ofCapacity 3 := by
  intro r
  have hroom : r.isFull = false := rfl
  have hsome : r.count ≠ 0 := by decide
  have hmem : 0 ∈ r.window := by decide
  obtain ⟨-, htail, hkept, hpop, -, hclear⟩ := tidy_answerAll 3
    [.push 0, .push 1, .tryPush 2, .push 3, .pop, .push 4, .tryPush 5, .pop, .pop]
  exact ⟨by decide, hroom, htail hroom, hkept 6 0 hmem, hsome, hpop hsome, hclear⟩

end DataMarkup.Ring
