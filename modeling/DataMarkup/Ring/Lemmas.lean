import Mathlib.Data.List.Basic
import DataMarkup.Ring

/-! The slots of a ring and its items. In a well-formed ring the window holds the items and nothing else
is stored; each operation keeps it so and does to the items what a queue does. -/

namespace DataMarkup.Ring

variable {α : Type}

structure WellFormed (r : Ring α) : Prop where
  capacity_isPowerOfTwo : r.capacity.isPowerOfTwo
  mask_eq : r.mask = r.capacity - 1
  head_lt : r.head < r.capacity
  tail_eq : r.tail = r.index r.count
  count_le : r.count ≤ r.capacity
  isSome_at : ∀ i < r.count, (r.at? (r.index i)).isSome
  at_eq_none : ∀ j, (∀ i < r.count, r.index i ≠ j) → r.at? j = none

namespace WellFormed

variable {r : Ring α}

theorem capacity_pos (h : r.WellFormed) : 0 < r.capacity := Nat.zero_lt_of_lt h.head_lt

theorem land_mask (h : r.WellFormed) (n : Nat) : n &&& r.mask = n % r.capacity := by
  obtain ⟨k, hk⟩ := h.capacity_isPowerOfTwo
  rw [h.mask_eq, hk, Nat.and_two_pow_sub_one_eq_mod]

theorem index_eq (h : r.WellFormed) (i : Nat) : r.index i = (r.head + i) % r.capacity :=
  h.land_mask _

theorem index_lt (h : r.WellFormed) (i : Nat) : r.index i < r.capacity := by
  rw [h.index_eq]
  exact Nat.mod_lt _ h.capacity_pos

theorem index_zero (h : r.WellFormed) : r.index 0 = r.head := by
  rw [h.index_eq, Nat.add_zero, Nat.mod_eq_of_lt h.head_lt]

theorem index_injOn (h : r.WellFormed) {i j : Nat} (hi : i < r.capacity) (hj : j < r.capacity)
    (hij : r.index i = r.index j) : i = j := by
  rw [h.index_eq, h.index_eq] at hij
  have hlt := h.head_lt
  rcases Nat.lt_or_ge (r.head + i) r.capacity with ci | ci <;>
    rcases Nat.lt_or_ge (r.head + j) r.capacity with cj | cj
  · rw [Nat.mod_eq_of_lt ci, Nat.mod_eq_of_lt cj] at hij; omega
  · rw [Nat.mod_eq_of_lt ci, Nat.mod_eq_sub_mod cj, Nat.mod_eq_of_lt (by omega)] at hij; omega
  · rw [Nat.mod_eq_sub_mod ci, Nat.mod_eq_of_lt (by omega), Nat.mod_eq_of_lt cj] at hij; omega
  · rw [Nat.mod_eq_sub_mod ci, Nat.mod_eq_of_lt (by omega), Nat.mod_eq_sub_mod cj,
      Nat.mod_eq_of_lt (by omega)] at hij
    omega

end WellFormed

theorem mem_window {r : Ring α} {j : Nat} : j ∈ r.window ↔ ∃ i < r.count, r.index i = j := by
  simp [window]

theorem toList_eq (r : Ring α) :
    r.toList = (List.range r.count).filterMap fun i => r.at? (r.index i) :=
  List.filterMap_map

theorem join_getElem?_setIfInBounds {slots : Array (Option α)} {p : Nat} (hp : p < slots.size)
    (x : Option α) (j : Nat) :
    ((slots.setIfInBounds p x)[j]?).join = if p = j then x else (slots[j]?).join := by
  rw [Array.getElem?_setIfInBounds]
  split
  · simp_all
  · rfl

theorem isFull_eq_false_iff {r : Ring α} : r.isFull = false ↔ r.count ≠ r.capacity := by
  simp [isFull]

theorem tryPush_of_isFull {r : Ring α} (h : r.isFull = true) (x : α) : r.tryPush x = (some x, r) := by
  simp [tryPush, h]

theorem fst_tryPush {r : Ring α} (h : r.isFull = false) (x : α) : (r.tryPush x).1 = none := by
  simp [tryPush, h]

theorem at?_tryPush {r : Ring α} (h : r.WellFormed) (hf : r.isFull = false) (x : α) (j : Nat) :
    (r.tryPush x).2.at? j = if r.tail = j then some x else r.at? j := by
  have ht : r.tail < r.slots.size := h.tail_eq ▸ h.index_lt _
  simp [tryPush, hf, at?, join_getElem?_setIfInBounds ht]

theorem index_tryPush (r : Ring α) (x : α) (i : Nat) : (r.tryPush x).2.index i = r.index i := by
  unfold tryPush
  split <;> rfl

theorem WellFormed.tryPush {r : Ring α} (h : r.WellFormed) (x : α) : (r.tryPush x).2.WellFormed := by
  cases hf : r.isFull with
  | true => rwa [tryPush_of_isFull hf]
  | false =>
    have hne := isFull_eq_false_iff.mp hf
    have hle := h.count_le
    have htail : r.tail = r.index r.count := h.tail_eq
    constructor
    · rw [capacity_tryPush]; exact h.capacity_isPowerOfTwo
    · rw [capacity_tryPush]; simpa [Ring.tryPush, hf] using h.mask_eq
    · rw [capacity_tryPush]; simpa [Ring.tryPush, hf] using h.head_lt
    · rw [index_tryPush, count_tryPush hf, h.index_eq]
      simp only [Ring.tryPush, hf, Bool.false_eq_true, if_false]
      rw [h.land_mask, htail, h.index_eq, Nat.mod_add_mod, Nat.add_assoc]
    · rw [capacity_tryPush, count_tryPush hf]; omega
    · intro i hi
      rw [index_tryPush, at?_tryPush h hf]
      split
      · rfl
      · rename_i hij
        rw [count_tryPush hf] at hi
        refine h.isSome_at i (Nat.lt_of_le_of_ne (Nat.lt_succ_iff.mp hi) ?_)
        rintro rfl
        exact hij htail
    · intro j hj
      rw [count_tryPush hf] at hj
      simp only [index_tryPush] at hj
      rw [at?_tryPush h hf, if_neg (htail ▸ hj r.count (Nat.lt_succ_self _))]
      exact h.at_eq_none j fun i hi => hj i (Nat.lt_succ_of_lt hi)

theorem toList_tryPush {r : Ring α} (h : r.WellFormed) (hf : r.isFull = false) (x : α) :
    (r.tryPush x).2.toList = r.toList ++ [x] := by
  have hne := isFull_eq_false_iff.mp hf
  have hle := h.count_le
  rw [toList_eq, toList_eq, count_tryPush hf, List.range_succ, List.filterMap_append]
  congr 1
  · apply List.filterMap_congr
    intro i hi
    rw [List.mem_range] at hi
    rw [index_tryPush, at?_tryPush h hf, if_neg]
    rw [h.tail_eq]
    intro hij
    have := h.index_injOn (by omega) (by omega) hij
    omega
  · simp [index_tryPush, at?_tryPush h hf, h.tail_eq]

theorem pop_of_count_eq_zero {r : Ring α} (h : r.count = 0) : r.pop = (none, r) := by
  simp [pop, h]

theorem fst_pop {r : Ring α} (hc : r.count ≠ 0) : r.pop.1 = r.at? r.head := by
  simp [pop, hc]

theorem at?_pop {r : Ring α} (h : r.WellFormed) (hc : r.count ≠ 0) (j : Nat) :
    r.pop.2.at? j = if r.head = j then none else r.at? j := by
  simp [pop, hc, at?, join_getElem?_setIfInBounds h.head_lt]

theorem index_pop {r : Ring α} (h : r.WellFormed) (hc : r.count ≠ 0) (i : Nat) :
    r.pop.2.index i = r.index (i + 1) := by
  rw [h.index_eq]
  simp only [pop, hc, if_false, index]
  rw [h.land_mask, h.land_mask, Nat.mod_add_mod]
  congr 1
  omega

theorem WellFormed.pop {r : Ring α} (h : r.WellFormed) : r.pop.2.WellFormed := by
  rcases Nat.eq_zero_or_pos r.count with hc | hpos
  · rwa [pop_of_count_eq_zero hc]
  · have hc : r.count ≠ 0 := Nat.ne_of_gt hpos
    have hle := h.count_le
    constructor
    · rw [capacity_pop]; exact h.capacity_isPowerOfTwo
    · rw [capacity_pop]; simpa [Ring.pop, hc] using h.mask_eq
    · rw [capacity_pop]
      simp only [Ring.pop, hc, if_false]
      rw [h.land_mask]
      exact Nat.mod_lt _ h.capacity_pos
    · rw [index_pop h hc, count_pop, Nat.sub_add_cancel hpos, ← h.tail_eq]
      simp [Ring.pop, hc]
    · rw [capacity_pop, count_pop]; omega
    · intro i hi
      rw [count_pop] at hi
      rw [index_pop h hc, at?_pop h hc, if_neg]
      · exact h.isSome_at _ (by omega)
      · rw [← h.index_zero]
        intro hij
        have := h.index_injOn (by omega) (by omega) hij
        omega
    · intro j hj
      rw [count_pop] at hj
      simp only [index_pop h hc] at hj
      rw [at?_pop h hc]
      split
      · rfl
      · rename_i hne
        refine h.at_eq_none j fun i hi => ?_
        cases i with
        | zero => rw [h.index_zero]; exact hne
        | succ i => exact hj i (by omega)

theorem toList_of_count_eq_zero {r : Ring α} (h : r.count = 0) : r.toList = [] := by
  simp [toList, window, h]

theorem toList_pop {r : Ring α} (h : r.WellFormed) : r.toList = r.pop.1.toList ++ r.pop.2.toList := by
  rcases Nat.eq_zero_or_pos r.count with hc | hpos
  · rw [pop_of_count_eq_zero hc, toList_of_count_eq_zero hc]; rfl
  · have hc : r.count ≠ 0 := Nat.ne_of_gt hpos
    have hle := h.count_le
    obtain ⟨n, hn⟩ : ∃ n, r.count = n + 1 := ⟨r.count - 1, by omega⟩
    have hhead := h.isSome_at 0 hpos
    rw [h.index_zero] at hhead
    obtain ⟨x, hx⟩ := Option.isSome_iff_exists.mp hhead
    rw [toList_eq, toList_eq, count_pop, hn, List.range_succ_eq_map, List.filterMap_cons, h.index_zero,
      fst_pop hc, hx, List.filterMap_map]
    simp only [Option.toList_some, List.singleton_append, Nat.add_sub_cancel, List.cons.injEq,
      true_and]
    apply List.filterMap_congr
    intro i hi
    rw [List.mem_range] at hi
    rw [index_pop h hc, at?_pop h hc, if_neg]
    · rfl
    · rw [← h.index_zero]
      intro hij
      have := h.index_injOn (by omega) (by omega) hij
      omega

theorem wellFormed_ofCapacity (n : Nat) : (ofCapacity n : Ring α).WellFormed := by
  have hpow : (leastPowerOfTwo (max n 2)).isPowerOfTwo := isPowerOfTwo_leastPowerOfTwo _
  constructor
  · rw [capacity_ofCapacity]; exact hpow
  · rw [capacity_ofCapacity]; rfl
  · rw [capacity_ofCapacity]; exact Nat.pos_of_isPowerOfTwo hpow
  · simp [ofCapacity, index]
  · exact Nat.zero_le _
  · intro i hi
    exact absurd hi (Nat.not_lt_zero i)
  · intro j _
    simp only [ofCapacity, at?, Array.getElem?_replicate]
    split <;> rfl

theorem toList_ofCapacity (n : Nat) : (ofCapacity n : Ring α).toList = [] := rfl

theorem join_getElem?_foldl (ps : List Nat) (slots : Array (Option α)) (j : Nat) :
    ((ps.foldl (fun s p => s.setIfInBounds p none) slots)[j]?).join =
      if j ∈ ps then none else (slots[j]?).join := by
  induction ps generalizing slots with
  | nil => simp
  | cons p ps ih =>
    rw [List.foldl_cons, ih, Array.getElem?_setIfInBounds]
    by_cases hj : j ∈ ps
    · simp [hj]
    · by_cases hp : p = j
      · subst hp
        simp only [hj, if_false, if_true, List.mem_cons_self]
        split <;> rfl
      · simp [hj, hp, Ne.symm hp]

theorem size_foldl (ps : List Nat) (slots : Array (Option α)) :
    (ps.foldl (fun s p => s.setIfInBounds p none) slots).size = slots.size := by
  induction ps generalizing slots with
  | nil => rfl
  | cons p ps ih => rw [List.foldl_cons, ih, Array.size_setIfInBounds]

theorem capacity_clear (r : Ring α) : r.clear.capacity = r.capacity := size_foldl ..

theorem at?_clear {r : Ring α} (h : r.WellFormed) (j : Nat) : r.clear.at? j = none := by
  rw [at?, clear, join_getElem?_foldl]
  split
  · rfl
  · rename_i hj
    exact h.at_eq_none j fun i hi hij => hj (mem_window.mpr ⟨i, hi, hij⟩)

theorem WellFormed.clear {r : Ring α} (h : r.WellFormed) : r.clear.WellFormed := by
  constructor
  · rw [capacity_clear]; exact h.capacity_isPowerOfTwo
  · rw [capacity_clear]; exact h.mask_eq
  · rw [capacity_clear]; exact h.capacity_pos
  · simp [Ring.clear, index]
  · exact Nat.zero_le _
  · intro i hi
    exact absurd hi (Nat.not_lt_zero i)
  · intro j _
    exact at?_clear h j

theorem toList_clear (r : Ring α) : r.clear.toList = [] := rfl

theorem length_toList {r : Ring α} (h : r.WellFormed) : r.toList.length = r.count := by
  rw [toList_eq, List.length_filterMap_eq_countP, List.countP_eq_length.mpr, List.length_range]
  intro i hi
  exact h.isSome_at i (List.mem_range.mp hi)

end DataMarkup.Ring
