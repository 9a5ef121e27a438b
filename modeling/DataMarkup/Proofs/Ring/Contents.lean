import DataMarkup.Ring.Lemmas

/-! A ring read as a list with a bound. What an operation does to the slots is of no concern here, only
what it does to the items; callers need nothing else of a ring. -/

namespace DataMarkup.Ring

variable {α : Type} {r : Ring α} {c : Nat} {x : α} {xs : List α}

structure Holds (r : Ring α) (c : Nat) (xs : List α) : Prop where
  wellFormed : r.WellFormed
  capacity_eq : r.capacity = c
  items_eq : r.toList = xs

theorem WellFormed.holds (h : r.WellFormed) : r.Holds r.capacity r.toList := ⟨h, rfl, rfl⟩

theorem WellFormed.holds_of_toList_eq (h : r.WellFormed) (hxs : r.toList = xs) :
    r.Holds r.capacity xs := ⟨h, rfl, hxs⟩

theorem holds_ofCapacity (n : Nat) : (ofCapacity n : Ring α).Holds (leastPowerOfTwo (max n 2)) [] :=
  ⟨wellFormed_ofCapacity n, capacity_ofCapacity n, toList_ofCapacity n⟩

namespace Holds

theorem count_eq (h : r.Holds c xs) : r.count = xs.length := by
  rw [← length_toList h.wellFormed, h.items_eq]

theorem space_eq (h : r.Holds c xs) : r.space = c - xs.length := by
  rw [space, h.capacity_eq, h.count_eq]

theorem isFull_iff (h : r.Holds c xs) : r.isFull = true ↔ xs.length = c := by
  rw [isFull, beq_iff_eq, h.count_eq, h.capacity_eq]

theorem pop_nil (h : r.Holds c []) : r.pop = (none, r) := pop_of_count_eq_zero h.count_eq

theorem pop_cons (h : r.Holds c (x :: xs)) : ∃ s, r.pop = (some x, s) ∧ s.Holds c xs := by
  have hlist : r.pop.1.toList ++ r.pop.2.toList = x :: xs := by
    rw [← toList_pop h.wellFormed, h.items_eq]
  have hlen : r.pop.2.toList.length = xs.length := by
    rw [length_toList h.wellFormed.pop, count_pop, h.count_eq, List.length_cons, Nat.add_sub_cancel]
  cases hx : r.pop.1 with
  | none =>
    -- Had nothing been popped, the rest would be as long as before.
    rw [hx] at hlist
    have hsame := congrArg List.length hlist
    simp only [Option.toList_none, List.nil_append, List.length_cons, hlen] at hsame
    exact absurd hsame (Nat.ne_of_lt (Nat.lt_succ_self _))
  | some y =>
    rw [hx] at hlist
    obtain ⟨rfl, hrest⟩ := List.cons.inj hlist
    refine ⟨r.pop.2, Prod.ext hx rfl, h.wellFormed.pop, ?_, hrest⟩
    rw [capacity_pop, h.capacity_eq]

theorem tryPush (h : r.Holds c xs) (hroom : xs.length < c) (x : α) :
    ∃ s, r.tryPush x = (none, s) ∧ s.Holds c (xs ++ [x]) := by
  have hf : r.isFull = false := by
    rw [Bool.eq_false_iff, ne_eq, h.isFull_iff]
    exact Nat.ne_of_lt hroom
  refine ⟨(r.tryPush x).2, Prod.ext (fst_tryPush hf x) rfl, h.wellFormed.tryPush x, ?_, ?_⟩
  · rw [capacity_tryPush, h.capacity_eq]
  · rw [toList_tryPush h.wellFormed hf, h.items_eq]

theorem length_le (h : r.Holds c xs) : xs.length ≤ c := by
  rw [← h.count_eq, ← h.capacity_eq]
  exact h.wellFormed.count_le

theorem tryPush_cases (h : r.Holds c xs) (x : α) :
    (xs.length < c ∧ ∃ s, r.tryPush x = (none, s) ∧ s.Holds c (xs ++ [x])) ∨
      ¬xs.length < c ∧ r.tryPush x = (some x, r) := by
  by_cases hroom : xs.length < c
  · exact .inl ⟨hroom, h.tryPush hroom x⟩
  · have hall : xs.length = c := Nat.le_antisymm h.length_le (Nat.le_of_not_lt hroom)
    exact .inr ⟨hroom, tryPush_of_isFull (h.isFull_iff.mpr hall) x⟩

theorem pushAll {ys : List α} (h : r.Holds c xs) (hroom : xs.length + ys.length ≤ c) :
    ∃ s, r.pushAll ys = (true, s) ∧ s.Holds c (xs ++ ys) := by
  induction ys generalizing r xs with
  | nil => exact ⟨r, rfl, by rwa [List.append_nil]⟩
  | cons y ys ih =>
    rw [List.length_cons] at hroom
    obtain ⟨s, hs, hheld⟩ := h.tryPush (by omega) y
    obtain ⟨u, hu, hrest⟩ := ih hheld (by rw [List.length_append, List.length_singleton]; omega)
    refine ⟨u, ?_, by rwa [List.append_assoc] at hrest⟩
    rw [Ring.pushAll, hs]
    exact hu

theorem pushAll_of_short {ys : List α} (h : r.Holds c xs) (hshort : c < xs.length + ys.length) :
    (r.pushAll ys).1 = false := by
  induction ys generalizing r xs with
  | nil => exact absurd h.length_le (Nat.not_le_of_lt hshort)
  | cons y ys ih =>
    rw [List.length_cons] at hshort
    unfold Ring.pushAll
    rcases h.tryPush_cases y with ⟨hroom, s, hs, hheld⟩ | ⟨hfull, hs⟩
    · rw [hs]
      apply ih hheld
      rw [List.length_append, List.length_singleton]
      omega
    · rw [hs]

theorem unload (h : r.Holds c xs) (out : Array α) (limit : Nat) :
    ∃ s, r.unload out limit = (out ++ xs.take limit, s) ∧ s.Holds c (xs.drop limit) := by
  induction limit generalizing r xs out with
  | zero => exact ⟨r, by simp [Ring.unload], h⟩
  | succ limit ih =>
    cases xs with
    | nil => exact ⟨r, by simp [Ring.unload, h.pop_nil], h⟩
    | cons x xs =>
      obtain ⟨s, hs, hheld⟩ := h.pop_cons
      obtain ⟨u, hu, hrest⟩ := ih hheld (out.push x)
      refine ⟨u, ?_, hrest⟩
      rw [Ring.unload, hs]
      refine hu.trans ?_
      congr 1

end Holds

end DataMarkup.Ring
