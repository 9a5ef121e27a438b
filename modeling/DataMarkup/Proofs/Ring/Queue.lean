import Mathlib.Order.Bounds.Basic
import DataMarkup.Proofs.Ring.Contents
import DataMarkup.Ring.Request

/-! A ring and a plain list with the same bound give the same replies and show the same levels, whatever
the requests. Where the window lies in the storage and how often it has wrapped around never shows. -/

namespace DataMarkup

variable {α : Type}

theorem BoundedQueue.capacity_answer (q : BoundedQueue α) (request : Request α) :
    (q.answer request).2.capacity = q.capacity := by
  unfold answer
  cases request with
  | tryPush x => dsimp only; split <;> rfl
  | push x => dsimp only; split <;> rfl
  | pop | peek | list | clear => rfl

namespace Ring

variable {r : Ring α} {q : BoundedQueue α} {c : Nat} {xs : List α}

def answerAll (r : Ring α) (requests : List (Request α)) : Ring α :=
  requests.foldl (fun r request => (r.answer request).2) r

theorem isLeast_leastPowerOfTwo (n : Nat) :
    IsLeast {m | m.isPowerOfTwo ∧ n ≤ m} (leastPowerOfTwo n) := by
  refine ⟨⟨isPowerOfTwo_leastPowerOfTwo n, le_leastPowerOfTwo n⟩, ?_⟩
  rintro m ⟨hpow, hle⟩
  exact leastPowerOfTwo_le hle hpow

theorem Holds.peek? (h : r.Holds c xs) : r.peek? = xs.head? := by
  rw [peek?_eq]
  cases xs with
  | nil => rw [h.pop_nil]; rfl
  | cons x xs =>
    obtain ⟨s, hpop, -⟩ := h.pop_cons
    rw [hpop]
    rfl

theorem Holds.clear (h : r.Holds c xs) : r.clear.Holds c [] :=
  ⟨h.wellFormed.clear, (capacity_clear r).trans h.capacity_eq, toList_clear r⟩

/-! ### One request -/

abbrev Refines (r : Ring α) (q : BoundedQueue α) : Prop := r.Holds q.capacity q.items

theorem refines_ofCapacity (n : Nat) :
    (ofCapacity n : Ring α).Refines ⟨[], leastPowerOfTwo (max n 2)⟩ := holds_ofCapacity n

theorem Refines.levels_eq (h : r.Refines q) : r.levels = q.levels := by
  unfold levels BoundedQueue.levels
  rw [h.space_eq, isEmpty, isFull, h.count_eq, h.capacity_eq]

theorem Refines.answer (h : r.Refines q) (request : Request α) :
    (r.answer request).1 = (q.answer request).1 ∧
      (r.answer request).2.Refines (q.answer request).2 := by
  unfold Ring.answer BoundedQueue.answer
  cases request with
  | tryPush x | push x =>
    rcases h.tryPush_cases x with ⟨hroom, s, hpush, hs⟩ | ⟨hfull, hpush⟩
    · simp only [hpush, hroom, if_true]
      exact ⟨trivial, hs⟩
    · simp only [hpush, hfull, if_false]
      exact ⟨trivial, h⟩
  | pop =>
    obtain ⟨items, capacity⟩ := q
    cases items with
    | nil =>
      have hpop := h.pop_nil
      simp only [hpop]
      exact ⟨rfl, h⟩
    | cons x xs =>
      obtain ⟨s, hpop, hs⟩ := h.pop_cons
      simp only [hpop]
      exact ⟨rfl, hs⟩
  | peek => exact ⟨congrArg Reply.item h.peek?, h⟩
  | list => exact ⟨congrArg Reply.items h.items_eq, h⟩
  | clear => exact ⟨rfl, h.clear⟩

/-! ### All requests -/

theorem Refines.serve (h : r.Refines q) (requests : List (Request α)) :
    r.serve requests = q.serve requests := by
  induction requests generalizing r q with
  | nil => rfl
  | cons request requests ih =>
    obtain ⟨hreply, hnext⟩ := h.answer request
    have hlevels := hnext.levels_eq
    have hrest := ih hnext
    rw [Ring.serve, BoundedQueue.serve]
    simp only [hreply, hlevels, hrest]

theorem Refines.capacity_of_mem_serve (h : r.Refines q) {requests : List (Request α)}
    {answered : Reply α × Levels} (hmem : answered ∈ r.serve requests) :
    answered.2.capacity = q.capacity := by
  induction requests generalizing r q with
  | nil => exact absurd hmem List.not_mem_nil
  | cons request requests ih =>
    obtain ⟨-, hnext⟩ := h.answer request
    have hsame := q.capacity_answer request
    rw [Ring.serve] at hmem
    rcases List.mem_cons.mp hmem with rfl | hlater
    · exact hnext.capacity_eq.trans hsame
    · exact (ih hnext hlater).trans hsame

theorem answer_of_refused {request : Request α}
    (h : (r.answer request).1 = .overflow ∨ ∃ x, (r.answer request).1 = .refused x) :
    (r.answer request).2 = r := by
  unfold Ring.answer at h ⊢
  cases request with
  | tryPush x | push x =>
    cases hfull : r.isFull with
    | true => simp only [tryPush_of_isFull hfull]
    | false => simp [Ring.tryPush, hfull] at h
  | pop | peek | list | clear => simp at h

/-- The bound of a new ring is the least power of two from two on that is not below what was asked for,
and it stays. Up to it the ring takes, gives and lists items as the plain list does, request for request;
at it a push is refused and nothing is changed by it. -/
theorem serve_ofCapacity (n : Nat) (requests : List (Request α)) :
    let r : Ring α := ofCapacity n
    let c := leastPowerOfTwo (max n 2)
    IsLeast {m | m.isPowerOfTwo ∧ max n 2 ≤ m} c ∧
      r.levels = (BoundedQueue.mk [] c : BoundedQueue α).levels ∧
      r.serve requests = (BoundedQueue.mk [] c).serve requests ∧
      (∀ answered ∈ r.serve requests, answered.2.capacity = c) ∧
      ∀ request, ((r.answerAll requests).answer request).1 = .overflow ∨
          (∃ x, ((r.answerAll requests).answer request).1 = .refused x) →
        ((r.answerAll requests).answer request).2 = r.answerAll requests := by
  intro r c
  have hrefines : r.Refines ⟨[], c⟩ := refines_ofCapacity n
  refine ⟨isLeast_leastPowerOfTwo _, hrefines.levels_eq, hrefines.serve requests, ?_, ?_⟩
  · intro answered hmem
    exact hrefines.capacity_of_mem_serve hmem
  · intro request hrefused
    exact answer_of_refused hrefused

end Ring
end DataMarkup
