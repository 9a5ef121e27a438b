import DataMarkup.Ring

/-! Replacing every item of a ring. The items take no part in what a ring does: each operation on the
ring with the replaced items is the operation on the ring, with its result replaced. -/

namespace DataMarkup.Ring

variable {α β : Type}

def map (f : α → β) (r : Ring α) : Ring β := { r with slots := r.slots.map (Option.map f) }

variable (f : α → β) (r : Ring α)

theorem map_ofCapacity (n : Nat) : (ofCapacity n : Ring α).map f = ofCapacity n := by
  unfold ofCapacity map
  rw [Array.map_replicate, Option.map_none]

theorem count_map : (r.map f).count = r.count := rfl

theorem capacity_map : (r.map f).capacity = r.capacity := Array.size_map

theorem isFull_map : (r.map f).isFull = r.isFull := by
  rw [isFull, isFull, count_map, capacity_map]

theorem space_map : (r.map f).space = r.space := by
  rw [space, space, count_map, capacity_map]

theorem levels_map : (r.map f).levels = r.levels := by
  unfold levels isEmpty
  rw [capacity_map, count_map, space_map, isFull_map]

theorem at?_map (i : Nat) : (r.map f).at? i = (r.at? i).map f := by
  unfold at? map
  rw [Array.getElem?_map]
  exact Option.join_map_eq_map_join

theorem tryPush_map (x : α) :
    (r.map f).tryPush (f x) = ((r.tryPush x).1.map f, (r.tryPush x).2.map f) := by
  unfold tryPush
  rw [isFull_map]
  split
  · rfl
  · simp [map]

theorem pushAll_map (xs : List α) :
    (r.map f).pushAll (xs.map f) = ((r.pushAll xs).1, (r.pushAll xs).2.map f) := by
  induction xs generalizing r with
  | nil => rfl
  | cons x xs ih =>
    rw [List.map_cons, pushAll, pushAll, tryPush_map]
    obtain ⟨refused, s⟩ := r.tryPush x
    cases refused with
    | none => exact ih s
    | some y => rfl

theorem pop_map : (r.map f).pop = (r.pop.1.map f, r.pop.2.map f) := by
  unfold pop
  rw [count_map]
  split
  · rfl
  · rw [at?_map]
    simp [map]

theorem peek?_map : (r.map f).peek? = r.peek?.map f := by
  rw [peek?_eq, peek?_eq, pop_map]

theorem toList_map : (r.map f).toList = r.toList.map f := by
  have hwindow : (r.map f).window = r.window := rfl
  rw [toList, toList, hwindow, List.map_filterMap, funext (at?_map f r)]

theorem unload_map (out : Array α) (limit : Nat) :
    (r.map f).unload (out.map f) limit =
      ((r.unload out limit).1.map f, (r.unload out limit).2.map f) := by
  induction limit generalizing r out with
  | zero => rfl
  | succ limit ih =>
    rw [unload, unload, pop_map]
    obtain ⟨item, s⟩ := r.pop
    cases item with
    | none => rfl
    | some x =>
      have hx := ih s (out.push x)
      rwa [Array.map_push] at hx

end DataMarkup.Ring
