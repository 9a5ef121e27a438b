import DataMarkup.Data.Unclosed
import DataMarkup.Event
import Mathlib.Data.Finset.Lattice.Fold
import Mathlib.Order.Lattice.Nat

/-! The account that is due for a list of tokens, read off the list alone: a note for each container that
is opened or closed, and a note on how it ended. -/

namespace DataMarkup.Data

theorem filterMap_range_concat {α β : Type} (f : List α → α → Option β) (xs : List α) (x : α) :
    ((List.range (xs ++ [x]).length).filterMap fun k =>
        (xs ++ [x])[k]?.bind (f ((xs ++ [x]).take k))) =
      ((List.range xs.length).filterMap fun k => xs[k]?.bind (f (xs.take k))) ++
        (f xs x).toList := by
  have hbefore : ∀ k ∈ List.range xs.length,
      (xs ++ [x])[k]?.bind (f ((xs ++ [x]).take k)) = xs[k]?.bind (f (xs.take k)) := by
    intro k hk
    have hlt := List.mem_range.mp hk
    rw [List.getElem?_append_left hlt, List.take_append_of_le_length (Nat.le_of_lt hlt)]
  have hlast : (xs ++ [x])[xs.length]?.bind (f ((xs ++ [x]).take xs.length)) = f xs x := by
    rw [List.getElem?_append_right (Nat.le_refl _), Nat.sub_self, List.take_left]
    rfl
  rw [List.length_append, List.length_singleton, List.range_succ, List.filterMap_append,
    List.filterMap_congr hbefore]
  simp only [List.filterMap_cons, List.filterMap_nil, hlast]
  cases f xs x <;> rfl

def shown : Container → Frame
  | .array => .array
  | .object => .object false

/-- The note for `t` after `us`, with the number of containers then open. A closing token shows the
container that it closes. -/
def event? (us : List Token) (t : Token) : Option Event :=
  match t with
  | .opening kind _ => some (.pushed (unclosed (us ++ [t])).length (shown kind))
  | .closing _ =>
    some (.popped (unclosed (us ++ [t])).length ((innermost? us).map shown))
  | _ => none

def account (ts : List Token) : List Event :=
  (List.range ts.length).filterMap fun k => ts[k]?.bind (event? (ts.take k))

/-- The most that openings ever are ahead of closings. Before the first token they are equal, so it does
not matter that a negative difference counts as 0. -/
def deepest (ts : List Token) : Nat :=
  (Finset.range (ts.length + 1)).sup fun k => openings (ts.take k) - closings (ts.take k)

def endNote (ts : List Token) (failure? : Option Failure) (finished : Bool) : List Event :=
  match failure?, finished with
  | some (.malformed cause), _ => [.stopped cause]
  | none, true => [.finished ts.length (deepest ts)]
  | _, _ => []

theorem account_concat (ts : List Token) (t : Token) :
    account (ts ++ [t]) = account ts ++ (event? ts t).toList :=
  filterMap_range_concat event? ts t

theorem account_prefix_append (us vs : List Token) : account us <+: account (us ++ vs) := by
  induction vs using List.reverseRecOn with
  | nil => rw [List.append_nil]
  | append_singleton vs t ih =>
    rw [← List.append_assoc, account_concat]
    exact ih.trans (List.prefix_append _ _)

theorem deepest_concat (ts : List Token) (t : Token) :
    deepest (ts ++ [t]) =
      max (deepest ts) (openings (ts ++ [t]) - closings (ts ++ [t])) := by
  have hbefore : ∀ k ∈ Finset.range (ts.length + 1), (ts ++ [t]).take k = ts.take k := by
    intro k hk
    exact List.take_append_of_le_length (Nat.lt_succ_iff.mp (Finset.mem_range.mp hk))
  have hall : (ts ++ [t]).take (ts.length + 1) = ts ++ [t] :=
    List.take_of_length_le (Nat.le_of_eq List.length_append)
  rw [deepest, List.length_append, List.length_singleton, Finset.range_add_one, Finset.sup_insert,
    hall, max_comm]
  congr 1
  exact Finset.sup_congr rfl fun k hk => by rw [hbefore k hk]

theorem level_of_mem_account {ts : List Token} {e : Event} (he : e ∈ account ts) :
    e.level = "TRACE" := by
  obtain ⟨k, -, hk⟩ := List.mem_filterMap.mp he
  obtain ⟨t, -, ht⟩ := Option.bind_eq_some_iff.mp hk
  cases t with
  | opening | closing =>
    cases ht
    rfl
  | property | scalar => cases ht

theorem level_of_mem_endNote {ts : List Token} {failure? : Option Failure} {finished : Bool}
    {e : Event} (he : e ∈ endNote ts failure? finished) : e.level = "DEBUG" := by
  unfold endNote at he
  split at he
  · rw [List.mem_singleton.mp he]
    rfl
  · rw [List.mem_singleton.mp he]
    rfl
  · exact absurd he List.not_mem_nil

end DataMarkup.Data
