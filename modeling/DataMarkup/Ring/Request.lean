import DataMarkup.Ring

/-! Requests to a bounded queue and the replies to them, for rings and for plain lists with a bound. -/

namespace DataMarkup

inductive Request (α : Type)
  | tryPush (x : α)
  | push (x : α)
  | pop
  | peek
  | list
  | clear

inductive Reply (α : Type)
  | done
  | refused (x : α)
  | overflow
  | item (x : Option α)
  | items (xs : List α)
  deriving DecidableEq

namespace Ring

variable {α : Type}

def answer (r : Ring α) : Request α → Reply α × Ring α
  | .tryPush x =>
    match r.tryPush x with
    | (none, r) => (.done, r)
    | (some x, r) => (.refused x, r)
  | .push x =>
    match r.tryPush x with
    | (none, r) => (.done, r)
    | (some _, r) => (.overflow, r)
  | .pop =>
    match r.pop with
    | (x, r) => (.item x, r)
  | .peek => (.item r.peek?, r)
  | .list => (.items r.toList, r)
  | .clear => (.done, r.clear)

def serve (r : Ring α) : List (Request α) → List (Reply α × Levels)
  | [] => []
  | q :: qs =>
    match r.answer q with
    | (reply, r) => (reply, r.levels) :: r.serve qs

end Ring

/-- A plain list, oldest item first, of at most `capacity` items. -/
structure BoundedQueue (α : Type) where
  items : List α
  capacity : Nat
  deriving DecidableEq

namespace BoundedQueue

variable {α : Type}

def levels (q : BoundedQueue α) : Ring.Levels :=
  ⟨q.capacity, q.items.length, q.capacity - q.items.length, q.items.length == 0,
    q.items.length == q.capacity⟩

def answer (q : BoundedQueue α) : Request α → Reply α × BoundedQueue α
  | .tryPush x =>
    if q.items.length < q.capacity then (.done, { q with items := q.items ++ [x] })
    else (.refused x, q)
  | .push x =>
    if q.items.length < q.capacity then (.done, { q with items := q.items ++ [x] })
    else (.overflow, q)
  | .pop => (.item q.items.head?, { q with items := q.items.tail })
  | .peek => (.item q.items.head?, q)
  | .list => (.items q.items, q)
  | .clear => (.done, { q with items := [] })

def serve (q : BoundedQueue α) : List (Request α) → List (Reply α × Ring.Levels)
  | [] => []
  | r :: rs =>
    match q.answer r with
    | (reply, q) => (reply, q.levels) :: q.serve rs

end BoundedQueue
end DataMarkup
