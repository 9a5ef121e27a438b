import DataMarkup.Rendering
import DataMarkup.Ring

/-! Rendering in push mode. Chunks of tokens are fed in, markup waits in a ring of fixed size until it
is read, and a chunk is taken only as far as the ring has room. -/

namespace DataMarkup

structure Renderer where
  run : Run
  ring : Ring Markup.Token

/-- `full` tells that the ring has no room for what may come next. -/
structure FeedReport where
  consumed : Nat
  written : Nat
  full : Bool
  deriving DecidableEq

instance : Inhabited FeedReport := ⟨⟨0, 0, false⟩⟩

namespace Renderer

def ofCapacity (n : Nat) : Renderer := ⟨.start, .ofCapacity (max n Run.maxMarkupPerToken)⟩

instance : Inhabited Renderer := ⟨ofCapacity Ring.defaultCapacity⟩

def depth (r : Renderer) : Nat := r.run.depth

def isFinished (r : Renderer) : Bool := r.run.isDone

def waiting (r : Renderer) : Nat := r.ring.count

def hasRoom (r : Renderer) : Bool := Run.maxMarkupPerToken ≤ r.ring.space

def emit (ring : Ring Markup.Token) (run : Run) (tokens : List Markup.Token) :
    Except Failure Unit × Renderer :=
  match ring.pushAll tokens with
  | (true, ring) =>
    match run.failure? with
    | some cause => (.error (.malformed cause), ⟨run, ring⟩)
    | none => (.ok (), ⟨run, ring⟩)
  | (false, ring) => (.error (.misuse .ringFull), ⟨run, ring⟩)

def step (r : Renderer) (token : Data.Token) : Except Failure Unit × Renderer :=
  match r.run.failure? with
  | some cause => (.error (.malformed cause), r)
  | none =>
    if r.isFinished then (.error (.misuse .stepAfterEnd), r)
    else if !r.hasRoom then (.error (.misuse .shortOfRoom), r)
    else
      match r with
      | ⟨run, ring⟩ =>
        match run.step token with
        | (run, tokens) => emit ring run tokens

def close (r : Renderer) : Except Failure Unit × Renderer :=
  match r with
  | ⟨run, ring⟩ =>
    match run.finish with
    | (run, tokens) => emit ring run tokens

def stepAll (r : Renderer) (consumed : Nat) : List Data.Token → Except Failure Nat × Renderer
  | [] => (.ok consumed, r)
  | t :: ts =>
    if r.hasRoom then
      match r.step t with
      | (.ok _, r) => r.stepAll (consumed + 1) ts
      | (.error failure, r) => (.error failure, r)
    else (.ok consumed, r)

/-- Takes as many tokens as there is room for; after the end, none. -/
def feed (r : Renderer) (tokens : List Data.Token) : Except Failure FeedReport × Renderer :=
  match r.run.failure? with
  | some cause => (.error (.malformed cause), r)
  | none =>
    if r.isFinished then (.ok default, r)
    else
      let before := r.waiting
      match r.stepAll 0 tokens with
      | (.ok consumed, r) => (.ok ⟨consumed, r.waiting - before, !r.hasRoom⟩, r)
      | (.error failure, r) => (.error failure, r)

/-- Ends the input, unless the ring is full: then some of it has to be read first. -/
def finish (r : Renderer) : Except Failure FeedReport × Renderer :=
  match r.run.failure? with
  | some cause => (.error (.malformed cause), r)
  | none =>
    if r.ring.isFull then (.ok ⟨0, 0, true⟩, r)
    else
      let before := r.waiting
      match r.close with
      | (.ok _, r) => (.ok ⟨0, r.waiting - before, r.ring.isFull⟩, r)
      | (.error failure, r) => (.error failure, r)

def read (r : Renderer) : Option Markup.Token × Renderer :=
  match r with
  | ⟨run, ring⟩ =>
    match ring.pop with
    | (token, ring) => (token, ⟨run, ring⟩)

def unload (r : Renderer) (out : Array Markup.Token) (limit : Option Nat) :
    Array Markup.Token × Renderer :=
  match r with
  | ⟨run, ring⟩ =>
    match ring.unload out (limit.getD ring.count) with
    | (out, ring) => (out, ⟨run, ring⟩)

theorem run_emit (ring : Ring Markup.Token) (run : Run) (tokens : List Markup.Token) :
    (emit ring run tokens).2.run = run := by
  unfold emit
  split
  · split <;> rfl
  · rfl

theorem run_close (r : Renderer) : r.close.2.run = r.run.finish.1 := run_emit ..

theorem run_read (r : Renderer) : r.read.2.run = r.run := rfl

theorem count_read_lt {r : Renderer} {token : Markup.Token} (h : r.read.1 = some token) :
    r.read.2.waiting < r.waiting := by
  have hpos := Ring.count_pos_of_pop h
  have hpop := r.ring.count_pop
  show r.ring.pop.2.count < r.ring.count
  omega

end Renderer
end DataMarkup
