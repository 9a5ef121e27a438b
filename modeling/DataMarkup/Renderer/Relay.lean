import DataMarkup.Renderer

/-! From chunks of input to markup through a small ring: feed what is left of a chunk, read, feed again.
A round in which nothing moves ends the relay, so it always ends. -/

namespace DataMarkup

namespace Relay

/-- `refused` counts feeds that took nothing, `deepest` is the greatest depth seen after a feed. -/
structure Tally where
  feeds : Nat
  refused : Nat
  finishes : Nat
  deepest : Nat
  deriving DecidableEq, Inhabited

inductive Halt
  | failed (failure : Failure)
  | stalled
  deriving DecidableEq

structure State where
  renderer : Renderer
  out : Array Markup.Token
  tally : Tally

namespace State

def start (capacity : Nat) : State := ⟨.ofCapacity capacity, #[], ⟨0, 0, 0, 0⟩⟩

def waiting (s : State) : Nat := s.renderer.waiting

def calls (s : State) : Nat := s.tally.feeds + s.tally.finishes

def feed (s : State) (tokens : List Data.Token) : Except Failure Nat × State :=
  match s with
  | ⟨renderer, out, tally⟩ =>
    match renderer.feed tokens with
    | (result, renderer) =>
      let tally :=
        { tally with feeds := tally.feeds + 1, deepest := max tally.deepest renderer.depth }
      match result with
      | .error failure => (.error failure, ⟨renderer, out, tally⟩)
      | .ok report =>
        (.ok report.consumed,
          ⟨renderer, out,
            { tally with refused := tally.refused + if report.consumed = 0 then 1 else 0 }⟩)

def finish (s : State) : Except Failure Unit × State :=
  match s with
  | ⟨renderer, out, tally⟩ =>
    let tally := { tally with finishes := tally.finishes + 1 }
    match renderer.finish with
    | (.error failure, renderer) => (.error failure, ⟨renderer, out, tally⟩)
    | (.ok _, renderer) => (.ok (), ⟨renderer, out, tally⟩)

def unload (s : State) (limit : Option Nat) : State :=
  match s with
  | ⟨renderer, out, tally⟩ =>
    match renderer.unload out limit with
    | (out, renderer) => ⟨renderer, out, tally⟩

theorem lex_of_moved {chunk : List Data.Token} {consumed before after : Nat}
    (hrest : ¬(chunk.drop consumed).isEmpty) (hmove : 0 < consumed ∨ after < before) :
    Prod.Lex (· < ·) (· < ·) ((chunk.drop consumed).length, after) (chunk.length, before) := by
  rw [List.isEmpty_iff, List.drop_eq_nil_iff] at hrest
  rcases Nat.eq_zero_or_pos consumed with rfl | hpos
  · exact Prod.Lex.right _ (hmove.resolve_left (Nat.lt_irrefl 0))
  · exact Prod.Lex.left _ _ (by rw [List.length_drop]; omega)

def sendChunk (limits : Nat → Option Nat) (chunk : List Data.Token) (s : State) :
    Option Halt × State :=
  let before := s.waiting
  match s.feed chunk with
  | (.error failure, s) => (some (.failed failure), s)
  | (.ok consumed, s) =>
    let s := s.unload (limits s.calls)
    if (chunk.drop consumed).isEmpty then (none, s)
    else if 0 < consumed ∨ s.waiting < before then s.sendChunk limits (chunk.drop consumed)
    else (some .stalled, s)
  termination_by (chunk.length, s.waiting)
  decreasing_by exact lex_of_moved ‹_› ‹_›

def send (limits : Nat → Option Nat) (s : State) : List (List Data.Token) → Option Halt × State
  | [] => (none, s)
  | chunk :: chunks =>
    match s.sendChunk limits chunk with
    | (none, s) => s.send limits chunks
    | (some halt, s) => (some halt, s)

def close (limits : Nat → Option Nat) (s : State) : Option Halt × State :=
  if s.renderer.isFinished then (none, s)
  else
    let before := s.waiting
    match s.finish with
    | (.error failure, s) => (some (.failed failure), s)
    | (.ok _, s) =>
      let s := s.unload (limits s.calls)
      if s.renderer.isFinished then (none, s)
      else if s.waiting < before then s.close limits
      else (some .stalled, s)
  termination_by s.waiting

end State

structure Report where
  markup : List Markup.Token
  halt? : Option Halt
  tally : Tally
  renderer : Renderer

end Relay

/-- Sends the chunks through a renderer and closes it, reading up to `limits k` tokens after call number
`k`; whatever happens, all that is buffered at the end is read as well. -/
def relayBy (capacity : Nat) (limits : Nat → Option Nat) (chunks : List (List Data.Token)) :
    Relay.Report :=
  let (halt?, s) :=
    match (Relay.State.start capacity).send limits chunks with
    | (none, s) => s.close limits
    | (some halt, s) => (some halt, s)
  let s := s.unload none
  ⟨s.out.toList, halt?, s.tally, s.renderer⟩

def relay (capacity : Nat) (limit : Option Nat) (chunks : List (List Data.Token)) : Relay.Report :=
  relayBy capacity (fun _ => limit) chunks

end DataMarkup
