import DataMarkup.Renderer

/-! Calls on a renderer and what they answer, so that whole histories can be served and compared. -/

namespace DataMarkup

inductive Call
  | feed (tokens : List Data.Token)
  | finish
  | read
  | drain (limit : Option Nat)
  | peek
  | buffered

inductive Answer
  | report (result : Except Failure FeedReport)
  | token (token : Option Markup.Token)
  | tokens (tokens : List Markup.Token)

def Answer.failure? : Answer → Option Failure
  | report (.error failure) => some failure
  | _ => none

namespace Renderer

structure Status where
  depth : Nat
  isFinished : Bool
  levels : Ring.Levels
  deriving DecidableEq

def status (r : Renderer) : Status := ⟨r.depth, r.isFinished, r.ring.levels⟩

def answer (r : Renderer) : Call → Answer × Renderer
  | .feed tokens =>
    match r.feed tokens with
    | (result, r) => (.report result, r)
  | .finish =>
    match r.finish with
    | (result, r) => (.report result, r)
  | .read =>
    match r.read with
    | (token, r) => (.token token, r)
  | .drain limit =>
    match r.unload #[] limit with
    | (out, r) => (.tokens out.toList, r)
  | .peek => (.token r.ring.peek?, r)
  | .buffered => (.tokens r.ring.toList, r)

def serve (r : Renderer) : List Call → List (Answer × Status) × Renderer
  | [] => ([], r)
  | c :: cs =>
    match r.answer c with
    | (a, r) =>
      let s := r.status
      match r.serve cs with
      | (rest, r) => ((a, s) :: rest, r)

end Renderer
end DataMarkup
