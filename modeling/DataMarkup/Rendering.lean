import DataMarkup.Run

/-! Whole inputs. A run is carried over a list of tokens; the markup of the parts of a list is the
markup of the list, cut in parts. -/

namespace DataMarkup

namespace Run

def after (run : Run) : List Data.Token → Run
  | [] => run
  | t :: ts => (run.step t).1.after ts

def markup (run : Run) : List Data.Token → List Markup.Token
  | [] => []
  | t :: ts => (run.step t).2 ++ (run.step t).1.markup ts

theorem after_append (run : Run) (us vs : List Data.Token) :
    run.after (us ++ vs) = (run.after us).after vs := by
  induction us generalizing run with
  | nil => rfl
  | cons t us ih => exact ih _

theorem markup_append (run : Run) (us vs : List Data.Token) :
    run.markup (us ++ vs) = run.markup us ++ (run.after us).markup vs := by
  induction us generalizing run with
  | nil => rfl
  | cons t us ih => simp only [List.cons_append, markup, after, ih, List.append_assoc]

theorem markup_prefix_markup {us ts : List Data.Token} (run : Run) (h : us <+: ts) :
    run.markup us <+: run.markup ts := by
  obtain ⟨vs, rfl⟩ := h
  rw [markup_append]
  exact List.prefix_append _ _

theorem after_of_hasEnded {run : Run} (h : run.hasEnded = true) (ts : List Data.Token) :
    run.after ts = run := by
  induction ts with
  | nil => rfl
  | cons t ts ih => rw [after, step_of_hasEnded h, ih]

theorem markup_of_hasEnded {run : Run} (h : run.hasEnded = true) (ts : List Data.Token) :
    run.markup ts = [] := by
  induction ts with
  | nil => rfl
  | cons t ts ih => rw [markup, step_of_hasEnded h, ih, List.nil_append]

def advance (run : Run) (out : Array Markup.Token) : List Data.Token → Run × Array Markup.Token
  | [] => (run, out)
  | t :: ts =>
    match run.step t with
    | (run, tokens) => run.advance (out ++ tokens) ts

theorem advance_eq (run : Run) (out : Array Markup.Token) (ts : List Data.Token) :
    run.advance out ts = (run.after ts, out ++ run.markup ts) := by
  induction ts generalizing run out with
  | nil => simp [advance, after, markup]
  | cons t ts ih =>
    simp only [advance, after, markup, ih, Prod.mk.injEq, true_and]
    apply Array.ext'
    simp

end Run

structure Rendering where
  markup : List Markup.Token
  run : Run
  deriving BEq

def render (tokens : List Data.Token) : Rendering :=
  match Run.start.advance #[] tokens with
  | (run, out) =>
    match run.finish with
    | (run, rest) => ⟨(out ++ rest).toList, run⟩

namespace Rendering

def failure? (r : Rendering) : Option Malformed := r.run.failure?

def document (r : Rendering) : Except Failure (List Markup.Token) :=
  match r.failure? with
  | some cause => .error (.malformed cause)
  | none => .ok r.markup

end Rendering

theorem markup_render (ts : List Data.Token) :
    (render ts).markup = Run.start.markup ts ++ (Run.start.after ts).finish.2 := by
  simp [render, Run.advance_eq]

theorem run_render (ts : List Data.Token) :
    (render ts).run = (Run.start.after ts).finish.1 := by
  simp [render, Run.advance_eq]

end DataMarkup
