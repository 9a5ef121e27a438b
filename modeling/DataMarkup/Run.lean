import DataMarkup.Event

/-! A run over data tokens, one step each. A token that has no place stops the run and leaves no other
trace; so does an end of input with containers open. What has ended stays ended. -/

namespace DataMarkup

inductive Phase
  | idle
  | writing
  | done
  | failed (cause : Malformed)
  deriving DecidableEq

/-- `accepted` counts tokens, `deepest` is the greatest depth so far, and the journal has the newest
event first. -/
structure Run where
  phase : Phase
  nesting : Nesting
  accepted : Nat
  deepest : Nat
  journal : List Event
  deriving DecidableEq

namespace Run

def start : Run := ⟨.idle, .empty, 0, 0, []⟩

instance : Inhabited Run := ⟨start⟩

def depth (run : Run) : Nat := run.nesting.depth

def isDone (run : Run) : Bool := run.phase = .done

def failure? (run : Run) : Option Malformed :=
  match run.phase with
  | .failed cause => some cause
  | _ => none

def hasEnded (run : Run) : Bool := run.isDone || run.failure?.isSome

def wrapper (run : Run) : List Markup.Token :=
  if run.phase = .idle then [Markup.Tag.div.start] else []

def events (run : Run) : List Event := run.journal.reverse

def stop (run : Run) (fault : Fault) : Run :=
  { run with
    phase := .failed ⟨run.accepted, fault⟩
    journal := .stopped ⟨run.accepted, fault⟩ :: run.journal }

def accept (run : Run) (token : Data.Token) : Run where
  phase := .writing
  nesting := run.nesting.after token
  accepted := run.accepted + 1
  deepest := max run.deepest (run.nesting.after token).depth
  journal := (run.nesting.event? token).toList ++ run.journal

def step (run : Run) (token : Data.Token) : Run × List Markup.Token :=
  if run.hasEnded then (run, [])
  else
    match run.nesting.fault? token with
    | some fault => (run.stop fault, [])
    | none => (run.accept token, run.wrapper ++ run.nesting.markup token)

def finish (run : Run) : Run × List Markup.Token :=
  if run.hasEnded then (run, [])
  else if run.depth ≠ 0 then (run.stop .unclosedContainer, [])
  else
    ({ run with phase := .done, journal := .finished run.accepted run.deepest :: run.journal },
      if run.phase = .writing then [.elementEnd] else [])

def maxMarkupPerToken : Nat := 4

theorem step_of_hasEnded {run : Run} (h : run.hasEnded = true) (t : Data.Token) :
    run.step t = (run, []) := by
  simp [step, h]

theorem finish_of_hasEnded {run : Run} (h : run.hasEnded = true) : run.finish = (run, []) := by
  simp [finish, h]

theorem step_of_fault {run : Run} (h : run.hasEnded = false) {t : Data.Token} {fault : Fault}
    (hf : run.nesting.fault? t = some fault) : run.step t = (run.stop fault, []) := by
  simp [step, h, hf]

theorem step_of_accepted {run : Run} (h : run.hasEnded = false) {t : Data.Token}
    (hf : run.nesting.fault? t = none) :
    run.step t = (run.accept t, run.wrapper ++ run.nesting.markup t) := by
  simp [step, h, hf]

theorem hasEnded_stop (run : Run) (fault : Fault) : (run.stop fault).hasEnded = true := by
  simp [hasEnded, stop, failure?]

theorem hasEnded_accept (run : Run) (t : Data.Token) : (run.accept t).hasEnded = false := by
  simp [hasEnded, accept, failure?, isDone]

theorem hasEnded_finish (run : Run) : run.finish.1.hasEnded = true := by
  unfold finish
  split
  · assumption
  · split
    · exact hasEnded_stop ..
    · simp [hasEnded, isDone]

end Run
end DataMarkup
