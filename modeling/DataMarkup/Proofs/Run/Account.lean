import DataMarkup.Data.Account
import DataMarkup.Proofs.Nesting.Misplacement

/-! The journal of a run that goes on is the account that is due for its tokens, and its counts are those
of the tokens. -/

namespace DataMarkup

namespace Nesting

variable {n : Nesting} {t : Data.Token} {us : List Data.Token}

theorem Summarizes.event?_eq (h : n.Summarizes us) (hf : n.fault? t = none) :
    n.event? t = Data.event? us t := by
  have hdepth := (h.step hf).length_unclosed
  cases t with
  | opening kind title =>
    rw [Data.event?, hdepth]
    rfl
  | closing kind =>
    -- The frame on top is a settled one of the kind that is closed.
    rw [Data.event?, hdepth, h.innermost?_eq, fault?_closing_eq_none_iff.mp hf, Option.map_some,
      Option.map_some, kind.kind_frame, event?, fault?_closing_eq_none_iff.mp hf]
    rfl
  | property name => rfl
  | scalar value => rfl

def Levels (n : Nesting) (us : List Data.Token) : Prop :=
  Data.openings us = Data.closings us + n.depth

theorem Levels.step (h : n.Levels us) (hf : n.fault? t = none) :
    (n.after t).Levels (us ++ [t]) := by
  rw [Levels] at h
  rw [Levels, Data.openings_append, Data.closings_append, h]
  cases t with
  | opening kind title =>
    show _ + 1 = _ + 0 + (n.depth + 1)
    omega
  | closing kind =>
    -- A container is open, so taking one from the depth is a true subtraction.
    obtain ⟨f, hfs⟩ := List.head?_eq_some_iff.mp (fault?_closing_eq_none_iff.mp hf)
    have hpos : 0 < n.depth := by
      rw [n.depth_eq, hfs]
      exact Nat.succ_pos _
    show _ + 0 = _ + 1 + (n.depth - 1)
    omega
  | property name => rfl
  | scalar value => rfl

end Nesting

namespace Run

variable {run : Run} {ts : List Data.Token}

theorem openings_eq_closings_add_depth (h : (start.after ts).hasEnded = false) :
    Data.openings ts = Data.closings ts + (start.after ts).depth :=
  holds_of_going (P := Nesting.Levels) rfl Nesting.Levels.step h

theorem openings_sub_closings (h : (start.after ts).hasEnded = false) :
    Data.openings ts - Data.closings ts = (start.after ts).depth := by
  rw [openings_eq_closings_add_depth h, Nat.add_sub_cancel_left]

theorem events_accept (run : Run) (t : Data.Token) :
    (run.accept t).events = run.events ++ (run.nesting.event? t).toList := by
  rw [events, accept, List.reverse_append]
  cases run.nesting.event? t <;> rfl

theorem events_stop (run : Run) (fault : Fault) :
    (run.stop fault).events = run.events ++ [.stopped ⟨run.accepted, fault⟩] :=
  List.reverse_cons

theorem events_finish_of_closed (h : run.hasEnded = false) (hd : run.depth = 0) :
    run.finish.1.events = run.events ++ [.finished run.accepted run.deepest] := by
  simp [finish, h, hd, events]

theorem events_after (h : (start.after ts).hasEnded = false) :
    (start.after ts).events = Data.account ts := by
  -- Journal and account both grow at the end.
  induction ts using List.reverseRecOn with
  | nil => rfl
  | append_singleton us t ih =>
    obtain ⟨hgo, hf, hafter⟩ := after_concat_of_going h
    rw [hafter, events_accept, ih hgo, (summarizes_of_going hgo).event?_eq hf, Data.account_concat]

theorem deepest_after (h : (start.after ts).hasEnded = false) :
    (start.after ts).deepest = Data.deepest ts := by
  induction ts using List.reverseRecOn with
  | nil => rfl
  | append_singleton us t ih =>
    obtain ⟨hgo, -, hafter⟩ := after_concat_of_going h
    rw [Data.deepest_concat, openings_sub_closings h, ← ih hgo, hafter]
    rfl

end Run
end DataMarkup
