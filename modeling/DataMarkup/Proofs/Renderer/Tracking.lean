import DataMarkup.Proofs.Nesting.Summary
import DataMarkup.Proofs.Renderer.Absorption

/-! A renderer and its history. What was accepted and what was taken out determine the run up to its
ending, and the markup in the ring: none is lost, doubled, moved or made up. -/

namespace DataMarkup

variable {ts us : List Data.Token} {out ms : List Markup.Token} {fault : Fault}

/-- The run has accepted the tokens and goes on, has stopped after them, or is done with them. -/
inductive Run.Reaches (ts : List Data.Token) : Run → Prop
  | going (h : (start.after ts).hasEnded = false) : Reaches ts (start.after ts)
  | stopped (h : (start.after ts).hasEnded = false) (fault : Fault) :
    Reaches ts ((start.after ts).stop fault)
  | done (h : (start.after ts).hasEnded = false) (hd : (start.after ts).depth = 0) :
    Reaches ts (start.after ts).finish.1

theorem Run.Reaches.going_after {run : Run} (h : Reaches ts run) :
    (start.after ts).hasEnded = false := by
  cases h <;> assumption

theorem Run.Reaches.eq_after {run : Run} (h : Reaches ts run) (hgo : run.hasEnded = false) :
    run = start.after ts := by
  cases h with
  | going h => rfl
  | stopped h fault =>
    rw [hasEnded_stop] at hgo
    exact absurd hgo Bool.noConfusion
  | done h hd =>
    rw [hasEnded_finish] at hgo
    exact absurd hgo Bool.noConfusion

theorem Run.Reaches.coherent {run : Run} (h : Reaches ts run) : run.Coherent := by
  have hafter := coherent_start.after ts
  cases h with
  | going h => exact hafter
  | stopped h fault => exact fun hp => Phase.noConfusion hp
  | done h hd => exact hafter.finish

theorem Run.Reaches.index_eq {run : Run} {cause : Malformed} (h : Reaches ts run)
    (hc : run.failure? = some cause) : cause.index = ts.length := by
  cases h with
  | going h =>
    rw [failure?_of_going h] at hc
    exact absurd hc.symm (Option.some_ne_none _)
  | stopped h fault =>
    rw [failure?_stop, Option.some.injEq] at hc
    rw [← hc]
    exact accepted_after_start h
  | done h hd =>
    rw [failure?_finish_of_closed h hd] at hc
    exact absurd hc.symm (Option.some_ne_none _)

theorem Run.Reaches.depth_eq {run : Run} (h : Reaches ts run) :
    run.depth = (Data.unclosed ts).length := by
  cases h with
  | going h => exact depth_after h
  | stopped h fault => exact depth_after h
  | done h hd => rw [depth_finish, depth_after h]

namespace Renderer

variable {r s : Renderer}

def wrapperEnd (r : Renderer) (ts : List Data.Token) : List Markup.Token :=
  if r.isFinished = true ∧ ts ≠ [] then [.elementEnd] else []

structure Tracks (r : Renderer) (ts : List Data.Token) (out : List Markup.Token) : Prop where
  wellFormed : r.ring.WellFormed
  maxMarkup_le : Run.maxMarkupPerToken ≤ r.ring.capacity
  reaches : Run.Reaches ts r.run
  conserved : out ++ r.ring.toList = Run.start.markup ts ++ r.wrapperEnd ts

theorem tracks_ofCapacity (n : Nat) : (ofCapacity n).Tracks [] [] :=
  ⟨(sound_ofCapacity n).wellFormed, (sound_ofCapacity n).maxMarkup_le, .going rfl, rfl⟩

theorem wrapperEnd_of_not_isFinished (h : r.isFinished = false) (ts : List Data.Token) :
    r.wrapperEnd ts = [] := by
  simp [wrapperEnd, h]

theorem wrapperEnd_of_finish (h : (Run.start.after ts).hasEnded = false)
    (hrun : r.run = (Run.start.after ts).finish.1) :
    r.wrapperEnd ts = (Run.start.after ts).finish.2 := by
  by_cases hd : (Run.start.after ts).depth = 0
  · rw [Run.markup_finish_after_start h hd, wrapperEnd, isFinished, hrun,
      Run.isDone_finish_of_closed h hd]
    simp
  · rw [Run.finish_of_unclosed h hd] at hrun ⊢
    apply wrapperEnd_of_not_isFinished
    rw [isFinished, hrun, Run.isDone_stop]

namespace Tracks

theorem sound (h : r.Tracks ts out) : r.Sound := ⟨h.reaches.coherent, h.wellFormed, h.maxMarkup_le⟩

theorem accepted_eq (h : r.Tracks ts out) (hgo : r.run.hasEnded = false) :
    r.run.accepted = ts.length := by
  rw [h.reaches.eq_after hgo, Run.accepted_after_start h.reaches.going_after]

theorem conserved_of_going (h : r.Tracks ts out) (hgo : r.run.hasEnded = false) :
    out ++ r.ring.toList = Run.start.markup ts := by
  rw [h.conserved, wrapperEnd_of_not_isFinished (Run.isDone_of_going hgo), List.append_nil]

theorem absorbs (h : r.Tracks ts out) (hgo : r.run.hasEnded = false) (hs : r.Absorbs us s) :
    s.Tracks (ts ++ us) out := by
  have hrun : s.run = Run.start.after (ts ++ us) := by
    rw [hs.run_eq, h.reaches.eq_after hgo, Run.after_append]
  have hsgo := hs.going
  have hbefore := h.conserved_of_going hgo
  refine ⟨hs.holds.wellFormed, ?_, ?_, ?_⟩
  · rw [hs.holds.capacity_eq]
    exact h.maxMarkup_le
  · rw [hrun] at hsgo ⊢
    exact .going hsgo
  · rw [wrapperEnd_of_not_isFinished (Run.isDone_of_going hsgo), hs.holds.items_eq,
      ← List.append_assoc, hbefore, h.reaches.eq_after hgo, Run.markup_append, List.append_nil]

theorem stop (h : r.Tracks ts out) (hgo : r.run.hasEnded = false) (fault : Fault) :
    Tracks ⟨r.run.stop fault, r.ring⟩ ts out := by
  refine ⟨h.wellFormed, h.maxMarkup_le, ?_, ?_⟩
  · rw [h.reaches.eq_after hgo]
    exact .stopped h.reaches.going_after fault
  · have hdone : isFinished ⟨r.run.stop fault, r.ring⟩ = false := Run.isDone_stop r.run fault
    rw [h.conserved_of_going hgo, wrapperEnd_of_not_isFinished hdone, List.append_nil]

theorem close {ring : Ring Markup.Token} (h : r.Tracks ts out) (hgo : r.run.hasEnded = false)
    (hd : r.depth = 0)
    (hring : ring.Holds r.ring.capacity (r.ring.toList ++ r.run.finish.2)) :
    Tracks ⟨r.run.finish.1, ring⟩ ts out := by
  have hrun := h.reaches.eq_after hgo
  have hbefore := h.conserved_of_going hgo
  refine ⟨hring.wellFormed, ?_, ?_, ?_⟩
  · rw [hring.capacity_eq]
    exact h.maxMarkup_le
  · rw [depth, hrun] at hd
    rw [hrun]
    exact .done h.reaches.going_after hd
  · have hend := wrapperEnd_of_finish (r := ⟨r.run.finish.1, ring⟩) h.reaches.going_after
      (congrArg (fun run => run.finish.1) hrun)
    rw [hring.items_eq, ← List.append_assoc, hbefore, hend, hrun]

theorem taken {ring : Ring Markup.Token} {k : Nat} (h : r.Tracks ts out)
    (hring : ring.Holds r.ring.capacity (r.ring.toList.drop k)) :
    Tracks ⟨r.run, ring⟩ ts (out ++ r.ring.toList.take k) := by
  refine ⟨hring.wellFormed, ?_, h.reaches, ?_⟩
  · rw [hring.capacity_eq]
    exact h.maxMarkup_le
  · rw [hring.items_eq, List.append_assoc, List.take_append_drop]
    exact h.conserved

end Tracks
end Renderer
end DataMarkup
