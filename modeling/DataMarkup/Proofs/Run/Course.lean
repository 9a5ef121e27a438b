import DataMarkup.Rendering

/-! The course of a run over its input. It goes on from token to token until one has no place; what it
has then accepted is a prefix of the input, and nothing after that prefix matters. -/

namespace DataMarkup

theorem Nesting.length_markup_empty_le {t : Data.Token} (h : empty.fault? t = none) :
    (empty.markup t).length ≤ 3 := by
  cases t with
  | opening kind title => cases title <;> simp [markup, itemBegin, innermost?, empty, Markup.title]
  | closing kind => cases kind <;> simp [fault?, innermost?, empty] at h
  | property name => simp [fault?, innermost?, empty] at h
  | scalar value => simp [markup, itemBegin, itemEnd, innermost?, empty]

namespace Run

variable {run : Run} {t : Data.Token} {us vs ts : List Data.Token} {fault : Fault}

/-- A run that has not begun is the one that everything starts with. -/
def Coherent (run : Run) : Prop := run.phase = .idle → run = start

theorem hasEnded_eq_false_iff :
    run.hasEnded = false ↔ run.phase = .idle ∨ run.phase = .writing := by
  rcases run with ⟨_ | _ | _ | cause, _, _, _, _⟩ <;> simp [hasEnded, isDone, failure?]

theorem failure?_of_going (h : run.hasEnded = false) : run.failure? = none := by
  rcases hasEnded_eq_false_iff.mp h with hp | hp <;> simp [failure?, hp]

theorem isDone_of_going (h : run.hasEnded = false) : run.isDone = false := by
  rcases hasEnded_eq_false_iff.mp h with hp | hp <;> simp [isDone, hp]

theorem failure?_of_isDone (h : run.isDone = true) : run.failure? = none := by
  rcases run with ⟨_ | _ | _ | cause, _, _, _, _⟩ <;> simp_all [isDone, failure?]

theorem isDone_eq_of_hasEnded (h : run.hasEnded = true) : run.isDone = run.failure?.isNone := by
  rcases run with ⟨_ | _ | _ | cause, _, _, _, _⟩ <;> simp_all [hasEnded, isDone, failure?]

theorem hasEnded_of_isDone (h : run.isDone = true) : run.hasEnded = true := by
  rw [hasEnded, h, Bool.true_or]

theorem hasEnded_of_failure? {cause : Malformed} (h : run.failure? = some cause) :
    run.hasEnded = true := by
  rw [hasEnded, h, Option.isSome_some, Bool.or_true]

theorem isDone_of_hasEnded (h : run.hasEnded = true) (hf : run.failure? = none) :
    run.isDone = true := by
  rw [isDone_eq_of_hasEnded h, hf, Option.isNone_none]

theorem wrapper_of_writing (h : run.phase = .writing) : run.wrapper = [] := by
  simp [wrapper, h]

/-! ### One step -/

theorem going_of_step (h : (run.step t).1.hasEnded = false) :
    run.hasEnded = false ∧ run.nesting.fault? t = none := by
  cases hr : run.hasEnded with
  | true =>
    rw [step_of_hasEnded hr, hr] at h
    exact absurd h Bool.noConfusion
  | false =>
    refine ⟨rfl, ?_⟩
    cases hf : run.nesting.fault? t with
    | none => rfl
    | some fault =>
      rw [step_of_fault hr hf, hasEnded_stop] at h
      exact absurd h Bool.noConfusion

theorem hasEnded_start : start.hasEnded = false := rfl

theorem coherent_start : start.Coherent := fun _ => rfl

theorem Coherent.step (h : run.Coherent) (t : Data.Token) : (run.step t).1.Coherent := by
  cases hr : run.hasEnded with
  | true =>
    rw [step_of_hasEnded hr]
    exact h
  | false =>
    cases hf : run.nesting.fault? t with
    | some fault =>
      rw [step_of_fault hr hf]
      exact fun hp => Phase.noConfusion hp
    | none =>
      rw [step_of_accepted hr hf]
      exact fun hp => Phase.noConfusion hp

theorem length_markup_step_le (h : run.Coherent) (t : Data.Token) :
    (run.step t).2.length ≤ maxMarkupPerToken := by
  cases hr : run.hasEnded with
  | true =>
    rw [step_of_hasEnded hr]
    exact Nat.zero_le _
  | false =>
    cases hf : run.nesting.fault? t with
    | some fault =>
      rw [step_of_fault hr hf]
      exact Nat.zero_le _
    | none =>
      rw [step_of_accepted hr hf, List.length_append]
      -- The wrapper takes a place of its own, but then no item begins.
      by_cases hp : run.phase = .idle
      · have hempty : run.nesting = .empty := by
          rw [h hp]
          rfl
        have hw : run.wrapper.length = 1 := by simp [wrapper, hp]
        have hm : (run.nesting.markup t).length ≤ 3 := by
          rw [hempty] at hf ⊢
          exact Nesting.length_markup_empty_le hf
        rw [hw, Nat.add_comm]
        exact Nat.succ_le_succ hm
      · have hw : run.wrapper.length = 0 := by simp [wrapper, hp]
        rw [hw, Nat.zero_add]
        exact run.nesting.length_markup_le t

/-! ### Many steps -/

theorem Coherent.after (h : run.Coherent) (ts : List Data.Token) : (run.after ts).Coherent := by
  induction ts generalizing run with
  | nil => exact h
  | cons t ts ih => exact ih (h.step t)

theorem going_of_after (h : (run.after ts).hasEnded = false) : run.hasEnded = false := by
  cases hr : run.hasEnded with
  | true =>
    rw [after_of_hasEnded hr, hr] at h
    exact absurd h Bool.noConfusion
  | false => rfl

theorem going_of_append (h : (run.after (us ++ vs)).hasEnded = false) :
    (run.after us).hasEnded = false := by
  rw [after_append] at h
  exact going_of_after h

theorem accepted_after (h : (run.after ts).hasEnded = false) :
    (run.after ts).accepted = run.accepted + ts.length := by
  induction ts generalizing run with
  | nil => rfl
  | cons t ts ih =>
    obtain ⟨hr, hf⟩ := going_of_step (going_of_after h)
    have hstep : (run.step t).1.accepted = run.accepted + 1 := by
      rw [step_of_accepted hr hf]
      rfl
    rw [after, ih h, hstep, List.length_cons, Nat.add_assoc, Nat.add_comm 1]

theorem accepted_after_start (h : (start.after ts).hasEnded = false) :
    (start.after ts).accepted = ts.length := by
  rw [accepted_after h]
  exact Nat.zero_add _

theorem phase_after (h : (run.after ts).hasEnded = false) (hne : ts ≠ []) :
    (run.after ts).phase = .writing := by
  induction ts generalizing run with
  | nil => exact absurd rfl hne
  | cons t ts ih =>
    cases ts with
    | nil =>
      obtain ⟨hr, hf⟩ := going_of_step h
      rw [after, step_of_accepted hr hf]
      rfl
    | cons u us => exact ih h (List.cons_ne_nil u us)

theorem going_or_fault (h : run.hasEnded = false) (ts : List Data.Token) :
    (run.after ts).hasEnded = false ∨
      ∃ us t vs fault, ts = us ++ t :: vs ∧ (run.after us).hasEnded = false ∧
        (run.after us).nesting.fault? t = some fault := by
  induction ts generalizing run with
  | nil => exact .inl h
  | cons t ts ih =>
    cases hf : run.nesting.fault? t with
    | some fault => exact .inr ⟨[], t, ts, fault, rfl, h, hf⟩
    | none =>
      have hstep : (run.step t).1.hasEnded = false := by
        rw [step_of_accepted h hf]
        exact hasEnded_accept run t
      rcases ih hstep with hgo | ⟨us, u, vs, fault, rfl, hgo, hu⟩
      · exact .inl hgo
      · exact .inr ⟨t :: us, u, vs, fault, rfl, hgo, hu⟩

theorem after_cons_of_fault (h : run.hasEnded = false) (hf : run.nesting.fault? t = some fault)
    (ts : List Data.Token) : run.after (t :: ts) = run.stop fault := by
  rw [after, step_of_fault h hf, after_of_hasEnded (hasEnded_stop _ _)]

theorem markup_cons_of_fault (h : run.hasEnded = false) (hf : run.nesting.fault? t = some fault)
    (ts : List Data.Token) : run.markup (t :: ts) = [] := by
  rw [markup, step_of_fault h hf, markup_of_hasEnded (hasEnded_stop _ _), List.append_nil]

theorem after_of_fault (h : (run.after us).hasEnded = false)
    (hf : (run.after us).nesting.fault? t = some fault) (vs : List Data.Token) :
    run.after (us ++ t :: vs) = (run.after us).stop fault := by
  rw [after_append, after_cons_of_fault h hf]

theorem markup_of_fault (h : (run.after us).hasEnded = false)
    (hf : (run.after us).nesting.fault? t = some fault) (vs : List Data.Token) :
    run.markup (us ++ t :: vs) = run.markup us := by
  rw [markup_append, markup_cons_of_fault h hf, List.append_nil]

theorem hasEnded_after_concat_iff (h : (run.after us).hasEnded = false) :
    (run.after (us ++ [t])).hasEnded = true ↔
      ∃ fault, (run.after us).nesting.fault? t = some fault := by
  rw [after_append, after, after]
  cases hf : (run.after us).nesting.fault? t with
  | some fault =>
    rw [step_of_fault h hf]
    exact iff_of_true (hasEnded_stop _ _) ⟨fault, rfl⟩
  | none =>
    rw [step_of_accepted h hf, hasEnded_accept]
    simp

theorem after_concat_of_going (h : (run.after (us ++ [t])).hasEnded = false) :
    (run.after us).hasEnded = false ∧ (run.after us).nesting.fault? t = none ∧
      run.after (us ++ [t]) = (run.after us).accept t := by
  rw [after_append, after, after] at h ⊢
  obtain ⟨hgo, hf⟩ := going_of_step h
  exact ⟨hgo, hf, by rw [step_of_accepted hgo hf]⟩

theorem markup_concat_of_going (h : (run.after (us ++ [t])).hasEnded = false) :
    run.markup (us ++ [t]) =
      run.markup us ++ ((run.after us).wrapper ++ (run.after us).nesting.markup t) := by
  obtain ⟨hgo, hf, -⟩ := after_concat_of_going h
  rw [markup_append, markup, markup, step_of_accepted hgo hf, List.append_nil]

theorem wrapper_after_start (h : (start.after us).hasEnded = false) :
    (start.after us).wrapper = if us.isEmpty then [Markup.Tag.div.start] else [] := by
  cases us with
  | nil => rfl
  | cons t us => exact wrapper_of_writing (phase_after h (List.cons_ne_nil t us))

/-! ### The end of the input -/

theorem Coherent.finish (h : run.Coherent) : run.finish.1.Coherent := by
  unfold Run.finish
  split
  · exact h
  · split
    · exact fun hp => Phase.noConfusion hp
    · exact fun hp => Phase.noConfusion hp

theorem depth_finish (run : Run) : run.finish.1.depth = run.depth := by
  unfold finish
  split
  · rfl
  · split <;> rfl

theorem failure?_stop (run : Run) (fault : Fault) :
    (run.stop fault).failure? = some ⟨run.accepted, fault⟩ := rfl

theorem isDone_stop (run : Run) (fault : Fault) : (run.stop fault).isDone = false := rfl

theorem finish_of_unclosed (h : run.hasEnded = false) (hd : run.depth ≠ 0) :
    run.finish = (run.stop .unclosedContainer, []) := by
  simp [finish, h, hd]

theorem failure?_finish_of_closed (h : run.hasEnded = false) (hd : run.depth = 0) :
    run.finish.1.failure? = none := by
  simp [finish, h, hd, failure?]

theorem isDone_finish_of_closed (h : run.hasEnded = false) (hd : run.depth = 0) :
    run.finish.1.isDone = true := by
  simp [finish, h, hd, isDone]

theorem markup_finish_of_closed (h : run.hasEnded = false) (hd : run.depth = 0) :
    run.finish.2 = if run.phase = .writing then [.elementEnd] else [] := by
  simp [finish, h, hd]

theorem markup_finish_after_start (h : (start.after ts).hasEnded = false)
    (hd : (start.after ts).depth = 0) :
    (start.after ts).finish.2 = if ts = [] then [] else [.elementEnd] := by
  rw [markup_finish_of_closed h hd]
  by_cases hts : ts = []
  · rw [hts]
    rfl
  · rw [if_pos (phase_after h hts), if_neg hts]

theorem length_markup_finish_le (run : Run) : run.finish.2.length ≤ 1 := by
  unfold finish
  split
  · exact Nat.zero_le _
  · split
    · exact Nat.zero_le _
    · dsimp only
      split <;> simp

end Run
end DataMarkup
