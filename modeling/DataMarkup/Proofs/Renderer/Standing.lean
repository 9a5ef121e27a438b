import DataMarkup.Proofs.Pull.Laziness
import DataMarkup.Proofs.Renderer.Finality

/-! How a run stands sums up the tokens that it has accepted, whichever calls have led there: the frames
tell which containers are open and which properties wait for their value, the counts how many tokens there
were and how deep they went. A failure changes none of it. -/

namespace DataMarkup

namespace Nesting

variable {n : Nesting} {t : Data.Token}

def OuterAwait (n : Nesting) : Prop :=
  ∀ pending, Frame.object pending ∈ n.frames.tail → pending = true

theorem tail_frames_update (n : Nesting) (g : Frame → Frame) :
    (n.update g).frames.tail = n.frames.tail := by
  rw [frames_update]
  cases n.frames <;> rfl

theorem OuterAwait.update (h : n.OuterAwait) (g : Frame → Frame) : (n.update g).OuterAwait := by
  rwa [OuterAwait, tail_frames_update]

theorem OuterAwait.pop (h : n.OuterAwait) : n.pop.OuterAwait := by
  intro pending hmem
  exact h pending (List.mem_of_mem_tail hmem)

theorem innermost?_or_mem_tail {f : Frame} (h : f ∈ n.frames) :
    n.innermost? = some f ∨ f ∈ n.frames.tail := by
  rw [innermost?]
  cases hframes : n.frames with
  | nil =>
    rw [hframes] at h
    exact absurd h List.not_mem_nil
  | cons g gs =>
    rw [hframes] at h
    rcases List.mem_cons.mp h with rfl | hbelow
    · exact .inl rfl
    · exact .inr hbelow

theorem OuterAwait.push (h : n.OuterAwait) (hready : n.Ready) (f : Frame) :
    (n.push f).OuterAwait := by
  intro pending hmem
  rw [frames_push, List.tail_cons] at hmem
  rcases innermost?_or_mem_tail hmem with htop | hbelow
  · cases pending with
    | true => rfl
    | false => exact absurd htop hready
  · exact h pending hbelow

theorem OuterAwait.after (h : n.OuterAwait) (hf : n.fault? t = none) :
    (n.after t).OuterAwait := by
  cases t with
  | opening kind title => exact h.push ((fault?_eq_none_iff_ready rfl).mp hf) _
  | closing kind => exact h.pop.update _
  | property name => exact h.update _
  | scalar value => exact h.update _

end Nesting

namespace Run

variable {run : Run} {ts : List Data.Token}

/-- They differ at most in how they go on and in what they have told. -/
structure Agrees (run other : Run) : Prop where
  nesting_eq : run.nesting = other.nesting
  accepted_eq : run.accepted = other.accepted
  deepest_eq : run.deepest = other.deepest

theorem Agrees.refl (run : Run) : run.Agrees run := ⟨rfl, rfl, rfl⟩

theorem agrees_stop (run : Run) (fault : Fault) : (run.stop fault).Agrees run := ⟨rfl, rfl, rfl⟩

theorem agrees_finish (run : Run) : run.finish.1.Agrees run := by
  unfold finish
  split
  · exact .refl run
  · split <;> exact ⟨rfl, rfl, rfl⟩

structure SumsUp (run : Run) (ts : List Data.Token) : Prop where
  kinds_eq : run.nesting.frames.map Frame.kind = Data.unclosed ts
  depth_eq : Data.openings ts = Data.closings ts + run.depth
  outer : ∀ pending, Frame.object pending ∈ run.nesting.frames.tail → pending = true
  innermost : ∀ pending, run.nesting.innermost? = some (.object pending) →
    pending = Data.pending ts
  accepted_eq : run.accepted = ts.length
  deepest_eq : run.deepest = Data.deepest ts
  of_idle : run.phase = .idle → ts = [] ∧ run.nesting = .empty
  of_done : run.phase = .done → run.nesting = .empty

theorem Reaches.agrees (h : Reaches ts run) : run.Agrees (start.after ts) := by
  cases h with
  | going h => exact .refl _
  | stopped h fault => exact agrees_stop _ fault
  | done h hd => exact agrees_finish _

theorem outerAwait_of_going (h : (start.after ts).hasEnded = false) :
    (start.after ts).nesting.OuterAwait := by
  have hempty : Nesting.empty.OuterAwait := fun pending hmem => absurd hmem List.not_mem_nil
  exact holds_of_going (P := fun n _ => n.OuterAwait) hempty Nesting.OuterAwait.after h

theorem Reaches.eq_nil_of_idle (h : Reaches ts run) (hidle : run.phase = .idle) : ts = [] := by
  have hgo : run.hasEnded = false := hasEnded_eq_false_iff.mpr (.inl hidle)
  have hafter := h.eq_after hgo
  rw [h.coherent hidle] at hafter
  have hcount : start.accepted = ts.length := by
    rw [hafter]
    exact accepted_after_start h.going_after
  exact List.eq_nil_of_length_eq_zero hcount.symm

theorem Reaches.sumsUp (h : Reaches ts run) : run.SumsUp ts := by
  have hgo := h.going_after
  have hagrees := h.agrees
  have hsummary := summarizes_of_going hgo
  constructor
  · rw [hagrees.nesting_eq, hsummary.unclosed_eq]
    rfl
  · rw [openings_eq_closings_add_depth hgo, depth, depth, hagrees.nesting_eq]
  · rw [hagrees.nesting_eq]
    exact outerAwait_of_going hgo
  · intro pending htop
    rw [hagrees.nesting_eq] at htop
    exact ((hsummary.innermost?_eq_object_iff pending).mp htop).2.symm
  · rw [hagrees.accepted_eq, accepted_after_start hgo]
  · rw [hagrees.deepest_eq, deepest_after hgo]
  · intro hidle
    refine ⟨h.eq_nil_of_idle hidle, ?_⟩
    rw [h.coherent hidle]
    rfl
  · intro hdone
    have hisDone : run.isDone = true := decide_eq_true hdone
    exact Nesting.eq_empty_of_depth_eq_zero (h.depth_eq_zero hisDone)

end Run

namespace Pull

open Run

variable {ts : List Data.Token} {k : Nat}

theorem reads_or_spent (ts : List Data.Token) (k : Nat) :
    (∃ us, Reads ts us k ((ofList ts).skip k)) ∨
      ((ofList ts).skip k).Spent ∧
        (Data.acceptedPrefix ts).length ≤ ((ofList ts).skip k).pulls := by
  let all := (start.markup (Data.acceptedPrefix ts)).length
  by_cases hk : k ≤ all
  · exact .inl (exists_reads_skip hk)
  · obtain ⟨j, rfl⟩ := Nat.exists_eq_add_of_lt (Nat.lt_of_not_le hk)
    obtain ⟨us, hus⟩ : ∃ us, Reads ts us all ((ofList ts).skip all) :=
      exists_reads_skip (Nat.le_refl all)
    have hmoves := moves_next (sound_skip_ofList ts all)
    obtain ⟨-, hpulls, hspent⟩ := hus.lastItem hmoves (Nat.le_refl all)
    rw [← skip_succ] at hpulls hspent
    rw [Nat.add_right_comm, skip_add, hspent.skip_eq (sound_skip_ofList ts _) j]
    refine .inr ⟨hspent, ?_⟩
    rw [hpulls, hus.pulls_eq, hus.eq_acceptedPrefix (Nat.le_refl all)]
    exact Nat.le_succ _

theorem reaches_skip (ts : List Data.Token) (k : Nat) :
    Reaches ((Data.acceptedPrefix ts).take ((ofList ts).skip k).pulls)
      ((ofList ts).skip k).renderer.run := by
  rcases reads_or_spent ts k with ⟨us, hus⟩ | ⟨hspent, hpulls⟩
  · rw [hus.pulls_eq, hus.take_acceptedPrefix, hus.run_eq]
    exact .going hus.going
  · rw [List.take_of_length_le hpulls, run_ofList_of_hasEnded hspent.ended]
    exact reaches_ending ts

theorem nothing_given_of_idle (hidle : ((ofList ts).skip k).renderer.run.phase = .idle) :
    (ofList ts).items k = [] ∧ ((ofList ts).skip k).renderer.ring.toList = [] := by
  rcases reads_or_spent ts k with ⟨us, hus⟩ | ⟨hspent, -⟩
  · have hnone : us = [] := by
      have hreaches := reaches_skip ts k
      rw [hus.pulls_eq, hus.take_acceptedPrefix] at hreaches
      exact hreaches.eq_nil_of_idle hidle
    subst hnone
    obtain rfl : k = 0 := Nat.le_zero.mp hus.given
    exact ⟨rfl, hus.waiting_eq⟩
  · have hgo : ((ofList ts).skip k).renderer.run.hasEnded = false :=
      hasEnded_eq_false_iff.mpr (.inl hidle)
    rw [hspent.ended] at hgo
    exact absurd hgo Bool.noConfusion

end Pull

namespace Renderer

variable {r : Renderer} {t : Data.Token} {failure : Failure}

theorem snd_step_of_hasEnded (h : r.run.hasEnded = true) (t : Data.Token) : (r.step t).2 = r := by
  cases hf : r.run.failure? with
  | some cause => simp only [step, hf]
  | none =>
    have hdone : r.isFinished = true := Run.isDone_of_hasEnded h hf
    simp only [step, hf, hdone, if_true]

theorem snd_step_of_short (hgo : r.run.hasEnded = false) (hroom : r.hasRoom = false)
    (t : Data.Token) : (r.step t).2 = r := by
  have hdone : r.isFinished = false := Run.isDone_of_going hgo
  simp only [step, Run.failure?_of_going hgo, hdone, hroom, Bool.not_false, Bool.false_eq_true,
    if_false, if_true]

theorem agrees_of_step_error (h : r.Sound) (herror : (r.step t).1 = .error failure) :
    (r.step t).2.run.Agrees r.run := by
  cases hgo : r.run.hasEnded with
  | true =>
    rw [snd_step_of_hasEnded hgo]
    exact .refl _
  | false =>
    cases hroom : r.hasRoom with
    | false =>
      rw [snd_step_of_short hgo hroom]
      exact .refl _
    | true =>
      cases hf : r.run.nesting.fault? t with
      | some fault =>
        rw [step_of_fault hgo hroom hf]
        exact r.run.agrees_stop fault
      | none =>
        obtain ⟨s, hstep, -⟩ := step_of_accepted h hgo hroom hf
        rw [hstep] at herror
        cases herror

theorem agrees_close (r : Renderer) : r.close.2.run.Agrees r.run := by
  rw [run_close]
  exact r.run.agrees_finish

theorem Balances.nothing_taken_of_idle {l : Ledger} (h : r.Balances l)
    (hidle : r.run.phase = .idle) : l.taken = [] ∧ r.ring.toList = [] := by
  have hgo : r.run.hasEnded = false := Run.hasEnded_eq_false_iff.mpr (.inl hidle)
  have hall := h.conserved_of_going hgo
  rw [h.reaches.eq_nil_of_idle hidle] at hall
  exact List.append_eq_nil_iff.mp hall

/-- After any calls on a pull or on a renderer, the run sums up the tokens accepted so far: those of the
accepted prefix that the pull has asked for, those that the books of the calls have entered. A run that has
not begun has given nothing. A step that fails leaves frames and counts as they were, and so does the
end, whether granted or refused. -/
theorem sumsUp_skip_and_serve (ts : List Data.Token) (k n : Nat) (calls : List Call) :
    let p := (Pull.ofList ts).skip k
    let served := (ofCapacity n).serve calls
    let r := served.2
    let l := Ledger.empty.enterAll (calls.zip (served.1.map Prod.fst))
    p.renderer.run.SumsUp ((Data.acceptedPrefix ts).take p.pulls) ∧ r.run.SumsUp l.accepted ∧
      (p.renderer.run.phase = .idle →
        (Pull.ofList ts).items k = [] ∧ p.renderer.ring.toList = []) ∧
      (r.run.phase = .idle → l.taken = [] ∧ r.ring.toList = []) ∧
      ∀ q ∈ [p.renderer, r],
        (∀ t failure, (q.step t).1 = .error failure → (q.step t).2.run.Agrees q.run) ∧
          q.close.2.run.Agrees q.run := by
  intro p served r l
  have hp : p.renderer.Sound := Pull.sound_skip_ofList ts k
  have hr : r.Balances l := balances_serve (l := .empty) (tracks_ofCapacity n) calls
  refine ⟨(Pull.reaches_skip ts k).sumsUp, hr.reaches.sumsUp, Pull.nothing_given_of_idle,
    Balances.nothing_taken_of_idle hr, ?_⟩
  intro q hq
  have hsound : q.Sound := by
    rcases List.mem_pair.mp hq with rfl | rfl
    · exact hp
    · exact hr.sound
  exact ⟨fun t failure herror => agrees_of_step_error hsound herror, agrees_close q⟩

theorem sumsUp_skip_and_serve_nested :
    let us : List Data.Token :=
      [.opening .object none, .property (.ofLocal "a"), .opening .object none]
    let r := ((ofCapacity 16).serve [.feed us]).2
    let failure : Failure := .malformed ⟨3, .unmatchedEnd .array⟩
    let p := (Pull.ofList us).skip 0
    let s := ((ofCapacity 0).serve [.read]).2
    r.run.nesting.frames = [.object false, .object true] ∧ r.run.SumsUp us ∧
      (r.step (.closing .array)).1 = .error failure ∧
      (r.step (.closing .array)).2.run.Agrees r.run ∧
      p.renderer.run.phase = .idle ∧ p.renderer.ring.toList = [] ∧
      s.run.phase = .idle ∧ s.ring.toList = [] := by
  intro us r failure p s
  have herror : (r.step (.closing .array)).1 = .error failure := rfl
  have hidle : p.renderer.run.phase = .idle := rfl
  have hidle' : s.run.phase = .idle := rfl
  obtain ⟨-, hsum, hnothing, -, hagrees⟩ := sumsUp_skip_and_serve us 0 16 [.feed us]
  obtain ⟨-, -, -, hnothing', -⟩ := sumsUp_skip_and_serve us 0 0 [.read]
  have hr : r ∈ [p.renderer, r] := List.mem_cons_of_mem _ List.mem_cons_self
  exact ⟨rfl, hsum, herror, (hagrees r hr).1 _ _ herror, hidle, (hnothing hidle).2, hidle',
    (hnothing' hidle').2⟩

end Renderer
end DataMarkup
