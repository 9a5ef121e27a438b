import DataMarkup.Renderer
import DataMarkup.Proofs.Ring.Contents
import DataMarkup.Proofs.Run.Course

/-! What the calls of a renderer do, one statement for each way that a call can go. A renderer absorbs
tokens: its run moves on by them and their markup queues up behind what waits already. -/

namespace DataMarkup.Renderer

variable {r s u : Renderer} {t : Data.Token} {us vs ts : List Data.Token} {fault : Fault}

/-- What every call keeps. A step always has room in an empty ring. -/
structure Sound (r : Renderer) : Prop where
  coherent : r.run.Coherent
  wellFormed : r.ring.WellFormed
  maxMarkup_le : Run.maxMarkupPerToken ≤ r.ring.capacity

theorem sound_ofCapacity (n : Nat) : (ofCapacity n).Sound := by
  have hring := Ring.holds_ofCapacity (α := Markup.Token) (max n Run.maxMarkupPerToken)
  refine ⟨Run.coherent_start, hring.wellFormed, ?_⟩
  have hpow := Ring.le_leastPowerOfTwo (max (max n Run.maxMarkupPerToken) 2)
  show Run.maxMarkupPerToken ≤ Ring.capacity (Ring.ofCapacity _)
  rw [hring.capacity_eq]
  omega

theorem Sound.waiting_pos_of_not_hasRoom (h : r.Sound) (hshort : r.hasRoom = false) :
    0 < r.waiting := by
  have hcap := h.maxMarkup_le
  have hspace : ¬Run.maxMarkupPerToken ≤ r.ring.capacity - r.ring.count :=
    of_decide_eq_false hshort
  show 0 < r.ring.count
  omega

theorem Sound.waiting_pos_of_isFull (h : r.Sound) (hfull : r.ring.isFull = true) :
    0 < r.waiting := by
  have hcap := h.maxMarkup_le
  have hcount : r.ring.count = r.ring.capacity := eq_of_beq hfull
  show 0 < r.ring.count
  rw [hcount]
  exact Nat.lt_of_lt_of_le (Nat.succ_pos _) hcap

structure Absorbs (r : Renderer) (ts : List Data.Token) (s : Renderer) : Prop where
  run_eq : s.run = r.run.after ts
  going : s.run.hasEnded = false
  holds : s.ring.Holds r.ring.capacity (r.ring.toList ++ r.run.markup ts)

theorem Sound.absorbs_nil (h : r.Sound) (hgo : r.run.hasEnded = false) : r.Absorbs [] r := by
  refine ⟨rfl, hgo, ?_⟩
  have hholds := h.wellFormed.holds
  rwa [Run.markup, List.append_nil]

theorem Absorbs.trans (hu : r.Absorbs us s) (hv : s.Absorbs vs u) : r.Absorbs (us ++ vs) u := by
  refine ⟨?_, hv.going, ?_⟩
  · rw [Run.after_append, ← hu.run_eq, hv.run_eq]
  · have hholds := hv.holds
    rwa [hu.holds.capacity_eq, hu.holds.items_eq, hu.run_eq, List.append_assoc,
      ← Run.markup_append] at hholds

theorem Absorbs.sound (h : r.Absorbs ts s) (hr : r.Sound) : s.Sound := by
  refine ⟨?_, h.holds.wellFormed, ?_⟩
  · rw [h.run_eq]
    exact hr.coherent.after ts
  · rw [h.holds.capacity_eq]
    exact hr.maxMarkup_le

/-! ### One token -/

theorem emit_of_room {ring : Ring Markup.Token} {c : Nat} {xs ms : List Markup.Token} {run : Run}
    (hring : ring.Holds c xs) (hroom : xs.length + ms.length ≤ c) (hrun : run.failure? = none) :
    ∃ ring', emit ring run ms = (.ok (), ⟨run, ring'⟩) ∧ ring'.Holds c (xs ++ ms) := by
  obtain ⟨ring', hpush, hheld⟩ := hring.pushAll hroom
  exact ⟨ring', by rw [emit, hpush]; simp only [hrun], hheld⟩

theorem emit_stop (ring : Ring Markup.Token) (run : Run) (fault : Fault) :
    emit ring (run.stop fault) [] =
      (.error (.malformed ⟨run.accepted, fault⟩), ⟨run.stop fault, ring⟩) := rfl

theorem step_of_fault (hgo : r.run.hasEnded = false) (hroom : r.hasRoom = true)
    (hf : r.run.nesting.fault? t = some fault) :
    r.step t = (.error (.malformed ⟨r.run.accepted, fault⟩), ⟨r.run.stop fault, r.ring⟩) := by
  have hdone : r.isFinished = false := Run.isDone_of_going hgo
  have hstep : r.run.step t = (r.run.stop fault, []) := Run.step_of_fault hgo hf
  simp only [step, Run.failure?_of_going hgo, hdone, hroom, hstep, emit_stop, Bool.not_true,
    Bool.false_eq_true, if_false]

theorem step_of_accepted (h : r.Sound) (hgo : r.run.hasEnded = false) (hroom : r.hasRoom = true)
    (hf : r.run.nesting.fault? t = none) : ∃ s, r.step t = (.ok (), s) ∧ r.Absorbs [t] s := by
  have hdone : r.isFinished = false := Run.isDone_of_going hgo
  have hgo' : (r.run.step t).1.hasEnded = false := by
    rw [Run.step_of_accepted hgo hf]
    exact Run.hasEnded_accept r.run t
  have hfit : r.ring.toList.length + (r.run.step t).2.length ≤ r.ring.capacity := by
    have hmarkup := Run.length_markup_step_le h.coherent t
    have hcount := Ring.length_toList h.wellFormed
    have hle := h.wellFormed.count_le
    have hspace : Run.maxMarkupPerToken ≤ r.ring.capacity - r.ring.count := of_decide_eq_true hroom
    omega
  obtain ⟨ring', hemit, hheld⟩ :=
    emit_of_room h.wellFormed.holds hfit (Run.failure?_of_going hgo')
  refine ⟨⟨(r.run.step t).1, ring'⟩, ?_, rfl, hgo', ?_⟩
  · simp only [step, Run.failure?_of_going hgo, hdone, hroom, Bool.not_true, Bool.false_eq_true,
      if_false]
    exact hemit
  · rwa [Run.markup, Run.markup, List.append_nil]

/-! ### A chunk -/

theorem stepAll_cons_of_accepted (hroom : r.hasRoom = true) (hstep : r.step t = (.ok (), s))
    (n : Nat) (ts : List Data.Token) : r.stepAll n (t :: ts) = s.stepAll (n + 1) ts := by
  simp only [stepAll, hroom, if_true, hstep]

/-- The loop ends at the end of the tokens, for want of room, or at a token without a place; then it has
gone through the tokens before that one, with room to spare. -/
theorem stepAll_cases (h : r.Sound) (hgo : r.run.hasEnded = false) (n : Nat)
    (ts : List Data.Token) :
    (∃ us vs s, ts = us ++ vs ∧ r.stepAll n ts = (.ok (n + us.length), s) ∧ r.Absorbs us s ∧
      (vs ≠ [] → s.hasRoom = false)) ∨
    ∃ us t vs fault s, ts = us ++ t :: vs ∧ r.Absorbs us s ∧
      s.run.nesting.fault? t = some fault ∧
      (r.stepAll n us = (.ok (n + us.length), s) ∧ s.hasRoom = true) ∧
      r.stepAll n ts =
        (.error (.malformed ⟨s.run.accepted, fault⟩), ⟨s.run.stop fault, s.ring⟩) := by
  induction ts generalizing r n with
  | nil => exact .inl ⟨[], [], r, rfl, rfl, h.absorbs_nil hgo, fun hne => absurd rfl hne⟩
  | cons t ts ih =>
    -- Room comes first: for want of it the loop ends even before a token without a place.
    cases hroom : r.hasRoom with
    | false =>
      refine .inl ⟨[], t :: ts, r, rfl, ?_, h.absorbs_nil hgo, fun _ => hroom⟩
      simp only [stepAll, hroom, Bool.false_eq_true, if_false, List.length_nil, Nat.add_zero]
    | true =>
      cases hf : r.run.nesting.fault? t with
      | some fault =>
        refine .inr ⟨[], t, ts, fault, r, rfl, h.absorbs_nil hgo, hf, ⟨rfl, hroom⟩, ?_⟩
        simp only [stepAll, hroom, if_true, step_of_fault hgo hroom hf]
      | none =>
        obtain ⟨s, hstep, hs⟩ := step_of_accepted h hgo hroom hf
        rw [stepAll_cons_of_accepted hroom hstep]
        rcases ih (hs.sound h) hs.going (n + 1) with
          ⟨us, vs, u, rfl, hloop, hu, hfull⟩ |
          ⟨us, v, vs, fault, u, rfl, hu, hv, ⟨hbefore, hspare⟩, hloop⟩
        · refine .inl ⟨t :: us, vs, u, rfl, ?_, hs.trans hu, hfull⟩
          rw [hloop, List.length_cons, Nat.add_assoc, Nat.add_comm 1]
        · refine .inr ⟨t :: us, v, vs, fault, u, rfl, hs.trans hu, hv, ⟨?_, hspare⟩, hloop⟩
          rw [stepAll_cons_of_accepted hroom hstep, hbefore, List.length_cons, Nat.add_assoc,
            Nat.add_comm 1]

theorem feed_of_failed {cause : Malformed} (h : r.run.failure? = some cause)
    (ts : List Data.Token) : r.feed ts = (.error (.malformed cause), r) := by
  simp only [feed, h]

theorem feed_of_done (hf : r.run.failure? = none) (h : r.isFinished = true)
    (ts : List Data.Token) : r.feed ts = (.ok ⟨0, 0, false⟩, r) := by
  simp only [feed, hf]
  exact if_pos h

theorem Absorbs.waiting_eq (h : r.Absorbs ts s) (hr : r.Sound) :
    s.waiting = r.waiting + (r.run.markup ts).length := by
  rw [waiting, waiting, h.holds.count_eq, List.length_append, Ring.length_toList hr.wellFormed]

theorem feed_of_ok {n : Nat} (hgo : r.run.hasEnded = false) (h : r.stepAll 0 ts = (.ok n, s)) :
    r.feed ts = (.ok ⟨n, s.waiting - r.waiting, !s.hasRoom⟩, s) := by
  have hdone : r.isFinished = false := Run.isDone_of_going hgo
  simp only [feed, Run.failure?_of_going hgo, hdone, h, Bool.false_eq_true, if_false]

theorem feed_of_error {failure : Failure} (hgo : r.run.hasEnded = false)
    (h : r.stepAll 0 ts = (.error failure, s)) : r.feed ts = (.error failure, s) := by
  have hdone : r.isFinished = false := Run.isDone_of_going hgo
  simp only [feed, Run.failure?_of_going hgo, hdone, h, Bool.false_eq_true, if_false]

theorem feed_cases (h : r.Sound) (hgo : r.run.hasEnded = false) (ts : List Data.Token) :
    (∃ us vs s, ts = us ++ vs ∧
      r.feed ts = (.ok ⟨us.length, (r.run.markup us).length, !s.hasRoom⟩, s) ∧ r.Absorbs us s ∧
      (vs ≠ [] → s.hasRoom = false)) ∨
    ∃ us t vs fault s, ts = us ++ t :: vs ∧ r.Absorbs us s ∧
      s.run.nesting.fault? t = some fault ∧
      r.feed ts = (.error (.malformed ⟨s.run.accepted, fault⟩), ⟨s.run.stop fault, s.ring⟩) := by
  rcases stepAll_cases h hgo 0 ts with
    ⟨us, vs, s, hts, hall, hs, hfull⟩ | ⟨us, t, vs, fault, s, hts, hs, hf, -, hall⟩
  · refine .inl ⟨us, vs, s, hts, ?_, hs, hfull⟩
    rw [feed_of_ok hgo hall, hs.waiting_eq h, Nat.zero_add, Nat.add_sub_cancel_left]
  · exact .inr ⟨us, t, vs, fault, s, hts, hs, hf, feed_of_error hgo hall⟩

/-! ### The end of the input -/

theorem close_of_unclosed (hgo : r.run.hasEnded = false) (hd : r.depth ≠ 0) :
    r.close = (.error (.malformed ⟨r.run.accepted, .unclosedContainer⟩),
      ⟨r.run.stop .unclosedContainer, r.ring⟩) := by
  have hfinish : r.run.finish = (r.run.stop .unclosedContainer, []) := Run.finish_of_unclosed hgo hd
  simp only [close, hfinish, emit_stop]

theorem close_of_closed (h : r.Sound) (hgo : r.run.hasEnded = false) (hd : r.depth = 0)
    (hroom : r.ring.isFull = false) :
    ∃ ring, r.close = (.ok (), ⟨r.run.finish.1, ring⟩) ∧
      ring.Holds r.ring.capacity (r.ring.toList ++ r.run.finish.2) := by
  have hone := Run.length_markup_finish_le r.run
  have hne := Ring.isFull_eq_false_iff.mp hroom
  have hcount := Ring.length_toList h.wellFormed
  have hle := h.wellFormed.count_le
  have hfit : r.ring.toList.length + r.run.finish.2.length ≤ r.ring.capacity := by omega
  exact emit_of_room h.wellFormed.holds hfit (Run.failure?_finish_of_closed hgo hd)

theorem close_of_done (hf : r.run.failure? = none) (h : r.isFinished = true) :
    r.close = (.ok (), r) := by
  have hfinish : r.run.finish = (r.run, []) := Run.finish_of_hasEnded (Run.hasEnded_of_isDone h)
  simp only [close, hfinish, emit, Ring.pushAll, hf]

theorem finish_of_failed {cause : Malformed} (h : r.run.failure? = some cause) :
    r.finish = (.error (.malformed cause), r) := by
  simp only [finish, h]

theorem finish_of_isFull (hf : r.run.failure? = none) (h : r.ring.isFull = true) :
    r.finish = (.ok ⟨0, 0, true⟩, r) := by
  simp only [finish, hf, h, if_true]

theorem finish_of_done (hf : r.run.failure? = none) (hroom : r.ring.isFull = false)
    (h : r.isFinished = true) : r.finish = (.ok ⟨0, 0, false⟩, r) := by
  simp only [finish, hf, hroom, close_of_done hf h, Nat.sub_self, Bool.false_eq_true, if_false]

theorem finish_of_unclosed (hgo : r.run.hasEnded = false) (hroom : r.ring.isFull = false)
    (hd : r.depth ≠ 0) :
    r.finish = (.error (.malformed ⟨r.run.accepted, .unclosedContainer⟩),
      ⟨r.run.stop .unclosedContainer, r.ring⟩) := by
  simp only [finish, Run.failure?_of_going hgo, hroom, close_of_unclosed hgo hd, Bool.false_eq_true,
    if_false]

theorem finish_of_closed (h : r.Sound) (hgo : r.run.hasEnded = false)
    (hroom : r.ring.isFull = false) (hd : r.depth = 0) :
    ∃ ring, r.finish = (.ok ⟨0, r.run.finish.2.length, ring.isFull⟩, ⟨r.run.finish.1, ring⟩) ∧
      ring.Holds r.ring.capacity (r.ring.toList ++ r.run.finish.2) := by
  obtain ⟨ring, hclose, hheld⟩ := close_of_closed h hgo hd hroom
  refine ⟨ring, ?_, hheld⟩
  have hcount : ring.count = r.ring.count + r.run.finish.2.length := by
    rw [hheld.count_eq, List.length_append, Ring.length_toList h.wellFormed]
  simp only [finish, Run.failure?_of_going hgo, hroom, hclose, waiting, hcount, Bool.false_eq_true,
    if_false, Nat.add_sub_cancel_left]

/-! ### Reading -/

theorem read_nil {c : Nat} (h : r.ring.Holds c []) : r.read = (none, r) := by
  simp only [read, h.pop_nil]

theorem read_cons {c : Nat} {m : Markup.Token} {ms : List Markup.Token}
    (h : r.ring.Holds c (m :: ms)) :
    ∃ ring, r.read = (some m, ⟨r.run, ring⟩) ∧ ring.Holds c ms := by
  obtain ⟨ring, hpop, hheld⟩ := h.pop_cons
  exact ⟨ring, by simp only [read, hpop], hheld⟩

theorem unload_eq {c : Nat} {ms : List Markup.Token} (h : r.ring.Holds c ms)
    (out : Array Markup.Token) (limit : Option Nat) :
    ∃ ring, r.unload out limit = (out ++ ms.take (limit.getD ms.length), ⟨r.run, ring⟩) ∧
      ring.Holds c (ms.drop (limit.getD ms.length)) := by
  obtain ⟨ring, hunload, hheld⟩ := h.unload out (limit.getD ms.length)
  refine ⟨ring, ?_, hheld⟩
  simp only [unload, h.count_eq, hunload]

end DataMarkup.Renderer
