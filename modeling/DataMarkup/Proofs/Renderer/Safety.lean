import DataMarkup.Proofs.Pull.Move
import DataMarkup.Proofs.Renderer.Concatenation

/-! No step after the end, none without room for all that a token can bring, and no push to a full ring.
Where one of these would happen a misuse is reported; neither a pull nor a renderer ever reports one. -/

namespace DataMarkup

/-- A token that is accepted brings something, and no more than there is room for. The wrapper comes on
top only where no container is open, and then no item begins. -/
theorem Run.length_markup_of_accepted {run : Run} {t : Data.Token} (h : run.Coherent)
    (ht : (run.step t).1.hasEnded = false) :
    0 < (run.step t).2.length ∧ (run.step t).2.length ≤ maxMarkupPerToken := by
  obtain ⟨hgo, hf⟩ := going_of_step ht
  have hsome : (run.step t).2 ≠ [] := markup_step_ne_nil hgo hf
  exact ⟨List.length_pos_of_ne_nil hsome, length_markup_step_le h t⟩

theorem Pull.Moves.ne_misuse {p : Pull} {x : Option (Except Failure Markup.Token) × Pull}
    (hx : p.Moves x) (cause : Misuse) : x.1 ≠ some (.error (.misuse cause)) := by
  cases hx with
  | waiting | ended | accepted | stopped | unclosed => simp
  | closed => cases p.renderer.run.finish.2.head? <;> simp

namespace Renderer

variable {r : Renderer} {x : Except Failure FeedReport × Renderer}

theorem Feeds.ne_misuse {ts : List Data.Token} (hx : r.Feeds ts x) (cause : Misuse) :
    x.1 ≠ .error (.misuse cause) := by
  cases hx <;> simp

theorem Finishes.ne_misuse (hx : r.Finishes x) (cause : Misuse) :
    x.1 ≠ .error (.misuse cause) := by
  cases hx <;> simp

theorem answer_ne_misuse (h : r.Sound) (call : Call) (cause : Misuse) :
    (r.answer call).1 ≠ .report (.error (.misuse cause)) := by
  cases call with
  | feed ts =>
    intro hreport
    exact (feeds_feed h ts).ne_misuse cause (Answer.report.inj hreport)
  | finish =>
    intro hreport
    exact (finishes_finish h).ne_misuse cause (Answer.report.inj hreport)
  | read | drain | peek | buffered => exact Answer.noConfusion

/-! ### What is reported -/

theorem step_eq_misuse {t : Data.Token} (hf : r.run.failure? = none)
    (h : r.isFinished = true ∨ r.hasRoom = false) :
    ∃ cause, (r.step t).1 = .error (.misuse cause) := by
  unfold step
  cases hdone : r.isFinished with
  | true => exact ⟨.stepAfterEnd, by simp only [hf, if_true]⟩
  | false =>
    have hroom : r.hasRoom = false := h.resolve_left (Bool.eq_false_iff.mp hdone)
    refine ⟨.shortOfRoom, ?_⟩
    simp only [hf, hroom, Bool.not_false, Bool.false_eq_true, if_false, if_true]

theorem emit_eq_misuse {ring : Ring Markup.Token} {ms : List Markup.Token} (run : Run)
    (hring : ring.WellFormed) (h : ring.space < ms.length) :
    (emit ring run ms).1 = .error (.misuse .ringFull) := by
  have hheld := hring.holds
  have hle := hheld.length_le
  rw [hheld.space_eq] at h
  have hshort : (ring.pushAll ms).1 = false := hheld.pushAll_of_short (by omega)
  unfold emit
  rw [← Prod.eta (ring.pushAll ms), hshort]

/-- After any calls the next one, on a pull or on a renderer of any capacity, is no misuse, though a step
after the end, a step without room and more markup than there is space would all be reported as one. In
every state that calls lead to, an accepted token brings at least one token of markup and at most four. -/
theorem next_and_answer_ne_misuse (ts : List Data.Token) (k n : Nat) (calls : List Call) :
    let p := (Pull.ofList ts).skip k
    let r := ((ofCapacity n).serve calls).2
    (∀ cause, p.next.1 ≠ some (.error (.misuse cause))) ∧
      (∀ call cause, (r.answer call).1 ≠ .report (.error (.misuse cause))) ∧
      (∀ run ∈ [p.renderer.run, r.run], ∀ t, (run.step t).1.hasEnded = false →
        0 < (run.step t).2.length ∧ (run.step t).2.length ≤ Run.maxMarkupPerToken) ∧
      ∀ s ∈ [p.renderer, r],
        (∀ t, s.run.failure? = none → s.isFinished = true ∨ s.hasRoom = false →
          ∃ cause, (s.step t).1 = .error (.misuse cause)) ∧
        ∀ ms, s.ring.space < ms.length →
          (emit s.ring s.run ms).1 = .error (.misuse .ringFull) := by
  intro p r
  have hp : p.renderer.Sound := Pull.sound_skip_ofList ts k
  have hr : r.Sound := (sound_ofCapacity n).serve calls
  have hsound : ∀ s ∈ [p.renderer, r], s.Sound := by
    intro s hs
    rcases List.mem_pair.mp hs with rfl | rfl
    · exact hp
    · exact hr
  refine ⟨(Pull.moves_next hp).ne_misuse, answer_ne_misuse hr, ?_, ?_⟩
  · intro run hrun t ht
    obtain ⟨s, hs, rfl⟩ : ∃ s ∈ [p.renderer, r], s.run = run := by simpa [eq_comm] using hrun
    exact Run.length_markup_of_accepted (hsound s hs).coherent ht
  · intro s hs
    refine ⟨fun t hf h => step_eq_misuse hf h, ?_⟩
    intro ms hshort
    exact emit_eq_misuse s.run (hsound s hs).wellFormed hshort

/-! ### Inside a call -/

variable {ts : List Data.Token} {failure : Failure} {s : Renderer}

theorem stepAll_eq_error_iff {n : Nat} :
    r.stepAll n ts = (.error failure, s) ↔ ∃ us t vs q, ts = us ++ t :: vs ∧
      r.stepAll n us = (.ok (n + us.length), q) ∧ q.hasRoom = true ∧
        q.step t = (.error failure, s) := by
  constructor
  · intro h
    induction ts generalizing r n with
    | nil => cases h
    | cons t ts ih =>
      rw [stepAll] at h
      split at h
      case isTrue hroom =>
        rcases hstep : r.step t with ⟨cause | _, q⟩
        · rw [hstep] at h
          cases h
          exact ⟨[], t, ts, r, rfl, rfl, hroom, hstep⟩
        · rw [hstep] at h
          obtain ⟨us, u, vs, v, rfl, hbefore, hmore, hfailure⟩ := ih h
          refine ⟨t :: us, u, vs, v, rfl, ?_, hmore, hfailure⟩
          rw [stepAll_cons_of_accepted hroom hstep, hbefore, List.length_cons, Nat.add_assoc,
            Nat.add_comm 1]
      case isFalse => cases h
  · rintro ⟨us, t, vs, q, rfl, hbefore, hroom, hstep⟩
    rw [stepAll_append, hbefore, goOn, if_pos rfl, stepAll, if_pos hroom, hstep]

theorem feed_eq_error_iff (hgo : r.run.hasEnded = false) :
    r.feed ts = (.error failure, s) ↔ ∃ us t vs q, ts = us ++ t :: vs ∧
      r.stepAll 0 us = (.ok us.length, q) ∧ q.hasRoom = true ∧ q.step t = (.error failure, s) := by
  have hloop : r.feed ts = (.error failure, s) ↔ r.stepAll 0 ts = (.error failure, s) :=
    ⟨stepAll_of_feed_error hgo, feed_of_error hgo⟩
  rw [hloop, stepAll_eq_error_iff]
  simp only [Nat.zero_add]

theorem finish_eq_error_iff (hgo : r.run.hasEnded = false) (hroom : r.ring.isFull = false) :
    r.finish = (.error failure, s) ↔ r.close = (.error failure, s) := by
  simp only [finish, Run.failure?_of_going hgo, hroom, Bool.false_eq_true, if_false]
  rcases r.close with ⟨cause | _, q⟩ <;> simp

end Renderer

namespace Pull

/-- With nothing to give, a pull has asked for the tokens and has come from one renderer to another, which
has nothing to give either. -/
inductive Asks : Renderer → List Data.Token → Renderer → Prop
  | nil {r q : Renderer} (hread : r.read = (none, q)) (hgo : q.run.hasEnded = false) : Asks r [] q
  | cons {r q s u : Renderer} {t : Data.Token} {ts : List Data.Token} (hread : r.read = (none, q))
    (hgo : q.run.hasEnded = false) (hstep : q.step t = (.ok (), s)) (h : Asks s ts u) :
    Asks r (t :: ts) u

variable {r : Renderer} {ts : List Data.Token} {failure : Failure}

theorem nextFrom_eq_failure_iff {n : Nat} :
    (nextFrom r n ts).1 = some (.error failure) ↔ ∃ us vs q, ts = us ++ vs ∧ Asks r us q ∧
      ((∃ t rest, vs = t :: rest ∧ (q.step t).1 = .error failure) ∨
        vs = [] ∧ q.close.1 = .error failure) := by
  constructor
  · intro h
    fun_induction nextFrom r n ts with
    | case1 | case2 => cases h
    | case3 r n q hread hgo t ts _ s hstep ih =>
      obtain ⟨us, vs, u, rfl, hasks, hfailure⟩ := ih h
      exact ⟨t :: us, vs, u, rfl, .cons hread (Bool.eq_false_iff.mpr hgo) hstep hasks, hfailure⟩
    | case4 r n q hread hgo t ts cause s hstep =>
      cases h
      exact ⟨[], t :: ts, q, rfl, .nil hread (Bool.eq_false_iff.mpr hgo),
        .inl ⟨t, ts, rfl, congrArg Prod.fst hstep⟩⟩
    | case5 r n q hread hgo _ s hclose token u hread' => cases token <;> cases h
    | case6 r n q hread hgo cause s hclose =>
      cases h
      exact ⟨[], [], q, rfl, .nil hread (Bool.eq_false_iff.mpr hgo),
        .inr ⟨rfl, congrArg Prod.fst hclose⟩⟩
  · rintro ⟨us, vs, q, rfl, hasks, hfailure⟩
    induction hasks generalizing n with
    | @nil r q hread hgo =>
      rcases hfailure with ⟨t, rest, rfl, hstep⟩ | ⟨rfl, hclose⟩
      · obtain ⟨s, hs⟩ : ∃ s, q.step t = (.error failure, s) := ⟨_, Prod.ext hstep rfl⟩
        rw [List.nil_append, nextFrom, hread]
        simp only [hgo, Bool.false_eq_true, if_false, hs]
      · obtain ⟨s, hs⟩ : ∃ s, q.close = (.error failure, s) := ⟨_, Prod.ext hclose rfl⟩
        rw [List.nil_append, nextFrom, hread]
        simp only [hgo, Bool.false_eq_true, if_false, hs]
    | cons hread hgo hstep h ih =>
      rw [List.cons_append, nextFrom, hread]
      simp only [hgo, Bool.false_eq_true, if_false, hstep]
      exact ih hfailure

end Pull

/-- No step that a call comes to, and no end, is a misuse: not on the way of a pull to its next item, and
neither in the loop over a chunk nor at the end of the input. -/
theorem Renderer.step_and_close_ne_misuse (ts : List Data.Token) (k n : Nat) (calls : List Call)
    (cause : Misuse) :
    let p := (Pull.ofList ts).skip k
    let r := ((ofCapacity n).serve calls).2
    (∀ us vs q, p.source = us ++ vs → Pull.Asks p.renderer us q →
      (∀ t rest, vs = t :: rest → (q.step t).1 ≠ .error (.misuse cause)) ∧
        (vs = [] → q.close.1 ≠ .error (.misuse cause))) ∧
    (r.run.hasEnded = false →
      (∀ us t q, r.stepAll 0 us = (.ok us.length, q) → q.hasRoom = true →
        (q.step t).1 ≠ .error (.misuse cause)) ∧
      (r.ring.isFull = false → r.close.1 ≠ .error (.misuse cause))) := by
  intro p r
  have hp : p.next.1 ≠ some (.error (.misuse cause)) :=
    (Pull.moves_next (Pull.sound_skip_ofList ts k)).ne_misuse cause
  have hr : r.Sound := (sound_ofCapacity n).serve calls
  refine ⟨?_, fun hgo => ⟨?_, ?_⟩⟩
  · intro us vs q hsource hasks
    refine ⟨?_, ?_⟩
    · intro t rest hvs hstep
      exact hp (Pull.nextFrom_eq_failure_iff.mpr
        ⟨us, vs, q, hsource, hasks, .inl ⟨t, rest, hvs, hstep⟩⟩)
    · intro hvs hclose
      exact hp (Pull.nextFrom_eq_failure_iff.mpr ⟨us, vs, q, hsource, hasks, .inr ⟨hvs, hclose⟩⟩)
  · intro us t q hbefore hroom hstep
    have hfeed : r.feed (us ++ [t]) = (.error (.misuse cause), (q.step t).2) :=
      (feed_eq_error_iff hgo).mpr ⟨us, t, [], q, rfl, hbefore, hroom, Prod.ext hstep rfl⟩
    exact (feeds_feed hr _).ne_misuse cause (congrArg Prod.fst hfeed)
  · intro hroom hclose
    have hfinish : r.finish = (.error (.misuse cause), r.close.2) :=
      (finish_eq_error_iff hgo hroom).mpr (Prod.ext hclose rfl)
    exact (finishes_finish hr).ne_misuse cause (congrArg Prod.fst hfinish)

end DataMarkup
