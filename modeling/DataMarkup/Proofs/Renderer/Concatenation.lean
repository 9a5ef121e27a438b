import DataMarkup.Proofs.Renderer.Outcome

/-! A chunk can be cut anywhere. Feeding its two parts one after the other comes to the same as feeding it
whole, unless the first part already fails or finds no room; then the second part is not looked at. -/

namespace DataMarkup.Renderer

variable {r s q : Renderer} {us vs ts : List Data.Token} {failure : Failure}
  {report later : FeedReport}

/-! ### The loop over the tokens -/

/-- What comes of going on with `vs` once `n` tokens are counted, and of not getting that far. -/
def goOn (n : Nat) (vs : List Data.Token) :
    Except Failure Nat × Renderer → Except Failure Nat × Renderer
  | (.ok k, s) => if k = n then s.stepAll k vs else (.ok k, s)
  | (.error failure, s) => (.error failure, s)

theorem stepAll_append (r : Renderer) (n : Nat) (us vs : List Data.Token) :
    r.stepAll n (us ++ vs) = goOn (n + us.length) vs (r.stepAll n us) := by
  induction us generalizing r n with
  | nil => exact (if_pos rfl).symm
  | cons t us ih =>
    have hcount : n + (t :: us).length = n + 1 + us.length := by
      rw [List.length_cons, Nat.add_assoc, Nat.add_comm 1]
    rw [List.cons_append, stepAll, stepAll, hcount]
    cases hroom : r.hasRoom with
    | false =>
      have hshort : n ≠ n + 1 + us.length := by omega
      simp only [Bool.false_eq_true, if_false, goOn, if_neg hshort]
    | true =>
      simp only [if_true]
      rcases r.step t with ⟨failure | _, q⟩
      · rfl
      · exact ih q (n + 1)

theorem stepAll_eq_add (r : Renderer) (n : Nat) (ts : List Data.Token) :
    r.stepAll n ts = ((r.stepAll 0 ts).1.map (n + ·), (r.stepAll 0 ts).2) := by
  induction ts generalizing r n with
  | nil => rfl
  | cons t ts ih =>
    rw [stepAll, stepAll]
    cases r.hasRoom with
    | false => rfl
    | true =>
      simp only [if_true]
      rcases r.step t with ⟨failure | _, q⟩
      · rfl
      · simp only [Nat.zero_add]
        rw [ih q (n + 1), ih q 1]
        cases (q.stepAll 0 ts).1 with
        | error failure => rfl
        | ok k => simp only [Except.map, Nat.add_assoc]

/-! ### The two parts of a chunk -/

theorem stepAll_of_feed_error (hgo : r.run.hasEnded = false) (h : r.feed us = (.error failure, s)) :
    r.stepAll 0 us = (.error failure, s) := by
  rcases hall : r.stepAll 0 us with ⟨cause | k, q⟩
  · rw [feed_of_error hgo hall] at h
    cases h
    rfl
  · rw [feed_of_ok hgo hall] at h
    cases h

theorem stepAll_of_feed_ok (hgo : r.run.hasEnded = false) (h : r.feed us = (.ok report, s)) :
    r.stepAll 0 us = (.ok report.consumed, s) ∧
      report = ⟨report.consumed, s.waiting - r.waiting, !s.hasRoom⟩ := by
  rcases hall : r.stepAll 0 us with ⟨cause | k, q⟩
  · rw [feed_of_error hgo hall] at h
    cases h
  · rw [feed_of_ok hgo hall] at h
    cases h
    exact ⟨rfl, rfl⟩

theorem hasRoom_of_feed_ok (hgo : r.run.hasEnded = false) (h : r.feed us = (.ok report, s)) :
    s.hasRoom = !report.full := by
  rw [(stepAll_of_feed_ok hgo h).2, Bool.not_not]

theorem Feeds.waiting_le {x : Except Failure FeedReport × Renderer} (hx : r.Feeds ts x)
    (h : r.Sound) : r.waiting ≤ x.2.waiting := by
  cases hx with
  | failed _ | done _ => exact Nat.le_refl _
  | taken _ _ absorbs _ | stopped _ _ absorbs _ =>
    have hwaiting := absorbs.waiting_eq h
    exact hwaiting ▸ Nat.le_add_right _ _

theorem feed_of_hasEnded (hended : r.run.hasEnded = true) (us vs : List Data.Token) :
    r.feed us = r.feed vs := by
  cases hcause : r.run.failure? with
  | some cause => rw [feed_of_failed hcause, feed_of_failed hcause]
  | none =>
    have hdone : r.isFinished = true := Run.isDone_of_hasEnded hended hcause
    rw [feed_of_done hcause hdone, feed_of_done hcause hdone]

theorem going_of_feed_ok (h : r.Sound) (hgo : r.run.hasEnded = false)
    (hfeed : r.feed ts = (.ok report, s)) : s.run.hasEnded = false := by
  have hfeeds := feeds_feed h ts
  rw [hfeed] at hfeeds
  cases hfeeds with
  | done _ => exact hgo
  | taken _ _ absorbs _ => exact absorbs.going

theorem stepAll_append_of_feed_ok (hgo : r.run.hasEnded = false)
    (h : r.feed us = (.ok report, s)) (hall : report.consumed = us.length)
    (vs : List Data.Token) : r.stepAll 0 (us ++ vs) = s.stepAll us.length vs := by
  have hbefore := (stepAll_of_feed_ok hgo h).1
  rw [stepAll_append, hbefore, Nat.zero_add, goOn, if_pos hall, hall]

theorem feed_append_of_error (h : r.feed us = (.error failure, s)) (vs : List Data.Token) :
    r.feed (us ++ vs) = (.error failure, s) := by
  cases hgo : r.run.hasEnded with
  | true => rw [feed_of_hasEnded hgo _ us, h]
  | false =>
    have hbefore := stepAll_of_feed_error hgo h
    apply feed_of_error hgo
    rw [stepAll_append, hbefore]
    rfl

theorem feed_append_of_short (h : r.feed us = (.ok report, s))
    (hshort : report.consumed < us.length) (vs : List Data.Token) :
    r.feed (us ++ vs) = (.ok report, s) := by
  cases hgo : r.run.hasEnded with
  | true => rw [feed_of_hasEnded hgo _ us, h]
  | false =>
    obtain ⟨hbefore, hreport⟩ := stepAll_of_feed_ok hgo h
    have hboth : r.stepAll 0 (us ++ vs) = (.ok report.consumed, s) := by
      rw [stepAll_append, hbefore, Nat.zero_add, goOn, if_neg (Nat.ne_of_lt hshort)]
    rw [feed_of_ok hgo hboth, ← hreport]

theorem feed_append_of_ok (hr : r.Sound) (h : r.feed us = (.ok report, s))
    (hall : report.consumed = us.length) (hlater : s.feed vs = (.ok later, q)) :
    r.feed (us ++ vs) =
      (.ok ⟨report.consumed + later.consumed, report.written + later.written, later.full⟩, q) := by
  cases hgo : r.run.hasEnded with
  | true =>
    cases hcause : r.run.failure? with
    | some cause =>
      rw [feed_of_failed hcause] at h
      cases h
    | none =>
      have hdone : r.isFinished = true := Run.isDone_of_hasEnded hgo hcause
      rw [feed_of_done hcause hdone] at h ⊢
      cases h
      rw [feed_of_done hcause hdone] at hlater
      cases hlater
      rfl
  | false =>
    have hs := going_of_feed_ok hr hgo h
    have hsound : s.Sound := by
      have hfeeds := (feeds_feed hr us).sound hr
      rwa [h] at hfeeds
    obtain ⟨-, hreport⟩ := stepAll_of_feed_ok hgo h
    obtain ⟨hrest, hlaterReport⟩ := stepAll_of_feed_ok hs hlater
    have hboth : r.stepAll 0 (us ++ vs) = (.ok (us.length + later.consumed), q) := by
      rw [stepAll_append_of_feed_ok hgo h hall, stepAll_eq_add, hrest]
      rfl
    -- The ring only fills up in a feed, so the two differences add up.
    have hfirst : r.waiting ≤ s.waiting := by
      have hle := (feeds_feed hr us).waiting_le hr
      rwa [h] at hle
    have hsecond : s.waiting ≤ q.waiting := by
      have hle := (feeds_feed hsound vs).waiting_le hsound
      rwa [hlater] at hle
    have hwritten : q.waiting - r.waiting = report.written + later.written := by
      rw [hreport, hlaterReport]
      show _ = s.waiting - r.waiting + (q.waiting - s.waiting)
      omega
    have hfull : later.full = !q.hasRoom := congrArg FeedReport.full hlaterReport
    rw [feed_of_ok hgo hboth, hwritten, hfull, hall]

theorem feed_append_of_later_error (hr : r.Sound) (h : r.feed us = (.ok report, s))
    (hall : report.consumed = us.length) (hlater : s.feed vs = (.error failure, q)) :
    r.feed (us ++ vs) = (.error failure, q) := by
  cases hgo : r.run.hasEnded with
  | true =>
    have hsame : s = r := by
      have hkept := (feeds_feed hr us).eq_of_hasEnded hgo
      rwa [h] at hkept
    rw [hsame, feed_of_hasEnded hgo vs us, h] at hlater
    cases hlater
  | false =>
    have hs := going_of_feed_ok hr hgo h
    have hrest := stepAll_of_feed_error hs hlater
    apply feed_of_error hgo
    rw [stepAll_append_of_feed_ok hgo h hall, stepAll_eq_add, hrest]
    rfl

/-- After any calls, a feed of two chunks in one goes as the first goes that fails or is not used up, and
the second one is then left alone. If the first is used up, what the second does is what they do together:
the counts are added, room and failure are those of the second, and the renderer is left as it leaves it. -/
theorem feed_append_eq (n : Nat) (calls : List Call) (us vs : List Data.Token) :
    let r := ((ofCapacity n).serve calls).2
    (∀ failure s, r.feed us = (.error failure, s) → r.feed (us ++ vs) = (.error failure, s)) ∧
    (∀ report s, r.feed us = (.ok report, s) → report.consumed < us.length →
      r.feed (us ++ vs) = (.ok report, s)) ∧
    ∀ report s, r.feed us = (.ok report, s) → report.consumed = us.length →
      (∀ later q, s.feed vs = (.ok later, q) →
        r.feed (us ++ vs) =
          (.ok ⟨report.consumed + later.consumed, report.written + later.written, later.full⟩,
            q)) ∧
      ∀ failure q, s.feed vs = (.error failure, q) → r.feed (us ++ vs) = (.error failure, q) := by
  intro r
  have hr : r.Sound := (sound_ofCapacity n).serve calls
  refine ⟨?_, ?_, ?_⟩
  · intro failure s hfailed
    exact feed_append_of_error hfailed vs
  · intro report s hok hshort
    exact feed_append_of_short hok hshort vs
  · intro report s hok hall
    refine ⟨?_, ?_⟩
    · intro later q hlater
      exact feed_append_of_ok hr hok hall hlater
    · intro failure q hlater
      exact feed_append_of_later_error hr hok hall hlater

theorem feed_append_eq_of_values :
    let us : List Data.Token := [.scalar .null]
    let vs : List Data.Token := [.closing .array]
    let r := ((ofCapacity 16).serve []).2
    let s := (r.feed us).2
    let small := ((ofCapacity 0).serve []).2
    r.feed (us ++ us) = (.ok ⟨2, 3, false⟩, (s.feed us).2) ∧
      r.feed (us ++ vs) = (.error (.malformed ⟨1, .unmatchedEnd .array⟩), (s.feed vs).2) ∧
      r.feed (vs ++ us) = (.error (.malformed ⟨0, .unmatchedEnd .array⟩), (r.feed vs).2) ∧
      small.feed ((us ++ us) ++ vs) = (.ok ⟨1, 2, true⟩, (small.feed (us ++ us)).2) := by
  intro us vs r s small
  have hfirst : r.feed us = (.ok ⟨1, 2, false⟩, s) := Prod.ext rfl rfl
  have hsecond : s.feed us = (.ok ⟨1, 1, false⟩, (s.feed us).2) := Prod.ext rfl rfl
  have hlater : s.feed vs = (.error (.malformed ⟨1, .unmatchedEnd .array⟩), (s.feed vs).2) :=
    Prod.ext rfl rfl
  have hfailed : r.feed vs = (.error (.malformed ⟨0, .unmatchedEnd .array⟩), (r.feed vs).2) :=
    Prod.ext rfl rfl
  have hshort : small.feed (us ++ us) = (.ok ⟨1, 2, true⟩, (small.feed (us ++ us)).2) :=
    Prod.ext rfl rfl
  obtain ⟨-, -, hall⟩ := feed_append_eq 16 [] us us
  obtain ⟨-, -, hrest⟩ := feed_append_eq 16 [] us vs
  exact ⟨(hall _ _ hfirst rfl).1 _ _ hsecond, (hrest _ _ hfirst rfl).2 _ _ hlater,
    (feed_append_eq 16 [] vs us).1 _ _ hfailed,
    (feed_append_eq 0 [] (us ++ us) vs).2.1 _ _ hshort (by decide)⟩

end DataMarkup.Renderer
