import DataMarkup.Proofs.Renderer.Ledger

/-! An end is for good. A renderer that has failed gives the same failure to every feed and every request
for the end; one that is finished takes nothing more and grants its end again. What was buffered at that
moment is all that still comes out. -/

namespace DataMarkup

theorem Run.Reaches.depth_eq_zero {ts : List Data.Token} {run : Run} (h : Reaches ts run)
    (hdone : run.isDone = true) : run.depth = 0 := by
  cases h with
  | going h =>
    rw [isDone_of_going h] at hdone
    exact absurd hdone Bool.noConfusion
  | stopped h fault => exact absurd hdone Bool.noConfusion
  | done h hd => rw [depth_finish, hd]

theorem Ledger.taken_enter_report (l : Ledger) (c : Call) (result : Except Failure FeedReport) :
    (l.enter c (.report result)).taken = l.taken := by
  cases c with
  | feed ts => rcases result with (_ | _ | _) | _ <;> rfl
  | finish | read | drain | peek | buffered => rfl

namespace Renderer

variable {r : Renderer} {ts : List Data.Token} {x : Except Failure FeedReport × Renderer}
  {cause : Malformed} {failure : Failure}

/-! ### One call -/

theorem answer_of_hasEnded (h : r.Sound) (hended : r.run.hasEnded = true) (l : Ledger) (c : Call) :
    (r.answer c).2.run = r.run ∧
      (l.enter c (r.answer c).1).taken ++ (r.answer c).2.ring.toList =
        l.taken ++ r.ring.toList := by
  cases c with
  | feed ts =>
    have hsame := (feeds_feed h ts).eq_of_hasEnded hended
    refine ⟨congrArg run hsame, ?_⟩
    show (l.enter (.feed ts) (.report (r.feed ts).1)).taken ++ (r.feed ts).2.ring.toList = _
    rw [Ledger.taken_enter_report, hsame]
  | finish =>
    have hsame := (finishes_finish h).eq_of_hasEnded hended
    refine ⟨congrArg run hsame, ?_⟩
    show (l.enter .finish (.report r.finish.1)).taken ++ r.finish.2.ring.toList = _
    rw [Ledger.taken_enter_report, hsame]
  | read =>
    refine ⟨rfl, ?_⟩
    show (l.enter .read (.token r.read.1)).taken ++ r.read.2.ring.toList = _
    cases hms : r.ring.toList with
    | nil =>
      rw [read_nil (h.wellFormed.holds_of_toList_eq hms), hms]
      simp [Ledger.enter]
    | cons m ms =>
      obtain ⟨ring, hread, hring⟩ := read_cons (h.wellFormed.holds_of_toList_eq hms)
      rw [hread]
      simp [Ledger.enter, hring.items_eq]
  | drain limit =>
    refine ⟨rfl, ?_⟩
    obtain ⟨ring, hunload, hring⟩ := unload_eq h.wellFormed.holds #[] limit
    show (l.enter (.drain limit) (.tokens (r.unload #[] limit).1.toList)).taken ++
      (r.unload #[] limit).2.ring.toList = _
    rw [hunload]
    simp [Ledger.enter, hring.items_eq]
  | peek => exact ⟨rfl, rfl⟩
  | buffered => exact ⟨rfl, rfl⟩

theorem answer_drain_all (h : r.Sound) : (r.answer (.drain none)).1 = .tokens r.ring.toList := by
  obtain ⟨ring, hunload, -⟩ := unload_eq h.wellFormed.holds #[] none
  show Answer.tokens (r.unload #[] none).1.toList = _
  rw [hunload]
  simp

theorem finish_of_finished (h : r.isFinished = true) : r.finish.1 = .ok ⟨0, 0, r.ring.isFull⟩ := by
  have hf : r.run.failure? = none := Run.failure?_of_isDone h
  cases hfull : r.ring.isFull with
  | true => rw [finish_of_isFull hf hfull]
  | false => rw [finish_of_done hf hfull h]

theorem failure?_answer (h : r.Sound) (c : Call) :
    (r.answer c).2.run.failure?.map .malformed =
      (r.answer c).1.failure?.or (r.run.failure?.map .malformed) := by
  cases c with
  | feed ts =>
    have hfeeds := feeds_feed h ts
    show (r.feed ts).2.run.failure?.map _ = (Answer.report (r.feed ts).1).failure?.or _
    generalize r.feed ts = x at hfeeds ⊢
    cases hfeeds with
    | failed hcause => rw [hcause]; rfl
    | done _ => rfl
    | taken hgo _ hs _ => rw [Run.failure?_of_going hs.going, Run.failure?_of_going hgo]; rfl
    | stopped _ _ _ _ => rfl
  | finish =>
    have hfinishes := finishes_finish h
    show r.finish.2.run.failure?.map _ = (Answer.report r.finish.1).failure?.or _
    generalize r.finish = x at hfinishes ⊢
    cases hfinishes with
    | failed hcause => rw [hcause]; rfl
    | full _ _ | done _ _ => rfl
    | unclosed _ _ _ => rfl
    | closed hgo _ hd _ =>
      rw [Run.failure?_finish_of_closed hgo hd, Run.failure?_of_going hgo]
      rfl
  | read | drain limit | peek | buffered => rfl

/-! ### Further calls -/

theorem serve_of_hasEnded (h : r.Sound) (hended : r.run.hasEnded = true) (l : Ledger)
    (cs : List Call) :
    (r.serve cs).2.run = r.run ∧
      (l.enterAll (cs.zip ((r.serve cs).1.map Prod.fst))).taken ++ (r.serve cs).2.ring.toList =
        l.taken ++ r.ring.toList := by
  induction cs generalizing r l with
  | nil => exact ⟨rfl, rfl⟩
  | cons c cs ih =>
    obtain ⟨hrun, htaken⟩ := answer_of_hasEnded h hended l c
    obtain ⟨hruns, hall⟩ := ih (h.answer c) (hrun ▸ hended) (l.enter c (r.answer c).1)
    exact ⟨hruns.trans hrun, hall.trans htaken⟩

theorem failure?_serve (h : r.Sound) (cs : List Call) :
    (r.serve cs).2.run.failure?.map .malformed =
      (r.run.failure?.map .malformed).or
        ((r.serve cs).1.findSome? fun seen => seen.1.failure?) := by
  induction cs generalizing r with
  | nil => exact (Option.or_none).symm
  | cons c cs ih =>
    have hcall := failure?_answer h c
    have hlater := ih (h.answer c)
    cases hcause : r.run.failure? with
    | some cause =>
      -- What has failed before stays, whatever the answers are now.
      have hkept := (serve_of_hasEnded h (Run.hasEnded_of_failure? hcause) .empty (c :: cs)).1
      rw [hkept, hcause]
      rfl
    | none =>
      rw [hcause, Option.map_none, Option.or_none] at hcall
      rw [hcall] at hlater
      rw [Option.map_none, Option.none_or]
      show ((r.answer c).2.serve cs).2.run.failure?.map _ =
        List.findSome? _ (((r.answer c).1, _) :: ((r.answer c).2.serve cs).1)
      rw [hlater, List.findSome?_cons]
      cases (r.answer c).1.failure? <;> rfl

theorem exists_of_mem_serve {seen : Answer × Status} {cs : List Call} (h : r.Sound)
    (hseen : seen ∈ (r.serve cs).1) :
    ∃ (q : Renderer) (c : Call) (later : List Call), q.Sound ∧
      seen = ((q.answer c).1, (q.answer c).2.status) ∧
      (r.serve cs).2 = ((q.answer c).2.serve later).2 := by
  induction cs generalizing r with
  | nil => exact absurd hseen List.not_mem_nil
  | cons c cs ih =>
    rcases List.mem_cons.mp hseen with rfl | hlater
    · exact ⟨r, c, cs, h, rfl, rfl⟩
    · exact ih (h.answer c) hlater

theorem failure?_of_mem_serve {seen : Answer × Status} {cs : List Call} (h : r.Sound)
    (hseen : seen ∈ (r.serve cs).1) (hfailure : seen.1.failure? = some failure) :
    ∃ cause, failure = .malformed cause ∧ (r.serve cs).2.run.failure? = some cause := by
  obtain ⟨q, c, later, hq, rfl, hserve⟩ := exists_of_mem_serve h hseen
  have hstate := failure?_answer hq c
  rw [hfailure, Option.some_or] at hstate
  obtain ⟨cause, hcause, rfl⟩ := Option.map_eq_some_iff.mp hstate
  have hkept := (serve_of_hasEnded (hq.answer c) (Run.hasEnded_of_failure? hcause) .empty later).1
  refine ⟨cause, rfl, ?_⟩
  rw [hserve, hkept, hcause]

theorem isFinished_of_mem_serve {seen : Answer × Status} {cs : List Call} (h : r.Sound)
    (hseen : seen ∈ (r.serve cs).1) (hdone : seen.2.isFinished = true) :
    (r.serve cs).2.isFinished = true := by
  obtain ⟨q, c, later, hq, rfl, hserve⟩ := exists_of_mem_serve h hseen
  have hended : (q.answer c).2.run.hasEnded = true := Run.hasEnded_of_isDone hdone
  have hkept := (serve_of_hasEnded (hq.answer c) hended .empty later).1
  rw [hserve, isFinished, hkept]
  exact hdone

/-- Once a call has failed, all feeds and requests for the end fail as it did, at the same depth. Once the
end is granted, feeds take nothing, the end is granted again and the depth is 0. From either moment on
what is taken out is what was buffered, and a drain takes all that is left of it. No calls lead to both. -/
theorem serve_of_ended (n : Nat) (bs cs : List Call) :
    let served := (ofCapacity n).serve bs
    let r := served.2
    let later := r.serve cs
    let s := later.2
    let taken := (Ledger.empty.enterAll (cs.zip (later.1.map Prod.fst))).taken
    (∀ failure, (∃ seen ∈ served.1, seen.1.failure? = some failure) →
      (∀ ts, (s.feed ts).1 = .error failure) ∧ s.finish.1 = .error failure ∧
        s.isFinished = false ∧ s.depth = r.depth ∧ taken ++ s.ring.toList = r.ring.toList) ∧
    (r.isFinished = true →
      (∀ ts, (s.feed ts).1 = .ok ⟨0, 0, false⟩) ∧ s.finish.1 = .ok ⟨0, 0, s.ring.isFull⟩ ∧
        s.isFinished = true ∧ s.depth = 0 ∧ taken ++ s.ring.toList = r.ring.toList) ∧
    (s.answer (.drain none)).1 = .tokens s.ring.toList ∧
    ((∃ seen ∈ served.1, seen.1.failure? ≠ none) →
      ∀ seen ∈ served.1, seen.2.isFinished = false) := by
  intro served r later s taken
  have hstart : (ofCapacity n).Sound := sound_ofCapacity n
  have hr : r.Sound := hstart.serve bs
  refine ⟨?_, ?_, answer_drain_all (hr.serve cs), ?_⟩
  · rintro failure ⟨seen, hseen, hfailure⟩
    obtain ⟨cause, rfl, hcause⟩ := failure?_of_mem_serve hstart hseen hfailure
    obtain ⟨hrun, htaken⟩ := serve_of_hasEnded hr (Run.hasEnded_of_failure? hcause) .empty cs
    have hs : s.run.failure? = some cause := (congrArg Run.failure? hrun).trans hcause
    refine ⟨?_, ?_, ?_, congrArg Run.depth hrun, htaken⟩
    · intro ts
      rw [feed_of_failed hs]
    · rw [finish_of_failed hs]
    · rw [isFinished, Run.isDone_eq_of_hasEnded (Run.hasEnded_of_failure? hs), hs]
      rfl
  · intro hdone
    obtain ⟨hrun, htaken⟩ := serve_of_hasEnded hr (Run.hasEnded_of_isDone hdone) .empty cs
    have hs : s.isFinished = true := (congrArg Run.isDone hrun).trans hdone
    have hbalances := balances_serve (l := .empty) (tracks_ofCapacity n) bs
    have hdepth : r.depth = 0 := hbalances.reaches.depth_eq_zero hdone
    refine ⟨?_, finish_of_finished hs, hs, (congrArg Run.depth hrun).trans hdepth, htaken⟩
    intro ts
    rw [feed_of_done (Run.failure?_of_isDone hs) hs]
  · rintro ⟨seen, hseen, hfailed⟩ shown hshown
    obtain ⟨failure, hfailure⟩ := Option.ne_none_iff_exists'.mp hfailed
    obtain ⟨cause, rfl, hcause⟩ := failure?_of_mem_serve hstart hseen hfailure
    by_contra hdone
    have hfinished := isFinished_of_mem_serve hstart hshown (Bool.not_eq_false _ ▸ hdone)
    have hended := Run.hasEnded_of_failure? hcause
    rw [isFinished, Run.isDone_eq_of_hasEnded hended, hcause] at hfinished
    exact absurd hfinished Bool.noConfusion

theorem serve_of_ended_unmatched :
    let chunk : List Data.Token := [.opening .array none, .closing .object]
    let r := ((ofCapacity 8).serve [.feed chunk]).2
    let s := (r.serve [.read, .finish]).2
    let e := ((ofCapacity 0).serve [.finish]).2
    let failure : Failure := .malformed ⟨1, .unmatchedEnd .object⟩
    (∀ ts, (s.feed ts).1 = .error failure) ∧ s.depth = 1 ∧
      e.isFinished = true ∧ ∀ ts, (e.feed ts).1 = .ok ⟨0, 0, false⟩ := by
  intro chunk r s e failure
  have hseen : ∃ seen ∈ ((ofCapacity 8).serve [.feed chunk]).1, seen.1.failure? = some failure :=
    ⟨_, List.mem_cons_self, rfl⟩
  obtain ⟨hfeed, -, -, hdepth, -⟩ :=
    (serve_of_ended 8 [.feed chunk] [.read, .finish]).1 failure hseen
  have hdone : e.isFinished = true := rfl
  obtain ⟨hnone, -⟩ := (serve_of_ended 0 [.finish] []).2.1 hdone
  exact ⟨hfeed, hdepth, hdone, hnone⟩

end Renderer
end DataMarkup
