import DataMarkup.Renderer.Call
import DataMarkup.Proofs.Renderer.Absorption

/-! The ways in which a call on a renderer can go, whatever calls came before it. The state of the run
and the room in the ring decide which way it is. -/

namespace DataMarkup.Renderer

variable {r s : Renderer} {ts us : List Data.Token} {x : Except Failure FeedReport × Renderer}

/-- A run that has ended takes nothing. One that goes on takes tokens until they are used up, until there
is no room for another, or until one has no place. -/
inductive Feeds (r : Renderer) (ts : List Data.Token) :
    Except Failure FeedReport × Renderer → Prop
  | failed {cause : Malformed} (h : r.run.failure? = some cause) :
    Feeds r ts (.error (.malformed cause), r)
  | done (h : r.isFinished = true) : Feeds r ts (.ok ⟨0, 0, false⟩, r)
  | taken {us vs : List Data.Token} {s : Renderer} (going : r.run.hasEnded = false)
    (split : ts = us ++ vs) (absorbs : r.Absorbs us s) (full : vs ≠ [] → s.hasRoom = false) :
    Feeds r ts (.ok ⟨us.length, (r.run.markup us).length, !s.hasRoom⟩, s)
  | stopped {us vs : List Data.Token} {t : Data.Token} {fault : Fault} {s : Renderer}
    (going : r.run.hasEnded = false) (split : ts = us ++ t :: vs) (absorbs : r.Absorbs us s)
    (misplaced : s.run.nesting.fault? t = some fault) :
    Feeds r ts (.error (.malformed ⟨s.run.accepted, fault⟩), ⟨s.run.stop fault, s.ring⟩)

theorem feeds_feed (h : r.Sound) (ts : List Data.Token) : r.Feeds ts (r.feed ts) := by
  cases hgo : r.run.hasEnded with
  | false =>
    rcases feed_cases h hgo ts with
      ⟨us, vs, s, hts, hfeed, hs, hfull⟩ | ⟨us, t, vs, fault, s, hts, hs, hf, hfeed⟩
    · rw [hfeed]
      exact .taken hgo hts hs hfull
    · rw [hfeed]
      exact .stopped hgo hts hs hf
  | true =>
    cases hcause : r.run.failure? with
    | some cause =>
      rw [feed_of_failed hcause]
      exact .failed hcause
    | none =>
      have hdone : r.isFinished = true := Run.isDone_of_hasEnded hgo hcause
      rw [feed_of_done hcause hdone]
      exact .done hdone

/-- A full ring puts the end off, even where there is nothing left to end. -/
inductive Finishes (r : Renderer) : Except Failure FeedReport × Renderer → Prop
  | failed {cause : Malformed} (h : r.run.failure? = some cause) :
    Finishes r (.error (.malformed cause), r)
  | full (h : r.run.failure? = none) (full : r.ring.isFull = true) :
    Finishes r (.ok ⟨0, 0, true⟩, r)
  | done (h : r.isFinished = true) (room : r.ring.isFull = false) :
    Finishes r (.ok ⟨0, 0, false⟩, r)
  | unclosed (going : r.run.hasEnded = false) (room : r.ring.isFull = false)
    (hd : r.depth ≠ 0) :
    Finishes r (.error (.malformed ⟨r.run.accepted, .unclosedContainer⟩),
      ⟨r.run.stop .unclosedContainer, r.ring⟩)
  | closed {ring : Ring Markup.Token} (going : r.run.hasEnded = false)
    (room : r.ring.isFull = false) (hd : r.depth = 0)
    (holds : ring.Holds r.ring.capacity (r.ring.toList ++ r.run.finish.2)) :
    Finishes r (.ok ⟨0, r.run.finish.2.length, ring.isFull⟩, ⟨r.run.finish.1, ring⟩)

theorem finishes_finish (h : r.Sound) : r.Finishes r.finish := by
  cases hcause : r.run.failure? with
  | some cause =>
    rw [finish_of_failed hcause]
    exact .failed hcause
  | none =>
    cases hfull : r.ring.isFull with
    | true =>
      rw [finish_of_isFull hcause hfull]
      exact .full hcause hfull
    | false =>
      cases hgo : r.run.hasEnded with
      | true =>
        have hdone : r.isFinished = true := Run.isDone_of_hasEnded hgo hcause
        rw [finish_of_done hcause hfull hdone]
        exact .done hdone hfull
      | false =>
        by_cases hd : r.depth = 0
        · obtain ⟨ring, hfinish, hring⟩ := finish_of_closed h hgo hfull hd
          rw [hfinish]
          exact .closed hgo hfull hd hring
        · rw [finish_of_unclosed hgo hfull hd]
          exact .unclosed hgo hfull hd

/-! ### What every call keeps -/

theorem Sound.stop (h : r.Sound) (fault : Fault) : Sound ⟨r.run.stop fault, r.ring⟩ :=
  ⟨fun hp => Phase.noConfusion hp, h.wellFormed, h.maxMarkup_le⟩

theorem Sound.ring {ring : Ring Markup.Token} {ms : List Markup.Token} (h : r.Sound)
    (hring : ring.Holds r.ring.capacity ms) : Sound ⟨r.run, ring⟩ := by
  refine ⟨h.coherent, hring.wellFormed, ?_⟩
  rw [hring.capacity_eq]
  exact h.maxMarkup_le

theorem Sound.run {run : Run} (h : r.Sound) (hrun : run.Coherent) : Sound ⟨run, r.ring⟩ :=
  ⟨hrun, h.wellFormed, h.maxMarkup_le⟩

theorem Feeds.sound (hx : r.Feeds ts x) (h : r.Sound) : x.2.Sound := by
  cases hx with
  | failed _ => exact h
  | done _ => exact h
  | taken _ _ absorbs _ => exact absorbs.sound h
  | stopped _ _ absorbs _ => exact (absorbs.sound h).stop _

theorem Finishes.sound (hx : r.Finishes x) (h : r.Sound) : x.2.Sound := by
  cases hx with
  | failed _ => exact h
  | full _ _ => exact h
  | done _ _ => exact h
  | unclosed _ _ _ => exact h.stop _
  | closed _ _ _ holds => exact (h.run h.coherent.finish).ring holds

theorem Feeds.eq_of_hasEnded (hx : r.Feeds ts x) (h : r.run.hasEnded = true) : x.2 = r := by
  cases hx with
  | failed _ | done _ => rfl
  | taken hgo _ _ _ | stopped hgo _ _ _ =>
    rw [hgo] at h
    exact absurd h Bool.noConfusion

theorem Finishes.eq_of_hasEnded (hx : r.Finishes x) (h : r.run.hasEnded = true) : x.2 = r := by
  cases hx with
  | failed _ | full _ _ | done _ _ => rfl
  | unclosed hgo _ _ | closed hgo _ _ _ =>
    rw [hgo] at h
    exact absurd h Bool.noConfusion

theorem Sound.read (h : r.Sound) : r.read.2.Sound := by
  cases hms : r.ring.toList with
  | nil =>
    rw [read_nil (h.wellFormed.holds_of_toList_eq hms)]
    exact h
  | cons m ms =>
    obtain ⟨ring, hread, hring⟩ := read_cons (h.wellFormed.holds_of_toList_eq hms)
    rw [hread]
    exact h.ring hring

theorem Sound.unload (h : r.Sound) (out : Array Markup.Token) (limit : Option Nat) :
    (r.unload out limit).2.Sound := by
  obtain ⟨ring, hunload, hring⟩ := unload_eq h.wellFormed.holds out limit
  rw [hunload]
  exact h.ring hring

theorem Sound.answer (h : r.Sound) (c : Call) : (r.answer c).2.Sound := by
  cases c with
  | feed ts => exact (feeds_feed h ts).sound h
  | finish => exact (finishes_finish h).sound h
  | read => exact h.read
  | drain limit => exact h.unload #[] limit
  | peek => exact h
  | buffered => exact h

theorem Sound.serve (h : r.Sound) (cs : List Call) : (r.serve cs).2.Sound := by
  induction cs generalizing r with
  | nil => exact h
  | cons c cs ih => exact ih (h.answer c)

end DataMarkup.Renderer
