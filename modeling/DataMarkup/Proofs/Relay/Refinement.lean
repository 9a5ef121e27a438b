import DataMarkup.Renderer.Relay
import DataMarkup.Proofs.Pull.Exhaustion
import DataMarkup.Proofs.Rendering.Outcome
import DataMarkup.Proofs.Renderer.Tracking

/-! A relay gives what a pull of all its chunks in one gives: wherever the input is cut, however small the
ring, and however much is read at a time. In every round something moves, so it never stalls. -/

namespace DataMarkup.Relay

variable {s : State} {limits : Nat → Option Nat} {chunk us vs ts : List Data.Token}
  {x : Option Halt × State}

namespace State

structure Goes (s : State) (ts : List Data.Token) : Prop where
  tracks : s.renderer.Tracks ts s.out.toList
  going : s.renderer.run.hasEnded = false

structure Fails (s : State) (ts : List Data.Token) (cause : Malformed) : Prop where
  wellFormed : s.renderer.ring.WellFormed
  run_eq : s.renderer.run = Run.start.after ts
  failure?_eq : (Run.start.after ts).failure? = some cause
  conserved : s.out.toList ++ s.renderer.ring.toList = Run.start.markup ts

theorem Fails.append {cause : Malformed} (h : s.Fails ts cause) (vs : List Data.Token) :
    s.Fails (ts ++ vs) cause := by
  have hended := Run.hasEnded_of_failure? h.failure?_eq
  refine ⟨h.wellFormed, ?_, ?_, ?_⟩
  · rw [Run.after_append, Run.after_of_hasEnded hended, h.run_eq]
  · rw [Run.after_append, Run.after_of_hasEnded hended, h.failure?_eq]
  · rw [Run.markup_append, Run.markup_of_hasEnded hended, List.append_nil, h.conserved]

/-! ### One call -/

theorem goes_start (n : Nat) : (start n).Goes [] := ⟨Renderer.tracks_ofCapacity n, rfl⟩

theorem unload_eq (h : s.renderer.ring.WellFormed) (limit : Option Nat) :
    ∃ ring, s.unload limit = ⟨⟨s.renderer.run, ring⟩,
        s.out ++ s.renderer.ring.toList.take (limit.getD s.renderer.ring.toList.length), s.tally⟩ ∧
      ring.Holds s.renderer.ring.capacity
        (s.renderer.ring.toList.drop (limit.getD s.renderer.ring.toList.length)) := by
  obtain ⟨ring, hunload, hring⟩ := Renderer.unload_eq h.holds s.out limit
  refine ⟨ring, ?_, hring⟩
  simp only [unload, hunload]

theorem unload_tracks (h : s.renderer.Tracks ts s.out.toList) (limit : Option Nat) :
    (s.unload limit).renderer.Tracks ts (s.unload limit).out.toList ∧
      (s.unload limit).renderer.run = s.renderer.run ∧
      (limit ≠ some 0 → 0 < s.waiting → (s.unload limit).waiting < s.waiting) := by
  obtain ⟨ring, hs, hring⟩ := unload_eq h.wellFormed limit
  rw [hs]
  refine ⟨?_, rfl, ?_⟩
  · have htaken := h.taken hring
    simpa using htaken
  · intro hlimit hpos
    have hcount : s.waiting = s.renderer.ring.toList.length := h.wellFormed.holds.count_eq
    show ring.count < s.waiting
    rw [hring.count_eq, List.length_drop, ← hcount]
    cases limit with
    | none => simpa using hpos
    | some k =>
      have hk : k ≠ 0 := fun hzero => hlimit (congrArg some hzero)
      simp only [Option.getD_some]
      omega

theorem Goes.unload (h : s.Goes ts) (limit : Option Nat) : (s.unload limit).Goes ts := by
  obtain ⟨htracks, hrun, -⟩ := unload_tracks h.tracks limit
  exact ⟨htracks, by rw [hrun]; exact h.going⟩

theorem feed_of_ok {report : FeedReport} {r : Renderer}
    (h : s.renderer.feed chunk = (.ok report, r)) :
    ∃ tally, s.feed chunk = (.ok report.consumed, ⟨r, s.out, tally⟩) := by
  simp only [feed, h]
  exact ⟨_, rfl⟩

theorem feed_of_error {failure : Failure} {r : Renderer}
    (h : s.renderer.feed chunk = (.error failure, r)) :
    ∃ tally, s.feed chunk = (.error failure, ⟨r, s.out, tally⟩) := by
  simp only [feed, h]
  exact ⟨_, rfl⟩

theorem feed_cases (h : s.Goes ts) (chunk : List Data.Token) :
    (∃ us vs s', chunk = us ++ vs ∧ s.feed chunk = (.ok us.length, s') ∧ s'.Goes (ts ++ us) ∧
      (vs ≠ [] → s'.renderer.hasRoom = false) ∧ (us = [] → s'.waiting = s.waiting)) ∨
    ∃ cause s', s.feed chunk = (.error (.malformed cause), s') ∧ s'.Fails (ts ++ chunk) cause := by
  rcases Renderer.feed_cases h.tracks.sound h.going chunk with
    ⟨us, vs, r, rfl, hfeed, hr, hfull⟩ | ⟨us, t, vs, fault, r, rfl, hr, hf, hfeed⟩
  · have htracks := h.tracks.absorbs h.going hr
    obtain ⟨tally, hs⟩ := feed_of_ok hfeed
    refine .inl ⟨us, vs, _, rfl, hs, ⟨htracks, hr.going⟩, hfull, ?_⟩
    rintro rfl
    exact hr.waiting_eq h.tracks.sound
  · have htracks := h.tracks.absorbs h.going hr
    have hrun := htracks.reaches.eq_after hr.going
    have hgo := htracks.reaches.going_after
    rw [hrun] at hf
    have hafter :
        (Run.start.after (ts ++ us)).stop fault = Run.start.after (ts ++ (us ++ t :: vs)) := by
      rw [← List.append_assoc, Run.after_of_fault hgo hf]
    have hbefore := htracks.conserved_of_going hr.going
    rw [← Run.markup_of_fault hgo hf vs, List.append_assoc] at hbefore
    obtain ⟨tally, hs⟩ := feed_of_error hfeed
    refine .inr ⟨_, _, hs, htracks.wellFormed, ?_, ?_, hbefore⟩
    · rw [hrun, hafter]
    · rw [← hafter, hrun, Run.failure?_stop]

theorem Goes.feed_ok {n : Nat} {s' : State} (h : s.Goes ts) (hfeed : s.feed chunk = (.ok n, s')) :
    ∃ us vs, chunk = us ++ vs ∧ us.length = n ∧ s'.Goes (ts ++ us) ∧
      (vs ≠ [] → s'.renderer.hasRoom = false) ∧ (us = [] → s'.waiting = s.waiting) := by
  rcases feed_cases h chunk with ⟨us, vs, u, hchunk, hs, hrest⟩ | ⟨cause, u, hs, -⟩
  · rw [hs, Prod.mk.injEq, Except.ok.injEq] at hfeed
    obtain ⟨hlen, rfl⟩ := hfeed
    exact ⟨us, vs, hchunk, hlen, hrest⟩
  · rw [hs, Prod.mk.injEq] at hfeed
    cases hfeed.1

theorem Goes.feed_error {failure : Failure} {s' : State} (h : s.Goes ts)
    (hfeed : s.feed chunk = (.error failure, s')) :
    ∃ cause, failure = .malformed cause ∧ s'.Fails (ts ++ chunk) cause := by
  rcases feed_cases h chunk with ⟨us, vs, u, hchunk, hs, -⟩ | ⟨cause, u, hs, hfails⟩
  · rw [hs, Prod.mk.injEq] at hfeed
    cases hfeed.1
  · rw [hs, Prod.mk.injEq, Except.error.injEq] at hfeed
    obtain ⟨rfl, rfl⟩ := hfeed
    exact ⟨cause, rfl, hfails⟩

theorem Goes.moves {n : Nat} {s' : State} {limit : Option Nat} (h : s.Goes ts)
    (hfeed : s.feed chunk = (.ok n, s')) (hrest : chunk.drop n ≠ []) (hlimit : limit ≠ some 0) :
    0 < n ∨ (s'.unload limit).waiting < s.waiting := by
  obtain ⟨us, vs, rfl, rfl, hs', hfull, hsame⟩ := h.feed_ok hfeed
  rw [List.drop_left] at hrest
  rcases Nat.eq_zero_or_pos us.length with hnone | hsome
  · have hpos : 0 < s'.waiting := hs'.tracks.sound.waiting_pos_of_not_hasRoom (hfull hrest)
    have hread := (unload_tracks hs'.tracks limit).2.2 hlimit hpos
    rw [hsame (List.eq_nil_of_length_eq_zero hnone)] at hread
    exact .inr hread
  · exact .inl hsome

end State

/-! ### All chunks -/

inductive Sends (ts : List Data.Token) : Option Halt × State → Prop
  | going {s : State} (h : s.Goes ts) : Sends ts (none, s)
  | failed {s : State} {cause : Malformed} (h : s.Fails ts cause) :
    Sends ts (some (.failed (.malformed cause)), s)

theorem sends_sendChunk (hl : ∀ k, limits k ≠ some 0) (chunk : List Data.Token) (h : s.Goes ts) :
    Sends (ts ++ chunk) (s.sendChunk limits chunk) := by
  fun_induction State.sendChunk limits chunk s generalizing ts with
  | case1 chunk s failure s' hfeed =>
    obtain ⟨cause, rfl, hfails⟩ := h.feed_error hfeed
    exact .failed hfails
  | case2 chunk s consumed s' hfeed u =>
    rename_i hempty
    obtain ⟨us, vs, rfl, rfl, hs', -⟩ := h.feed_ok hfeed
    rw [List.drop_left, List.isEmpty_iff] at hempty
    rw [hempty, List.append_nil]
    exact .going (hs'.unload _)
  | case3 chunk s before consumed s' hfeed u hrest hmoved =>
    rename_i ih
    obtain ⟨us, vs, rfl, rfl, hs', -⟩ := h.feed_ok hfeed
    have hsends := ih (hs'.unload (limits s'.calls))
    rw [List.drop_left, List.append_assoc] at hsends
    rwa [List.drop_left]
  | case4 chunk s before consumed s' hfeed u hrest =>
    rename_i hstill
    rw [List.isEmpty_iff] at hrest
    exact absurd (h.moves hfeed hrest (hl s'.calls)) hstill

theorem sends_send (hl : ∀ k, limits k ≠ some 0) (chunks : List (List Data.Token)) (h : s.Goes ts) :
    Sends (ts ++ chunks.flatten) (s.send limits chunks) := by
  induction chunks generalizing s ts with
  | nil =>
    rw [List.flatten_nil, List.append_nil]
    exact .going h
  | cons chunk chunks ih =>
    have hchunk := sends_sendChunk hl chunk h
    rw [List.flatten_cons, ← List.append_assoc, State.send]
    generalize s.sendChunk limits chunk = x at hchunk
    -- After a failure the other chunks are not fed, and what they hold does not matter.
    cases hchunk with
    | going hs => exact ih hs
    | failed hs => exact .failed (hs.append _)

/-! ### The end of the input -/

/-- The relay has come to what rendering comes to, but for the markup that still waits. -/
structure Settles (ts : List Data.Token) (x : Option Halt × State) : Prop where
  wellFormed : x.2.renderer.ring.WellFormed
  run_eq : x.2.renderer.run = (render ts).run
  conserved : x.2.out.toList ++ x.2.renderer.ring.toList = (render ts).markup
  halt?_eq : x.1 = (render ts).failure?.map fun cause => .failed (.malformed cause)

theorem State.Fails.settles {cause : Malformed} (h : s.Fails ts cause) :
    Settles ts (some (.failed (.malformed cause)), s) := by
  have hended := Run.hasEnded_of_failure? h.failure?_eq
  have hrender : render ts = ⟨Run.start.markup ts, Run.start.after ts⟩ := by
    rw [render_eq, Run.finish_of_hasEnded hended, List.append_nil]
  refine ⟨h.wellFormed, ?_, ?_, ?_⟩
  · rw [hrender, h.run_eq]
  · rw [hrender, h.conserved]
  · rw [hrender, Rendering.failure?, h.failure?_eq, Option.map_some]

theorem settles_of_tracks {halt? : Option Halt} (h : s.renderer.Tracks ts s.out.toList)
    (hrun : s.renderer.run = (render ts).run)
    (hhalt : halt? = s.renderer.run.failure?.map fun cause => .failed (.malformed cause)) :
    Settles ts (halt?, s) := by
  refine ⟨h.wellFormed, hrun, ?_, ?_⟩
  · rw [run_render] at hrun
    rw [h.conserved, markup_render, Renderer.wrapperEnd_of_finish h.reaches.going_after hrun]
  · rw [hhalt, hrun]
    rfl

namespace State

theorem finish_of_ok {report : FeedReport} {r : Renderer}
    (h : s.renderer.finish = (.ok report, r)) :
    ∃ tally, s.finish = (.ok (), ⟨r, s.out, tally⟩) := by
  simp only [finish, h]
  exact ⟨_, rfl⟩

theorem finish_of_error {failure : Failure} {r : Renderer}
    (h : s.renderer.finish = (.error failure, r)) :
    ∃ tally, s.finish = (.error failure, ⟨r, s.out, tally⟩) := by
  simp only [finish, h]
  exact ⟨_, rfl⟩

theorem Goes.refused (h : s.Goes ts) (hfull : s.renderer.ring.isFull = true) :
    ∃ s', s.finish = (.ok (), s') ∧ s'.Goes ts ∧ s'.waiting = s.waiting ∧ 0 < s.waiting := by
  obtain ⟨tally, hs⟩ :=
    finish_of_ok (Renderer.finish_of_isFull (Run.failure?_of_going h.going) hfull)
  have hpos := h.tracks.sound.waiting_pos_of_isFull hfull
  exact ⟨_, hs, ⟨h.tracks, h.going⟩, rfl, hpos⟩

theorem finish_cases (h : s.Goes ts) :
    (∃ s', s.finish = (.ok (), s') ∧ s'.Goes ts ∧ s'.waiting = s.waiting ∧ 0 < s.waiting) ∨
    (∃ s', s.finish = (.ok (), s') ∧ s'.renderer.Tracks ts s'.out.toList ∧
      s'.renderer.run = (render ts).run ∧ s'.renderer.isFinished = true) ∨
    ∃ cause s', s.finish = (.error (.malformed cause), s') ∧
      Settles ts (some (.failed (.malformed cause)), s') := by
  have hrun := h.tracks.reaches.eq_after h.going
  cases hfull : s.renderer.ring.isFull with
  | true => exact .inl (h.refused hfull)
  | false =>
    by_cases hd : s.renderer.depth = 0
    · obtain ⟨ring, hfinish, hring⟩ := Renderer.finish_of_closed h.tracks.sound h.going hfull hd
      obtain ⟨tally, hs⟩ := finish_of_ok hfinish
      refine .inr (.inl ⟨_, hs, h.tracks.close h.going hd hring, ?_, ?_⟩)
      · rw [run_render, ← hrun]
      · exact Run.isDone_finish_of_closed h.going hd
    · obtain ⟨tally, hs⟩ := finish_of_error (Renderer.finish_of_unclosed h.going hfull hd)
      have htracks := h.tracks.stop h.going .unclosedContainer
      refine .inr (.inr ⟨_, _, hs, settles_of_tracks htracks ?_ rfl⟩)
      rw [run_render, ← hrun, Run.finish_of_unclosed h.going hd]

theorem Goes.finish_ok {s' : State} {a : Unit} (h : s.Goes ts) (hfinish : s.finish = (.ok a, s')) :
    (s'.Goes ts ∧ s'.waiting = s.waiting ∧ 0 < s.waiting) ∨
      (s'.renderer.Tracks ts s'.out.toList ∧ s'.renderer.run = (render ts).run ∧
        s'.renderer.isFinished = true) := by
  rcases finish_cases h with ⟨u, hs, hrest⟩ | ⟨u, hs, hrest⟩ | ⟨cause, u, hs, -⟩
  · rw [hs, Prod.mk.injEq] at hfinish
    exact .inl (hfinish.2 ▸ hrest)
  · rw [hs, Prod.mk.injEq] at hfinish
    exact .inr (hfinish.2 ▸ hrest)
  · rw [hs, Prod.mk.injEq] at hfinish
    cases hfinish.1

theorem Goes.finish_error {s' : State} {failure : Failure} (h : s.Goes ts)
    (hfinish : s.finish = (.error failure, s')) : Settles ts (some (.failed failure), s') := by
  rcases finish_cases h with ⟨u, hs, -⟩ | ⟨u, hs, -⟩ | ⟨cause, u, hs, hsettles⟩
  · rw [hs, Prod.mk.injEq] at hfinish
    cases hfinish.1
  · rw [hs, Prod.mk.injEq] at hfinish
    cases hfinish.1
  · rw [hs, Prod.mk.injEq, Except.error.injEq] at hfinish
    obtain ⟨rfl, rfl⟩ := hfinish
    exact hsettles

end State

theorem settles_close (hl : ∀ k, limits k ≠ some 0) (h : s.Goes ts) :
    Settles ts (s.close limits) := by
  fun_induction State.close limits s with
  | case1 s hfinished =>
    have hgo : s.renderer.isFinished = false := Run.isDone_of_going h.going
    rw [hgo] at hfinished
    exact absurd hfinished Bool.noConfusion
  | case2 s hgo failure s' hfinish => exact h.finish_error hfinish
  | case3 s hgo a s' hfinish u =>
    rename_i hfinished
    rcases h.finish_ok hfinish with ⟨hs', -⟩ | ⟨hs', hrun, hdone⟩
    · have hgoes := hs'.unload (limits s'.calls)
      rw [show u.renderer.isFinished = false from Run.isDone_of_going hgoes.going] at hfinished
      exact absurd hfinished Bool.noConfusion
    · obtain ⟨htracks, hsame, -⟩ := State.unload_tracks hs' (limits s'.calls)
      refine settles_of_tracks htracks (hsame.trans hrun) ?_
      rw [Run.failure?_of_isDone hfinished]
      rfl
  | case4 s hgo before a s' hfinish u hunfinished =>
    rename_i ih
    rcases h.finish_ok hfinish with ⟨hs', -⟩ | ⟨hs', hrun, hdone⟩
    · exact ih (hs'.unload (limits s'.calls))
    · obtain ⟨-, hsame, -⟩ := State.unload_tracks hs' (limits s'.calls)
      exact absurd ((congrArg Run.isDone hsame).trans hdone) hunfinished
  | case5 s hgo before a s' hfinish u hunfinished =>
    -- A refusal means a full ring, and reading takes a token from it.
    rename_i hstill
    rcases h.finish_ok hfinish with ⟨hs', hsame, hpos⟩ | ⟨hs', hrun, hdone⟩
    · rw [← hsame] at hpos
      have hread := (State.unload_tracks hs'.tracks _).2.2 (hl s'.calls) hpos
      rw [hsame] at hread
      exact absurd hread hstill
    · obtain ⟨-, hsame, -⟩ := State.unload_tracks hs' (limits s'.calls)
      exact absurd ((congrArg Run.isDone hsame).trans hdone) hunfinished

/-! ### The whole relay -/

theorem settles_relay (n : Nat) (hl : ∀ k, limits k ≠ some 0) (chunks : List (List Data.Token)) :
    Settles chunks.flatten
      (match (State.start n).send limits chunks with
      | (none, s) => s.close limits
      | (some halt, s) => (some halt, s)) := by
  have hsends := sends_send hl chunks (State.goes_start n)
  rw [List.nil_append] at hsends
  generalize (State.start n).send limits chunks = x at hsends
  cases hsends with
  | going h => exact settles_close hl h
  | failed h => exact h.settles

theorem Settles.unload (h : Settles ts x) :
    (x.2.unload none).out.toList = (render ts).markup ∧
      (x.2.unload none).renderer.run = (render ts).run := by
  obtain ⟨ring, hunload, -⟩ := State.unload_eq h.wellFormed none
  rw [hunload, Option.getD_none, List.take_length, ← h.conserved, ← h.run_eq]
  exact ⟨Array.toList_appendList, rfl⟩

/-- However the chunks are cut and however the reads are spread, a relay gives the markup of a pull and
ends as the pull does: well, or at the same token of the whole input for the same reason. -/
theorem relayBy_eq_exhaust (n : Nat) (hl : ∀ k, limits k ≠ some 0)
    (chunks : List (List Data.Token)) :
    let relayed := relayBy n limits chunks
    let pulled := (Pull.ofList chunks.flatten).exhaust
    relayed.markup = pulled.markup.toList ∧
      relayed.halt? = pulled.failure?.map .failed ∧
      relayed.renderer.isFinished = pulled.failure?.isNone ∧
      ∀ failure, pulled.failure? = some failure → ∃ cause, failure = .malformed cause := by
  intro relayed pulled
  have hsettles := settles_relay n hl chunks
  obtain ⟨hout, hrun⟩ := hsettles.unload
  have hmarkup : pulled.markup.toList = (render chunks.flatten).markup := Pull.markup_exhaust _
  have hfailure : pulled.failure? = (render chunks.flatten).failure?.map .malformed :=
    Pull.failure?_exhaust _
  have hended : (render chunks.flatten).run.hasEnded = true := by
    rw [run_render]
    exact Run.hasEnded_finish _
  refine ⟨hout.trans hmarkup.symm, ?_, ?_, ?_⟩
  · rw [hfailure, Option.map_map]
    exact hsettles.halt?_eq
  · rw [hfailure, Option.isNone_map]
    exact (congrArg Run.isDone hrun).trans (Run.isDone_eq_of_hasEnded hended)
  · intro failure hsome
    rw [hfailure, Option.map_eq_some_iff] at hsome
    obtain ⟨cause, -, rfl⟩ := hsome
    exact ⟨cause, rfl⟩

theorem relayBy_eq_exhaust_unmatched :
    let limits : Nat → Option Nat := fun k => if k % 2 = 0 then none else some 1
    let chunks : List (List Data.Token) := [[.opening .array none], [], [.closing .object]]
    (∀ k, limits k ≠ some 0) ∧
      (relayBy 0 limits chunks).markup = [Markup.Tag.div.start, Markup.Tag.ol.start] ∧
      (relayBy 0 limits chunks).halt? =
        some (.failed (.malformed ⟨1, .unmatchedEnd .object⟩)) := by
  intro limits chunks
  have hl : ∀ k, limits k ≠ some 0 := by
    intro k
    show (if k % 2 = 0 then none else some 1) ≠ some 0
    split <;> simp
  obtain ⟨hmarkup, hhalt, -, -⟩ := relayBy_eq_exhaust 0 hl chunks
  refine ⟨hl, ?_, ?_⟩
  · rw [hmarkup, Pull.markup_exhaust]
    rfl
  · rw [hhalt, Pull.failure?_exhaust]
    rfl

end DataMarkup.Relay
