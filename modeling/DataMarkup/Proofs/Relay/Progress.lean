import DataMarkup.Renderer.Loop
import DataMarkup.Proofs.Relay.Refinement
import DataMarkup.Proofs.Renderer.Outcome

/-! Every round of a relay takes a token or reads one, so there are no more rounds than tokens to take and
to read. What a renderer refuses for want of room it takes once a token has been read. -/

namespace DataMarkup

namespace Renderer

variable {r : Renderer}

theorem read_of_waiting (h : r.Sound) (hpos : 0 < r.waiting) :
    ∃ m ring, r.read = (some m, ⟨r.run, ring⟩) ∧
      ring.Holds r.ring.capacity r.ring.toList.tail := by
  cases hms : r.ring.toList with
  | nil =>
    have hcount : r.ring.count = 0 := (h.wellFormed.holds_of_toList_eq hms).count_eq
    exact absurd hcount (Nat.ne_of_gt hpos)
  | cons m ms =>
    obtain ⟨ring, hread, hring⟩ := read_cons (h.wellFormed.holds_of_toList_eq hms)
    exact ⟨m, ring, hread, hring⟩

theorem waiting_pos_of_refused (h : r.Sound) {ts : List Data.Token} {report : FeedReport}
    (hts : ts ≠ []) (hgo : r.run.hasEnded = false) (hreport : (r.feed ts).1 = .ok report)
    (hnone : report.consumed = 0) : 0 < (r.feed ts).2.waiting := by
  have hfeeds := feeds_feed h ts
  generalize r.feed ts = x at hfeeds hreport
  cases hfeeds with
  | failed | stopped => cases hreport
  | done hdone => exact absurd hdone (Bool.eq_false_iff.mp (Run.isDone_of_going hgo))
  | @taken us vs s _ split absorbs full =>
    obtain rfl := Except.ok.inj hreport
    have hus : us = [] := List.eq_nil_of_length_eq_zero hnone
    rw [hus, List.nil_append] at split
    exact (absorbs.sound h).waiting_pos_of_not_hasRoom (full (split ▸ hts))

theorem isFull_of_refused (h : r.Sound) (hfinish : r.finish.1 = .ok ⟨0, 0, true⟩) :
    r.finish.2 = r ∧ r.run.failure? = none ∧ r.ring.isFull = true := by
  have hfinishes := finishes_finish h
  generalize r.finish = x at hfinishes hfinish
  cases hfinishes with
  | failed | unclosed => cases hfinish
  | done => simp at hfinish
  | full hf hfull => exact ⟨rfl, hf, hfull⟩
  | @closed ring _ room _ holds =>
    -- Nothing was written, so the ring was as full before.
    obtain ⟨-, hwritten, hfull⟩ := FeedReport.mk.inj (Except.ok.inj hfinish)
    rw [List.eq_nil_of_length_eq_zero hwritten, List.append_nil] at holds
    have hbefore : r.ring.isFull = true :=
      h.wellFormed.holds.isFull_iff.mpr (holds.isFull_iff.mp hfull)
    rw [room] at hbefore
    exact absurd hbefore Bool.noConfusion

theorem finish_of_room (h : r.Sound) (hf : r.run.failure? = none) (hroom : r.ring.isFull = false) :
    (∃ cause, r.finish.1 = .error (.malformed cause)) ∨
      ∃ report, r.finish.1 = .ok report ∧ r.finish.2.isFinished = true := by
  have hfinishes := finishes_finish h
  generalize r.finish = x at hfinishes
  cases hfinishes with
  | failed hcause =>
    rw [hf] at hcause
    cases hcause
  | full _ hfull =>
    rw [hroom] at hfull
    cases hfull
  | done hdone => exact .inr ⟨_, rfl, hdone⟩
  | unclosed => exact .inl ⟨_, rfl⟩
  | closed hgo _ hd => exact .inr ⟨_, rfl, Run.isDone_finish_of_closed hgo hd⟩

theorem eq_refusal_of_not_isFinished (h : r.Sound) {report : FeedReport}
    (hreport : r.finish.1 = .ok report) (hunfinished : r.finish.2.isFinished = false) :
    report = ⟨0, 0, true⟩ := by
  have hfinishes := finishes_finish h
  generalize r.finish = x at hfinishes hreport hunfinished
  cases hfinishes with
  | failed | unclosed => cases hreport
  | full => exact (Except.ok.inj hreport).symm
  | done hdone =>
    rw [hdone] at hunfinished
    cases hunfinished
  | closed hgo _ hd =>
    have hdone := Run.isDone_finish_of_closed hgo hd
    rw [isFinished, hdone] at hunfinished
    cases hunfinished

/-- A refusal always leaves something to read. When that has been read, the end is not put off again. -/
structure Unblocks (r : Renderer) : Prop where
  feed : ∀ ts report, ts ≠ [] → r.run.hasEnded = false → (r.feed ts).1 = .ok report →
    report.consumed = 0 → ∃ m s, (r.feed ts).2.read = (some m, s)
  refusal : ∀ report, r.finish.1 = .ok report → r.finish.2.isFinished = false →
    report = ⟨0, 0, true⟩
  finish : r.finish.1 = .ok ⟨0, 0, true⟩ → ∃ m s, r.finish.2.read = (some m, s) ∧
    ((∃ cause, s.finish.1 = .error (.malformed cause)) ∨
      ∃ report, s.finish.1 = .ok report ∧ s.finish.2.isFinished = true)

theorem Sound.unblocks (h : r.Sound) : r.Unblocks := by
  constructor
  · intro ts report hts hgo hreport hnone
    have hpos := waiting_pos_of_refused h hts hgo hreport hnone
    obtain ⟨m, ring, hread, -⟩ := read_of_waiting ((feeds_feed h ts).sound h) hpos
    exact ⟨m, _, hread⟩
  · intro report hreport hunfinished
    exact eq_refusal_of_not_isFinished h hreport hunfinished
  · intro hrefused
    obtain ⟨hsame, hf, hfull⟩ := isFull_of_refused h hrefused
    have hpos := h.waiting_pos_of_isFull hfull
    obtain ⟨m, ring, hread, hring⟩ := read_of_waiting h hpos
    have hroom : ring.isFull = false := by
      have hall := h.wellFormed.holds.isFull_iff.mp hfull
      rw [Bool.eq_false_iff, ne_eq, hring.isFull_iff, List.length_tail, hall]
      have hcap := h.maxMarkup_le
      unfold Run.maxMarkupPerToken at hcap
      omega
    rw [hsame]
    exact ⟨m, _, hread, finish_of_room (h.ring hring) hf hroom⟩

end Renderer

namespace Relay

variable {s : State} {limits : Nat → Option Nat} {chunk ts : List Data.Token} {empties : Nat}

namespace State

/-! ### What a call counts -/

theorem tally_feed (s : State) (chunk : List Data.Token) :
    (s.feed chunk).2.tally.feeds = s.tally.feeds + 1 ∧
      (s.feed chunk).2.tally.finishes = s.tally.finishes := by
  unfold feed
  dsimp only
  split <;> exact ⟨rfl, rfl⟩

theorem out_feed (s : State) (chunk : List Data.Token) : (s.feed chunk).2.out = s.out := by
  unfold feed
  dsimp only
  split <;> rfl

theorem tally_finish (s : State) :
    s.finish.2.tally.feeds = s.tally.feeds ∧
      s.finish.2.tally.finishes = s.tally.finishes + 1 := by
  unfold finish
  dsimp only
  split <;> exact ⟨rfl, rfl⟩

theorem out_finish (s : State) : s.finish.2.out = s.out := by
  unfold finish
  dsimp only
  split <;> rfl

theorem tally_unload (s : State) (limit : Option Nat) : (s.unload limit).tally = s.tally := rfl

theorem size_unload (h : s.renderer.ring.WellFormed) (limit : Option Nat) :
    (s.unload limit).out.size + (s.unload limit).waiting = s.out.size + s.waiting := by
  obtain ⟨ring, hunload, hring⟩ := unload_eq h limit
  have hbefore : s.waiting = s.renderer.ring.toList.length := h.holds.count_eq
  have hafter : (s.unload limit).waiting = ring.count := by rw [hunload]; rfl
  rw [hafter, hunload, hring.count_eq, hbefore, ← Array.length_toList, Array.toList_appendList,
    List.length_append, Array.length_toList, Nat.add_assoc, ← List.length_append,
    List.take_append_drop]

theorem size_le_unload (h : s.renderer.ring.WellFormed) (limit : Option Nat) :
    s.out.size ≤ (s.unload limit).out.size := by
  obtain ⟨ring, hunload, -⟩ := unload_eq h limit
  rw [hunload, ← Array.length_toList, ← Array.length_toList, Array.toList_appendList,
    List.length_append]
  exact Nat.le_add_right _ _

structure Paced (s : State) (ts : List Data.Token) (empties : Nat) : Prop where
  feeds_le : s.tally.feeds ≤ ts.length + s.out.size + empties
  finishes_eq : s.tally.finishes = 0

theorem Paced.mono {us : List Data.Token} {more : Nat} (h : s.Paced ts empties)
    (hts : ts.length ≤ us.length) (hempties : empties ≤ more) : s.Paced us more := by
  have hbefore := h.feeds_le
  exact ⟨by omega, h.finishes_eq⟩

theorem Goes.round {n : Nat} {s' : State} (h : s.Goes ts) (hfeed : s.feed chunk = (.ok n, s'))
    (limit : Option Nat) : (s'.unload limit).Goes (ts ++ chunk.take n) := by
  obtain ⟨us, vs, rfl, rfl, hs', -⟩ := h.feed_ok hfeed
  rw [List.take_left]
  exact hs'.unload limit

theorem Paced.round {n : Nat} {s' : State} {limit : Option Nat} (h : s.Paced ts empties)
    (hgoes : s.Goes ts) (hfeed : s.feed chunk = (.ok n, s')) (hlimit : limit ≠ some 0) :
    (s'.unload limit).Paced (ts ++ chunk.take n)
      (empties + if chunk.isEmpty then 1 else 0) := by
  obtain ⟨us, vs, rfl, rfl, hs', -, hsame⟩ := hgoes.feed_ok hfeed
  have hbefore := h.feeds_le
  have hread := size_unload hs'.tracks.wellFormed limit
  have hgrows := size_le_unload hs'.tracks.wellFormed limit
  have hout : s'.out = s.out := by simpa only [hfeed] using out_feed s (us ++ vs)
  obtain ⟨hfeeds, hfinishes⟩ : s'.tally.feeds = s.tally.feeds + 1 ∧
      s'.tally.finishes = s.tally.finishes := by simpa only [hfeed] using tally_feed s (us ++ vs)
  refine ⟨?_, hfinishes.trans h.finishes_eq⟩
  rw [tally_unload, hfeeds, List.take_left, List.length_append]
  rw [hout] at hread hgrows
  by_cases hempty : us ++ vs = []
  · rw [hempty, List.isEmpty_nil, if_pos rfl]
    omega
  · rw [if_neg (mt List.isEmpty_iff.mp hempty)]
    have hmoved : 0 < us.length ∨ us = [] ∧ (s'.unload limit).waiting < s.waiting := by
      by_cases hus : us = []
      · rw [hus, List.nil_append] at hempty
        have hrest : (us ++ vs).drop us.length ≠ [] := by rwa [List.drop_left]
        rcases hgoes.moves hfeed hrest hlimit with hsome | hless
        · exact .inl hsome
        · exact .inr ⟨hus, hless⟩
      · exact .inl (List.length_pos_of_ne_nil hus)
    rcases hmoved with hsome | ⟨hus, hless⟩
    · omega
    · have hwaiting := hsame hus
      omega

theorem Paced.feed_error {failure : Failure} {s' : State} (h : s.Paced ts empties)
    (hgoes : s.Goes ts) (hfeed : s.feed chunk = (.error failure, s')) :
    s'.Paced (ts ++ chunk) (empties + if chunk.isEmpty then 1 else 0) := by
  have hne : chunk ≠ [] := by
    rintro rfl
    obtain ⟨cause, -, hfails⟩ := hgoes.feed_error hfeed
    have hcause := hfails.failure?_eq
    have hnone := Run.failure?_of_going hgoes.tracks.reaches.going_after
    rw [List.append_nil, hnone] at hcause
    cases hcause
  have hbefore := h.feeds_le
  have hpos := List.length_pos_of_ne_nil hne
  have hout : s'.out = s.out := by simpa only [hfeed] using out_feed s chunk
  obtain ⟨hfeeds, hfinishes⟩ : s'.tally.feeds = s.tally.feeds + 1 ∧
      s'.tally.finishes = s.tally.finishes := by simpa only [hfeed] using tally_feed s chunk
  refine ⟨?_, hfinishes.trans h.finishes_eq⟩
  rw [hfeeds, hout, List.length_append, if_neg (mt List.isEmpty_iff.mp hne)]
  omega

theorem Goes.isFull_unload {limit : Option Nat} (h : s.Goes ts) (hlimit : limit ≠ some 0) :
    (s.unload limit).renderer.ring.isFull = false := by
  obtain ⟨ring, hunload, hring⟩ := unload_eq h.tracks.wellFormed limit
  have hcap := h.tracks.maxMarkup_le
  have hle := h.tracks.wellFormed.holds.length_le
  unfold Run.maxMarkupPerToken at hcap
  rw [hunload, Bool.eq_false_iff, ne_eq, hring.isFull_iff, List.length_drop]
  cases limit with
  | none => simp only [Option.getD_none]; omega
  | some k =>
    have hk : k ≠ 0 := fun hzero => hlimit (congrArg some hzero)
    simp only [Option.getD_some]
    omega

end State

/-! ### The chunks -/

theorem chunkSent_sendChunk (hl : ∀ k, limits k ≠ some 0) (chunk : List Data.Token)
    (hgoes : s.Goes ts) (h : s.Paced ts empties) :
    ChunkSent limits chunk s (s.sendChunk limits chunk) ∧
      (s.sendChunk limits chunk).2.Paced (ts ++ chunk)
        (empties + if chunk.isEmpty then 1 else 0) := by
  fun_induction State.sendChunk limits chunk s generalizing ts empties with
  | case1 chunk s failure s' hfeed => exact ⟨.failed hfeed, h.feed_error hgoes hfeed⟩
  | case2 chunk s consumed s' hfeed u =>
    rename_i hrest
    rw [List.isEmpty_iff] at hrest
    have hround := h.round hgoes hfeed (hl s'.calls)
    rw [List.take_of_length_le (List.drop_eq_nil_iff.mp hrest)] at hround
    exact ⟨.usedUp hfeed hrest, hround⟩
  | case3 chunk s before consumed s' hfeed u =>
    rename_i hrest hmoved ih
    have hne : ¬chunk.isEmpty = true := by
      intro hempty
      rw [List.isEmpty_iff.mp hempty, List.drop_nil] at hrest
      exact hrest rfl
    have hround := h.round hgoes hfeed (hl s'.calls)
    obtain ⟨hsent, hpaced⟩ := ih (hgoes.round hfeed _) hround
    rw [if_neg hne, if_neg hrest, List.append_assoc, List.take_append_drop] at hpaced
    rw [if_neg hne]
    rw [List.isEmpty_iff] at hrest
    exact ⟨.again hfeed hrest hsent, hpaced⟩
  | case4 chunk s before consumed s' hfeed u =>
    rename_i hrest hstill
    rw [List.isEmpty_iff] at hrest
    exact absurd (hgoes.moves hfeed hrest (hl s'.calls)) hstill

theorem chunksSent_send (hl : ∀ k, limits k ≠ some 0) (chunks : List (List Data.Token))
    (hgoes : s.Goes ts) (h : s.Paced ts empties) :
    ChunksSent limits chunks s (s.send limits chunks) ∧
      (s.send limits chunks).2.Paced (ts ++ chunks.flatten)
        (empties + chunks.countP List.isEmpty) := by
  induction chunks generalizing s ts empties with
  | nil =>
    rw [List.flatten_nil, List.append_nil]
    exact ⟨.done s, h⟩
  | cons chunk chunks ih =>
    obtain ⟨hsent, hpaced⟩ := chunkSent_sendChunk hl chunk hgoes h
    have hsends := sends_sendChunk hl chunk hgoes
    rw [List.flatten_cons, ← List.append_assoc, List.countP_cons, Nat.add_comm (chunks.countP _),
      ← Nat.add_assoc, State.send]
    generalize s.sendChunk limits chunk = x at hsent hpaced hsends
    cases hsends with
    | going hs =>
      obtain ⟨hothers, hrest⟩ := ih hs hpaced
      exact ⟨.next hsent hothers, hrest⟩
    | failed hs =>
      have hlonger := (List.sublist_append_left (ts ++ chunk) chunks.flatten).length_le
      exact ⟨.stopped hsent, hpaced.mono hlonger (Nat.le_add_right _ _)⟩

/-! ### The end of the input -/

/-- Asking for the end comes to an end after `requests` more requests at most, and with no more feeds. -/
structure Closes (limits : Nat → Option Nat) (s : State) (requests : Nat)
    (x : Option Halt × State) : Prop where
  closed : Closed limits s x
  feeds_eq : x.2.tally.feeds = s.tally.feeds
  finishes_le : x.2.tally.finishes ≤ s.tally.finishes + requests
  size_le : s.out.size ≤ x.2.out.size

theorem closes_of_error {s' : State} {failure : Failure} (hgo : s.renderer.isFinished = false)
    (hfinish : s.finish = (.error failure, s')) : Closes limits s 1 (s.close limits) := by
  obtain ⟨hfeeds, hfinishes⟩ : s'.tally.feeds = s.tally.feeds ∧
      s'.tally.finishes = s.tally.finishes + 1 := by
    simpa only [hfinish] using State.tally_finish s
  have hout : s'.out = s.out := by simpa only [hfinish] using State.out_finish s
  rw [State.close, if_neg (Bool.eq_false_iff.mp hgo), hfinish]
  exact ⟨.failed hgo hfinish, hfeeds, Nat.le_of_eq hfinishes,
    Nat.le_of_eq (congrArg Array.size hout.symm)⟩

theorem closes_of_granted {s' : State} (hgo : s.renderer.isFinished = false)
    (hfinish : s.finish = (.ok (), s')) (hs' : s'.renderer.ring.WellFormed)
    (hdone : s'.renderer.isFinished = true) : Closes limits s 1 (s.close limits) := by
  obtain ⟨hfeeds, hfinishes⟩ : s'.tally.feeds = s.tally.feeds ∧
      s'.tally.finishes = s.tally.finishes + 1 := by
    simpa only [hfinish] using State.tally_finish s
  have hout : s'.out = s.out := by simpa only [hfinish] using State.out_finish s
  have hgrows := State.size_le_unload hs' (limits s'.calls)
  have hread : (s'.unload (limits s'.calls)).renderer.isFinished = true := hdone
  rw [hout] at hgrows
  rw [State.close, if_neg (Bool.eq_false_iff.mp hgo), hfinish]
  dsimp only
  rw [if_pos hread]
  exact ⟨.again hgo hfinish (.granted hread), hfeeds, Nat.le_of_eq hfinishes, hgrows⟩

theorem closes_of_room (limits : Nat → Option Nat) (h : s.Goes ts)
    (hroom : s.renderer.ring.isFull = false) : Closes limits s 1 (s.close limits) := by
  have hgo : s.renderer.isFinished = false := Run.isDone_of_going h.going
  have hsound := (Renderer.finishes_finish h.tracks.sound).sound h.tracks.sound
  rcases Renderer.finish_of_room h.tracks.sound (Run.failure?_of_going h.going) hroom with
    ⟨cause, herror⟩ | ⟨report, hok, hdone⟩
  · obtain ⟨tally, hfinish⟩ := State.finish_of_error (Prod.ext herror rfl)
    exact closes_of_error hgo hfinish
  · obtain ⟨tally, hfinish⟩ := State.finish_of_ok (Prod.ext hok rfl)
    exact closes_of_granted hgo hfinish hsound.wellFormed hdone

theorem closes_of_going (h : s.Goes ts) (hl : ∀ k, limits k ≠ some 0) :
    Closes limits s 2 (s.close limits) := by
  cases hfull : s.renderer.ring.isFull with
  | false =>
    obtain ⟨hclosed, hfeeds, hfinishes, hsize⟩ := closes_of_room limits h hfull
    exact ⟨hclosed, hfeeds, Nat.le_succ_of_le hfinishes, hsize⟩
  | true =>
    -- The first request is refused; after a read there is room for the second.
    obtain ⟨s', hs, hs', hsame, hpos⟩ := h.refused hfull
    obtain ⟨hfeeds, hfinishes⟩ : s'.tally.feeds = s.tally.feeds ∧
        s'.tally.finishes = s.tally.finishes + 1 := by simpa only [hs] using State.tally_finish s
    have hout : s'.out = s.out := by simpa only [hs] using State.out_finish s
    have hu := hs'.unload (limits s'.calls)
    have hgo : s.renderer.isFinished = false := Run.isDone_of_going h.going
    have hgo' : (s'.unload (limits s'.calls)).renderer.isFinished = false :=
      Run.isDone_of_going hu.going
    have hless := (State.unload_tracks hs'.tracks _).2.2 (hl s'.calls) (hsame ▸ hpos)
    have hgrows := State.size_le_unload hs'.tracks.wellFormed (limits s'.calls)
    obtain ⟨hclosed, hsame', hlater, hsize⟩ :=
      closes_of_room limits hu (hs'.isFull_unload (hl s'.calls))
    have hagain := hclosed.again hgo hs
    rw [State.tally_unload, hfeeds] at hsame'
    rw [State.tally_unload, hfinishes] at hlater
    rw [hout] at hgrows
    rw [hsame] at hless
    rw [State.close, if_neg (Bool.eq_false_iff.mp hgo), hs]
    dsimp only
    rw [if_neg (Bool.eq_false_iff.mp hgo'), if_pos hless]
    exact ⟨hagain, hsame', hlater, Nat.le_trans hgrows hsize⟩

/-! ### The whole relay -/

theorem bounds_report {tokens : Nat} {halt? : Option Halt} (h : s.renderer.ring.WellFormed)
    (hfeeds : s.tally.feeds ≤ tokens + s.out.size + empties) (hfinishes : s.tally.finishes ≤ 2) :
    (s.report halt?).tally.feeds ≤ tokens + (s.report halt?).markup.length + empties ∧
      (s.report halt?).tally.finishes ≤ 2 := by
  have hread := State.size_le_unload h none
  have hlength : (s.report halt?).markup.length = (s.unload none).out.size := Array.length_toList
  have htally : (s.report halt?).tally = s.tally := State.tally_unload s none
  rw [hlength, htally]
  exact ⟨by omega, hfinishes⟩

/-- A relay that reads something after each call and goes on until the chunks are used up and the end is
granted, or a call fails, comes to an end, and to one only. It makes no more feeds than there are tokens to
take, tokens of markup and empty chunks, and asks for the end twice at most. In every state a refusal is
lifted by reading a token. -/
theorem relayed_iff_eq_relayBy (n : Nat) (hl : ∀ k, limits k ≠ some 0)
    (chunks : List (List Data.Token)) :
    let relayed := relayBy n limits chunks
    (∀ report, Relayed limits n chunks report ↔ report = relayed) ∧
      relayed.tally.feeds ≤
        chunks.flatten.length + relayed.markup.length + chunks.countP List.isEmpty ∧
      relayed.tally.finishes ≤ 2 ∧
      ∀ calls, ((Renderer.ofCapacity n).serve calls).2.Unblocks := by
  intro relayed
  have hgoes := State.goes_start n
  have hstart : (State.start n).Paced [] 0 := ⟨Nat.le_refl 0, rfl⟩
  obtain ⟨hsent, hpaced⟩ := chunksSent_send hl chunks hgoes hstart
  have hsends := sends_send hl chunks hgoes
  suffices hrelayed : Relayed limits n chunks relayed ∧
      relayed.tally.feeds ≤
        chunks.flatten.length + relayed.markup.length + chunks.countP List.isEmpty ∧
      relayed.tally.finishes ≤ 2 by
    obtain ⟨hends, hfeeds, hfinishes⟩ := hrelayed
    refine ⟨fun report => ⟨fun hreport => hreport.unique hends, ?_⟩, hfeeds, hfinishes, ?_⟩
    · rintro rfl
      exact hends
    · exact fun calls => ((Renderer.sound_ofCapacity n).serve calls).unblocks
  have hbefore := hpaced.feeds_le
  have hnone := hpaced.finishes_eq
  rw [List.nil_append, Nat.zero_add] at hbefore
  unfold relayed relayBy
  generalize (State.start n).send limits chunks = x at hsent hsends hbefore hnone
  cases hsends with
  | going hu =>
    obtain ⟨hclosed, hfeeds, hfinishes, hsize⟩ := closes_of_going hu hl
    have hsettles := settles_close hl hu
    refine ⟨.closed hsent hclosed, bounds_report hsettles.wellFormed ?_ ?_⟩
    · rw [hfeeds]
      dsimp only at hbefore
      omega
    · rwa [hnone] at hfinishes
  | failed hu =>
    refine ⟨.stopped hsent, bounds_report hu.wellFormed hbefore ?_⟩
    exact Nat.le_trans (Nat.le_of_eq hnone) (Nat.zero_le 2)

theorem relayed_iff_eq_relayBy_single :
    let limits : Nat → Option Nat := fun _ => some 1
    let chunks : List (List Data.Token) :=
      [[.opening .array (some (.ofLocal "a")), .scalar .null, .closing .array], []]
    (∀ k, limits k ≠ some 0) ∧ Relayed limits 0 chunks (relayBy 0 limits chunks) ∧
      (relayBy 0 limits chunks).tally.feeds ≤ 3 + (relayBy 0 limits chunks).markup.length + 1 ∧
      (relayBy 0 limits chunks).tally.finishes ≤ 2 := by
  intro limits chunks
  have hl : ∀ k, limits k ≠ some 0 := fun k hk => absurd (Option.some.inj hk) Nat.one_ne_zero
  obtain ⟨hends, hfeeds, hfinishes, -⟩ := relayed_iff_eq_relayBy 0 hl chunks
  exact ⟨hl, (hends _).mpr rfl, hfeeds, hfinishes⟩

end Relay
end DataMarkup
