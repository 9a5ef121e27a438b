import Mathlib.Order.Bounds.Defs
import DataMarkup.Proofs.Renderer.Concatenation
import DataMarkup.Proofs.Renderer.Ledger

/-! What a report says is exact. A feed takes as many tokens as there is room for and counts what they
bring; an end that is granted brings the end of the wrapper, once and only if there was one. -/

namespace DataMarkup

open Renderer

/-- The report of a feed of `ts` that leads from `r` to `s`, with `us` accepted before. Room is counted in
the ring as it was, less what the tokens before bring. -/
structure FeedReport.OfFeed (report : FeedReport) (r s : Renderer) (us ts : List Data.Token) :
    Prop where
  run_eq : s.run = Run.start.after (us ++ ts.take report.consumed)
  going : s.run.hasEnded = false
  isGreatest : IsGreatest
    {k | k ≤ ts.length ∧
      ∀ i < k, Run.maxMarkupPerToken + (r.run.markup (ts.take i)).length ≤ r.ring.space}
    report.consumed
  roomBefore : ∀ i < report.consumed, ∃ q,
    r.feed (ts.take i) = (.ok ⟨i, (r.run.markup (ts.take i)).length, false⟩, q) ∧
      Run.maxMarkupPerToken ≤ q.ring.space
  roomAfter : report.consumed < ts.length → s.ring.space < Run.maxMarkupPerToken
  toList_eq : s.ring.toList = r.ring.toList ++ r.run.markup (ts.take report.consumed)
  written_eq : report.written = (r.run.markup (ts.take report.consumed)).length
  full_iff : report.full = true ↔ s.ring.space < Run.maxMarkupPerToken

structure FeedReport.OfFinish (report : FeedReport) (r s : Renderer) (us : List Data.Token) :
    Prop where
  consumed_eq : report.consumed = 0
  written_eq : report.written =
    if r.isFinished = false ∧ s.isFinished = true ∧ us ≠ [] then 1 else 0
  full_iff : report.full = true ↔ s.ring.isFull = true
  refused : r.ring.isFull = true → s = r
  granted : r.ring.isFull = false → s.isFinished = true

namespace Renderer

variable {r s q : Renderer} {us vs ts : List Data.Token} {t : Data.Token} {report : FeedReport}

theorem hasRoom_iff : r.hasRoom = true ↔ Run.maxMarkupPerToken ≤ r.ring.space :=
  decide_eq_true_iff

theorem hasRoom_eq_false_iff : r.hasRoom = false ↔ r.ring.space < Run.maxMarkupPerToken := by
  rw [← Bool.not_eq_true, hasRoom_iff, Nat.not_le]

theorem Absorbs.space_eq (h : r.Absorbs us s) (hr : r.Sound) :
    s.ring.space = r.ring.space - (r.run.markup us).length := by
  have hbefore := hr.wellFormed.holds.space_eq
  have hafter := h.holds.space_eq
  rw [hafter, hbefore, List.length_append, Nat.sub_add_eq]

theorem Absorbs.hasRoom_iff (h : r.Absorbs us s) (hr : r.Sound) :
    s.hasRoom = true ↔
      Run.maxMarkupPerToken + (r.run.markup us).length ≤ r.ring.space := by
  have hspace := h.space_eq hr
  have hsome : 0 < Run.maxMarkupPerToken := Nat.succ_pos 3
  rw [Renderer.hasRoom_iff, hspace]
  omega

theorem feed_of_short (hgo : r.run.hasEnded = false) (hroom : r.hasRoom = false)
    (t : Data.Token) (ts : List Data.Token) : r.feed (t :: ts) = (.ok ⟨0, 0, true⟩, r) := by
  have hnone : r.stepAll 0 (t :: ts) = (.ok 0, r) := by
    simp only [stepAll, hroom, Bool.false_eq_true, if_false]
  rw [feed_of_ok hgo hnone, Nat.sub_self, hroom]
  rfl

theorem exists_room_of_feed_ok (h : r.Sound) (hgo : r.run.hasEnded = false)
    (hfeed : r.feed (us ++ t :: vs) = (.ok report, s)) (hlt : us.length < report.consumed) :
    ∃ q, r.feed us = (.ok ⟨us.length, (r.run.markup us).length, false⟩, q) ∧ r.Absorbs us q ∧
      q.hasRoom = true := by
  have hfeeds := feeds_feed h us
  generalize hx : r.feed us = x at hfeeds
  cases hfeeds with
  | failed _ | stopped _ _ _ _ =>
    rw [feed_append_of_error hx] at hfeed
    cases hfeed
  | done hdone =>
    rw [isFinished, Run.isDone_of_going hgo] at hdone
    exact absurd hdone Bool.noConfusion
  | @taken as bs q _ split absorbs _ =>
    have hall : as.length = us.length := by
      by_contra hne
      have hle : as.length ≤ us.length := by
        rw [split, List.length_append]
        exact Nat.le_add_right _ _
      rw [feed_append_of_short hx (Nat.lt_of_le_of_ne hle hne)] at hfeed
      cases hfeed
      exact absurd hlt (Nat.not_lt_of_le hle)
    obtain rfl : us = as := by
      rw [split, List.length_append] at hall
      have hnil : bs = [] := List.eq_nil_of_length_eq_zero (by omega)
      rw [split, hnil, List.append_nil]
    have hroom : q.hasRoom = true := by
      by_contra hshort
      have hnone := feed_of_short absorbs.going (Bool.eq_false_iff.mpr hshort) t vs
      rw [feed_append_of_ok h hx rfl hnone] at hfeed
      cases hfeed
      exact absurd hlt (Nat.lt_irrefl _)
    refine ⟨q, ?_, absorbs, hroom⟩
    rw [hroom]
    rfl

theorem ofFeed_of_feed_ok {l : Ledger} (hr : r.Balances l) (hgo : r.run.hasEnded = false)
    (hfeed : r.feed ts = (.ok report, s)) : report.OfFeed r s l.accepted ts := by
  have hsound := hr.sound
  have hfeeds := feeds_feed hsound ts
  rw [hfeed] at hfeeds
  cases hfeeds with
  | done hdone =>
    rw [isFinished, Run.isDone_of_going hgo] at hdone
    exact absurd hdone Bool.noConfusion
  | @taken us vs _ _ split absorbs full =>
    have htake : ts.take us.length = us := by rw [split, List.take_left]
    have hle : us.length ≤ ts.length := by
      rw [split, List.length_append]
      exact Nat.le_add_right _ _
    have hbefore : ∀ i < us.length, ∃ q,
        r.feed (ts.take i) = (.ok ⟨i, (r.run.markup (ts.take i)).length, false⟩, q) ∧
          r.Absorbs (ts.take i) q ∧ q.hasRoom = true := by
      intro i hi
      have hlt : i < ts.length := Nat.lt_of_lt_of_le hi hle
      have hlength : (ts.take i).length = i := List.length_take_of_le (Nat.le_of_lt hlt)
      have hsplit : ts = ts.take i ++ ts[i] :: ts.drop (i + 1) := by
        rw [← List.drop_eq_getElem_cons hlt, List.take_append_drop]
      rw [hsplit] at hfeed
      have hroom := exists_room_of_feed_ok hsound hgo hfeed (by rwa [hlength])
      rwa [hlength] at hroom
    have hafter : us.length < ts.length → s.hasRoom = false := by
      intro hlt
      apply full
      rintro rfl
      rw [split, List.append_nil] at hlt
      exact absurd hlt (Nat.lt_irrefl _)
    constructor
    · show s.run = Run.start.after (l.accepted ++ ts.take us.length)
      rw [htake, absorbs.run_eq, hr.reaches.eq_after hgo, Run.after_append]
    · exact absorbs.going
    · refine ⟨⟨hle, ?_⟩, ?_⟩
      · intro i hi
        obtain ⟨q, -, hq, hroom⟩ := hbefore i hi
        exact (hq.hasRoom_iff hsound).mp hroom
      · rintro k ⟨hk, hroom⟩
        by_contra hlt
        have hmore : us.length < k := Nat.lt_of_not_le hlt
        have hspare := hroom us.length hmore
        rw [htake, ← absorbs.hasRoom_iff hsound, hafter (Nat.lt_of_lt_of_le hmore hk)] at hspare
        exact absurd hspare Bool.noConfusion
    · intro i hi
      obtain ⟨q, hq, -, hroom⟩ := hbefore i hi
      exact ⟨q, hq, hasRoom_iff.mp hroom⟩
    · intro hlt
      exact hasRoom_eq_false_iff.mp (hafter hlt)
    · show s.ring.toList = r.ring.toList ++ r.run.markup (ts.take us.length)
      rw [htake, absorbs.holds.items_eq]
    · show (r.run.markup us).length = (r.run.markup (ts.take us.length)).length
      rw [htake]
    · show (!s.hasRoom) = true ↔ _
      rw [Bool.not_eq_true', hasRoom_eq_false_iff]

theorem ofFinish_of_finish_ok {l : Ledger} (hr : r.Balances l)
    (hfinish : r.finish = (.ok report, s)) : report.OfFinish r s l.accepted := by
  have hfinishes := finishes_finish hr.sound
  rw [hfinish] at hfinishes
  cases hfinishes with
  | full _ full =>
    refine ⟨rfl, ?_, iff_of_true rfl full, fun _ => rfl, ?_⟩
    · rw [if_neg]
      rintro ⟨hopen, hdone, -⟩
      exact absurd hdone (Bool.eq_false_iff.mp hopen)
    · intro hroom
      exact absurd full (Bool.eq_false_iff.mp hroom)
  | done hdone room =>
    refine ⟨rfl, ?_, iff_of_false Bool.noConfusion (Bool.eq_false_iff.mp room), fun _ => rfl,
      fun _ => hdone⟩
    rw [if_neg]
    rintro ⟨hopen, -, -⟩
    exact absurd hdone (Bool.eq_false_iff.mp hopen)
  | @closed ring going room hd holds =>
    have hrun := hr.reaches.eq_after going
    have hopen : r.isFinished = false := Run.isDone_of_going going
    have hdone : r.run.finish.1.isDone = true := Run.isDone_finish_of_closed going hd
    have hclosed : (Run.start.after l.accepted).depth = 0 := hrun ▸ hd
    have hend : r.run.finish.2 = if l.accepted = [] then [] else [.elementEnd] := by
      rw [hrun, Run.markup_finish_after_start hr.reaches.going_after hclosed]
    refine ⟨rfl, ?_, Iff.rfl, ?_, fun _ => hdone⟩
    · show r.run.finish.2.length = _
      rw [hend]
      by_cases hnone : l.accepted = []
      · rw [if_pos hnone, if_neg (fun h => h.2.2 hnone)]
        rfl
      · rw [if_neg hnone, if_pos ⟨hopen, hdone, hnone⟩]
        rfl
    · intro hfull
      exact absurd hfull (Bool.eq_false_iff.mp room)

/-- After any calls, the report of a feed says exactly what the feed has done: the tokens that it counts
are accepted, they are as many as there was room for, their markup is what the ring has gained, and `full`
tells that there is no room for another. The report of a request for the end tells whether the wrapper was
closed, and the end is granted unless the ring was full before, which leaves all as it was. -/
theorem reports_exact (n : Nat) (calls : List Call) :
    let served := (ofCapacity n).serve calls
    let r := served.2
    let l := Ledger.empty.enterAll (calls.zip (served.1.map Prod.fst))
    (∀ ts report s, r.run.hasEnded = false → r.feed ts = (.ok report, s) →
      report.OfFeed r s l.accepted ts) ∧
    ∀ report s, r.finish = (.ok report, s) → report.OfFinish r s l.accepted := by
  intro served r l
  have hr : r.Balances l := balances_serve (l := .empty) (tracks_ofCapacity n) calls
  refine ⟨?_, ?_⟩
  · intro ts report s hgo hfeed
    exact ofFeed_of_feed_ok hr hgo hfeed
  · intro report s hfinish
    exact ofFinish_of_finish_ok hr hfinish

theorem reports_exact_of_values :
    let ts : List Data.Token := [.scalar .null, .scalar .null]
    let r := ((ofCapacity 0).serve []).2
    let s := ((ofCapacity 0).serve [.feed ts]).2
    r.run.hasEnded = false ∧ r.feed ts = (.ok ⟨1, 2, true⟩, s) ∧
      FeedReport.OfFeed ⟨1, 2, true⟩ r s [] ts ∧
      s.finish = (.ok ⟨0, 1, false⟩, s.finish.2) ∧
      FeedReport.OfFinish ⟨0, 1, false⟩ s s.finish.2 [.scalar .null] := by
  intro ts r s
  have hgo : r.run.hasEnded = false := rfl
  have hfeed : r.feed ts = (.ok ⟨1, 2, true⟩, s) := Prod.ext rfl rfl
  have hfinish : s.finish = (.ok ⟨0, 1, false⟩, s.finish.2) := Prod.ext rfl rfl
  have hreport := (reports_exact 0 []).1 ts _ s hgo hfeed
  have hend := (reports_exact 0 [.feed ts]).2 _ _ hfinish
  exact ⟨hgo, hfeed, hreport, hfinish, hend⟩

end Renderer
end DataMarkup
