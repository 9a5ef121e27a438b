import DataMarkup.Proofs.Pull.Items
import DataMarkup.Proofs.Renderer.Concatenation
import DataMarkup.Proofs.Renderer.Ledger

/-! A token without a place leaves no trace but the failure. A feed that meets one does what a feed of the
tokens before it does, and then stops the run; an end that is refused stops the run and nothing else. -/

namespace DataMarkup.Renderer

variable {r s : Renderer} {t : Data.Token} {us vs ts : List Data.Token} {fault : Fault}
  {failure : Failure} {n : Nat}

structure StopsAt (r : Renderer) (us : List Data.Token) (t : Data.Token) (fault : Fault)
    (s : Renderer) : Prop where
  feed_eq : r.feed us = (.ok ⟨us.length, (r.run.markup us).length, false⟩, s)
  absorbs : r.Absorbs us s
  misplaced : s.run.nesting.fault? t = some fault

theorem StopsAt.feed_append (h : r.StopsAt us t fault s) (hgo : r.run.hasEnded = false)
    (vs : List Data.Token) :
    r.feed (us ++ t :: vs) =
      (.error (.malformed ⟨s.run.accepted, fault⟩), ⟨s.run.stop fault, s.ring⟩) := by
  have hroom : s.hasRoom = true := hasRoom_of_feed_ok hgo h.feed_eq
  have hall := stepAll_append_of_feed_ok hgo h.feed_eq rfl (t :: vs)
  apply feed_of_error hgo
  rw [hall, stepAll]
  simp only [hroom, if_true, step_of_fault h.absorbs.going hroom h.misplaced]

theorem stopsAt_of_feed_error (h : r.Sound) (hgo : r.run.hasEnded = false)
    (hfailure : (r.feed ts).1 = .error failure) :
    ∃ us t vs fault s, ts = us ++ t :: vs ∧ r.StopsAt us t fault s := by
  rcases stepAll_cases h hgo 0 ts with
    ⟨us, vs, s, hts, hall, -, -⟩ | ⟨us, t, vs, fault, s, hts, hs, hf, ⟨hbefore, hroom⟩, -⟩
  · rw [feed_of_ok hgo hall] at hfailure
    cases hfailure
  · refine ⟨us, t, vs, fault, s, hts, ?_, hs, hf⟩
    rw [feed_of_ok hgo hbefore, hs.waiting_eq h, hroom, Nat.zero_add, Nat.add_sub_cancel_left]
    rfl

theorem absorbs_of_feed_ok {written : Nat} (h : r.Sound) (hgo : r.run.hasEnded = false)
    (hok : (r.feed us).1 = .ok ⟨us.length, written, false⟩) :
    ∃ s, r.feed us = (.ok ⟨us.length, (r.run.markup us).length, false⟩, s) ∧
      r.Absorbs us s := by
  have hfeeds := feeds_feed h us
  generalize r.feed us = x at hfeeds hok ⊢
  cases hfeeds with
  | failed _ => cases hok
  | stopped _ _ _ _ => cases hok
  | done hdone =>
    rw [isFinished, Run.isDone_of_going hgo] at hdone
    exact absurd hdone Bool.noConfusion
  | @taken ws vs s _ split hs _ =>
    simp only [Except.ok.injEq, FeedReport.mk.injEq] at hok
    obtain ⟨hlength, -, hfull⟩ := hok
    -- As many tokens as there are have been taken, so none is left.
    have hnone : vs = [] := by
      rw [split, List.length_append] at hlength
      exact List.eq_nil_of_length_eq_zero (by omega)
    rw [hnone, List.append_nil] at split
    subst split
    exact ⟨s, by rw [hfull], hs⟩

theorem Finishes.eq_of_failure {x : Except Failure FeedReport × Renderer} (hx : r.Finishes x)
    (h : x.1 = .error failure) : x.2.ring = r.ring ∧ x.2.depth = r.depth := by
  cases hx with
  | failed _ | unclosed _ _ _ => exact ⟨rfl, rfl⟩
  | full _ _ | done _ _ | closed _ _ _ _ => cases h

theorem feed_of_failure {l : Ledger} (hr : r.Balances l) (hgo : r.run.hasEnded = false)
    (hfailure : (r.feed ts).1 = .error failure) :
    ∃ j t fault written, ts[j]? = some t ∧
      failure = .malformed ⟨l.accepted.length + j, fault⟩ ∧
      (r.feed (ts.take j)).1 = .ok ⟨j, written, false⟩ ∧
      (r.feed (ts.take (j + 1))).1 = .error failure ∧
      (r.feed ts).2.ring = (r.feed (ts.take j)).2.ring ∧
      (r.feed ts).2.depth = (r.feed (ts.take j)).2.depth ∧
      l.taken ++ (r.feed ts).2.ring.toList = Run.start.markup (l.accepted ++ ts.take j) := by
  obtain ⟨us, t, vs, fault, s, rfl, hstops⟩ := stopsAt_of_feed_error hr.sound hgo hfailure
  have hs : s.Tracks (l.accepted ++ us) l.taken := hr.absorbs hgo hstops.absorbs
  have hfeed := hstops.feed_append hgo
  have hindex : s.run.accepted = l.accepted.length + us.length := by
    rw [hs.accepted_eq hstops.absorbs.going, List.length_append]
  have htake : (us ++ t :: vs).take (us.length + 1) = us ++ [t] := by
    rw [List.take_length_add_append, List.take_succ_cons, List.take_zero]
  rw [hfeed] at hfailure
  cases hfailure
  refine ⟨us.length, t, fault, (r.run.markup us).length, ?_, by rw [hindex], ?_⟩
  · rw [List.getElem?_append_right (Nat.le_refl _), Nat.sub_self, List.getElem?_cons_zero]
  · rw [List.take_left, htake, hfeed, hfeed, hstops.feed_eq]
    exact ⟨rfl, rfl, rfl, rfl, hs.conserved_of_going hstops.absorbs.going⟩

/-- A feed that fails leaves the ring and the depth as a feed of the tokens before the one at fault does,
which takes all of them; the failure counts the tokens accepted so far. Neither does an end that is refused
change ring or depth. A pull that fails has given all the markup of the tokens before the one at fault, and
stays at their depth. -/
theorem rejected_leaves_rest (n : Nat) (calls : List Call) (ts : List Data.Token) (k : Nat) :
    let served := (ofCapacity n).serve calls
    let r := served.2
    let l := Ledger.empty.enterAll (calls.zip (served.1.map Prod.fst))
    let p := (Pull.ofList ts).skip k
    (∀ chunk failure, r.run.hasEnded = false → (r.feed chunk).1 = .error failure →
      ∃ j t fault written, chunk[j]? = some t ∧
        failure = .malformed ⟨l.accepted.length + j, fault⟩ ∧
        (r.feed (chunk.take j)).1 = .ok ⟨j, written, false⟩ ∧
        (r.feed (chunk.take (j + 1))).1 = .error failure ∧
        (r.feed chunk).2.ring = (r.feed (chunk.take j)).2.ring ∧
        (r.feed chunk).2.depth = (r.feed (chunk.take j)).2.depth ∧
        l.taken ++ (r.feed chunk).2.ring.toList =
          Run.start.markup (l.accepted ++ chunk.take j)) ∧
    (∀ failure, r.finish.1 = .error failure →
      r.finish.2.ring = r.ring ∧ r.finish.2.depth = r.depth) ∧
    ∀ failure q, p.next = (some (.error failure), q) →
      ∃ cause, failure = .malformed cause ∧
        (Pull.ofList ts).items k =
          (Run.start.markup (ts.take cause.index)).map (fun m => some (.ok m)) ∧
        q.depth = p.depth ∧ p.depth = (Data.unclosed (ts.take cause.index)).length := by
  intro served r l p
  have hr : r.Balances l := balances_serve (l := .empty) (tracks_ofCapacity n) calls
  refine ⟨?_, ?_, ?_⟩
  · intro chunk failure hgo hfailure
    exact feed_of_failure hr hgo hfailure
  · intro failure hfailure
    exact (finishes_finish hr.sound).eq_of_failure hfailure
  · intro failure q hx
    obtain ⟨cause, hcause, hitems, hdepth⟩ := Pull.items_ofList_of_failure hx
    have hmoves : p.Moves (some (.error failure), q) :=
      hx ▸ Pull.moves_next (Pull.sound_skip_ofList ts k)
    have hsame : q.depth = p.depth := hmoves.depth_eq_of_failure rfl
    exact ⟨cause, hcause, hitems, hsame, hsame ▸ hdepth⟩

theorem rejected_leaves_rest_in_array :
    let calls : List Call := [.feed [.opening .array none], .read]
    let chunk : List Data.Token := [.scalar .null, .closing .object, .scalar .null]
    let r := ((ofCapacity 16).serve calls).2
    r.run.hasEnded = false ∧
      (r.feed chunk).1 = .error (.malformed ⟨2, .unmatchedEnd .object⟩) ∧
      (r.feed chunk).2.ring = (r.feed [.scalar .null]).2.ring ∧
      (r.feed chunk).2.depth = (r.feed [.scalar .null]).2.depth := by
  intro calls chunk r
  have hgo : r.run.hasEnded = false := rfl
  have hfailure : (r.feed chunk).1 = .error (.malformed ⟨2, .unmatchedEnd .object⟩) := rfl
  obtain ⟨j, t, fault, written, -, hindex, -, -, hring, hdepth, -⟩ :=
    (rejected_leaves_rest 16 calls [] 0).1 chunk _ hgo hfailure
  have hj : j = 1 := by
    have hcount : 2 = 1 + j := congrArg Malformed.index (Failure.malformed.inj hindex)
    omega
  subst hj
  exact ⟨hgo, hfailure, hring, hdepth⟩

end DataMarkup.Renderer
