import DataMarkup.Proofs.Nesting.Misplacement
import DataMarkup.Proofs.Pull.Viability
import DataMarkup.Proofs.Renderer.Rejection

/-! The fault that is reported can be told from the tokens alone. A pull and a renderer, however its input
is cut into chunks, come to the same verdict on a token after the same tokens. -/

namespace DataMarkup

open Run

variable {us ts : List Data.Token} {t : Data.Token} {fault : Fault}

namespace Pull

theorem failure?_exhaust_eq_iff_misplaced (h : (start.after us).hasEnded = false)
    (vs : List Data.Token) :
    (ofList (us ++ t :: vs)).exhaust.failure? = some (.malformed ⟨us.length, fault⟩) ↔
      Data.Misplaced us t fault := by
  rw [← fault?_after_iff h]
  constructor
  · intro hfailure
    have hlt : us.length < (us ++ t :: vs).length := by simp
    obtain ⟨-, hdead⟩ := Data.viable_take_of_failure hlt hfailure
    rw [Data.viable_iff, Bool.not_eq_false, List.take_length_add_append, List.take_succ_cons,
      List.take_zero, hasEnded_after_concat_iff h] at hdead
    obtain ⟨found, hf⟩ := hdead
    rw [failure?_exhaust_of_fault h hf] at hfailure
    cases hfailure
    exact hf
  · intro hf
    exact failure?_exhaust_of_fault h hf vs

theorem failure?_exhaust_eq_unclosed_iff_unclosed :
    (ofList ts).exhaust.failure? = some (.malformed ⟨ts.length, .unclosedContainer⟩) ↔
      Data.acceptedPrefix ts = ts ∧ Data.unclosed ts ≠ [] := by
  rw [Data.failure?_exhaust_eq_unclosed_iff, Data.viable_iff, Data.accepted_iff]
  constructor
  · rintro ⟨h, hfails⟩
    refine ⟨Data.acceptedPrefix_of_going h, fun hnone => hfails ⟨h, ?_⟩⟩
    exact (depth_after_eq_zero_iff h).mpr hnone
  · rintro ⟨hall, hsome⟩
    have h : (start.after ts).hasEnded = false := hall ▸ Data.going_acceptedPrefix ts
    exact ⟨h, fun hclosed => hsome ((depth_after_eq_zero_iff h).mp hclosed.2)⟩

end Pull

namespace Data

theorem concat_prefix_acceptedPrefix_iff (h : (start.after us).hasEnded = false)
    (vs : List Token) :
    us ++ [t] <+: acceptedPrefix (us ++ t :: vs) ↔ ∀ fault, ¬Misplaced us t fault := by
  have hends := hasEnded_after_concat_iff (t := t) h
  constructor
  · intro hwithin fault hmisplaced
    have hgo := going_of_prefix hwithin
    rw [hends.mpr ⟨fault, (fault?_after_iff h).mpr hmisplaced⟩] at hgo
    exact absurd hgo Bool.noConfusion
  · intro hplaced
    rw [List.append_cons us t vs]
    apply prefix_acceptedPrefix
    rw [← Bool.not_eq_true, hends]
    rintro ⟨fault, hf⟩
    exact hplaced fault ((fault?_after_iff h).mp hf)

end Data

namespace Renderer

variable {r : Renderer} {l : Ledger}

theorem Tracks.fault?_iff {out : List Markup.Token} (h : r.Tracks ts out)
    (hgo : r.run.hasEnded = false) :
    r.run.nesting.fault? t = some fault ↔ Data.Misplaced ts t fault := by
  rw [h.reaches.eq_after hgo]
  exact fault?_after_iff h.reaches.going_after

theorem feed_failure_iff_misplaced (hr : r.Balances l) (hgo : r.run.hasEnded = false)
    (vs : List Data.Token) :
    (r.feed (us ++ t :: vs)).1 = .error (.malformed ⟨(l.accepted ++ us).length, fault⟩) ↔
      (∃ written, (r.feed us).1 = .ok ⟨us.length, written, false⟩) ∧
        Data.Misplaced (l.accepted ++ us) t fault := by
  constructor
  · intro hfailure
    obtain ⟨ws, u, rest, found, s, hsplit, hstops⟩ := stopsAt_of_feed_error hr.sound hgo hfailure
    have hs := hr.absorbs hgo hstops.absorbs
    rw [hsplit, hstops.feed_append hgo, hs.accepted_eq hstops.absorbs.going] at hfailure
    simp only [Except.error.injEq, Failure.malformed.injEq, Malformed.mk.injEq,
      List.length_append, Nat.add_left_cancel_iff] at hfailure
    obtain ⟨hlength, rfl⟩ := hfailure
    obtain ⟨rfl, hrest⟩ := List.append_inj hsplit hlength.symm
    obtain ⟨rfl, -⟩ := List.cons.inj hrest
    exact ⟨⟨_, congrArg Prod.fst hstops.feed_eq⟩,
      (hs.fault?_iff hstops.absorbs.going).mp hstops.misplaced⟩
  · rintro ⟨⟨written, hok⟩, hmisplaced⟩
    obtain ⟨s, hfeed, habsorbs⟩ := absorbs_of_feed_ok hr.sound hgo hok
    have hs := hr.absorbs hgo habsorbs
    have hf := (hs.fault?_iff habsorbs.going).mpr hmisplaced
    have hstops : r.StopsAt us t fault s := ⟨hfeed, habsorbs, hf⟩
    rw [hstops.feed_append hgo, hs.accepted_eq habsorbs.going]

theorem feed_concat_ok_iff (hr : r.Balances l) (hgo : r.run.hasEnded = false) {written : Nat}
    (hok : (r.feed us).1 = .ok ⟨us.length, written, false⟩) :
    (∃ report, (r.feed (us ++ [t])).1 = .ok report ∧ report.consumed = us.length + 1) ↔
      ∀ fault, ¬Data.Misplaced (l.accepted ++ us) t fault := by
  constructor
  · rintro ⟨report, hreport, -⟩ fault hmisplaced
    have hfailure := (feed_failure_iff_misplaced hr hgo []).mpr ⟨⟨written, hok⟩, hmisplaced⟩
    rw [hfailure] at hreport
    cases hreport
  · intro hplaced
    obtain ⟨s, hfeed, hs⟩ := absorbs_of_feed_ok hr.sound hgo hok
    have hroom : s.hasRoom = true := hasRoom_of_feed_ok hgo hfeed
    have hall := stepAll_append_of_feed_ok hgo hfeed rfl [t]
    have hf : s.run.nesting.fault? t = none := by
      rw [Option.eq_none_iff_forall_not_mem]
      intro fault hfault
      exact hplaced fault (((hr.absorbs hgo hs).fault?_iff hs.going).mp hfault)
    obtain ⟨q, hstep, -⟩ := step_of_accepted (hs.sound hr.sound) hs.going hroom hf
    have hboth : r.stepAll 0 (us ++ [t]) = (.ok (us.length + 1), q) := by
      rw [hall, stepAll_cons_of_accepted hroom hstep]
      rfl
    exact ⟨_, congrArg Prod.fst (feed_of_ok hgo hboth), rfl⟩

theorem finish_failure_iff_unclosed (hr : r.Balances l) (hgo : r.run.hasEnded = false) :
    r.finish.1 = .error (.malformed ⟨l.accepted.length, .unclosedContainer⟩) ↔
      r.ring.isFull = false ∧ Data.unclosed l.accepted ≠ [] := by
  have hdepth : r.depth = 0 ↔ Data.unclosed l.accepted = [] := by
    rw [Renderer.depth, hr.reaches.depth_eq, List.length_eq_zero_iff]
  have hfinishes := finishes_finish hr.sound
  generalize r.finish = x at hfinishes
  cases hfinishes with
  | failed hcause =>
    rw [failure?_of_going hgo] at hcause
    exact absurd hcause.symm (Option.some_ne_none _)
  | full _ hfull => simp [hfull]
  | done hdone _ =>
    rw [isFinished, isDone_of_going hgo] at hdone
    exact absurd hdone Bool.noConfusion
  | unclosed _ hroom hd =>
    rw [hr.accepted_eq hgo]
    exact iff_of_true rfl ⟨hroom, fun hnone => hd (hdepth.mpr hnone)⟩
  | closed _ _ hd _ =>
    exact iff_of_false (fun heq => by cases heq) (fun hopen => hopen.2 (hdepth.mp hd))

/-- The first token that is rejected after `us` is rejected by the one rule that `us` and it break, and if
they break none it is accepted; the end of the input is rejected where a container is unclosed. A pull
finds this at the index in its input, a renderer at the index in all that it has accepted, whichever chunk
the token comes in and once there is room to look at it. -/
theorem failure_iff_misplaced (n : Nat) (calls : List Call) :
    let served := (ofCapacity n).serve calls
    let r := served.2
    let l := Ledger.empty.enterAll (calls.zip (served.1.map Prod.fst))
    (∀ us t vs, us <+: Data.acceptedPrefix (us ++ t :: vs) →
      (∀ fault, (Pull.ofList (us ++ t :: vs)).exhaust.failure? =
          some (.malformed ⟨us.length, fault⟩) ↔ Data.Misplaced us t fault) ∧
      (us ++ [t] <+: Data.acceptedPrefix (us ++ t :: vs) ↔
        ∀ fault, ¬Data.Misplaced us t fault)) ∧
    (∀ ts, (Pull.ofList ts).exhaust.failure? =
        some (.malformed ⟨ts.length, .unclosedContainer⟩) ↔
      Data.acceptedPrefix ts = ts ∧ Data.unclosed ts ≠ []) ∧
    (r.run.hasEnded = false →
      (∀ us t vs fault, (r.feed (us ++ t :: vs)).1 =
          .error (.malformed ⟨(l.accepted ++ us).length, fault⟩) ↔
        (∃ written, (r.feed us).1 = .ok ⟨us.length, written, false⟩) ∧
          Data.Misplaced (l.accepted ++ us) t fault) ∧
      (∀ us t written, (r.feed us).1 = .ok ⟨us.length, written, false⟩ →
        ((∃ report, (r.feed (us ++ [t])).1 = .ok report ∧ report.consumed = us.length + 1) ↔
          ∀ fault, ¬Data.Misplaced (l.accepted ++ us) t fault)) ∧
      (r.finish.1 = .error (.malformed ⟨l.accepted.length, .unclosedContainer⟩) ↔
        r.ring.isFull = false ∧ Data.unclosed l.accepted ≠ [])) := by
  intro served r l
  have hr : r.Balances l := balances_serve (l := .empty) (tracks_ofCapacity n) calls
  refine ⟨?_, fun ts => Pull.failure?_exhaust_eq_unclosed_iff_unclosed, ?_⟩
  · intro us t vs hwithin
    have h := Data.going_of_prefix hwithin
    refine ⟨?_, Data.concat_prefix_acceptedPrefix_iff h vs⟩
    intro fault
    exact Pull.failure?_exhaust_eq_iff_misplaced h vs
  · intro hgo
    refine ⟨?_, ?_, finish_failure_iff_unclosed hr hgo⟩
    · intro us t vs fault
      exact feed_failure_iff_misplaced hr hgo vs
    · intro us t written hok
      exact feed_concat_ok_iff hr hgo hok

theorem failure_iff_misplaced_after_nested :
    let us : List Data.Token := [.opening .object none, .property (.ofLocal "a"),
      .opening .array none, .closing .array]
    us <+: Data.acceptedPrefix (us ++ [.scalar .null]) ∧
      (Pull.ofList (us ++ [.scalar .null])).exhaust.failure? =
        some (.malformed ⟨4, .valueWithoutProperty⟩) ∧
      ((ofCapacity 16).feed (us ++ [.scalar .null])).1 =
        .error (.malformed ⟨4, .valueWithoutProperty⟩) := by
  intro us
  have hbefore : us <+: Data.acceptedPrefix (us ++ [.scalar .null]) :=
    Data.prefix_acceptedPrefix rfl _
  obtain ⟨hpull, -, hpush⟩ := failure_iff_misplaced 16 []
  obtain ⟨hfault, -⟩ := hpull us (.scalar .null) [] hbefore
  obtain ⟨hfeed, -⟩ := hpush rfl
  have hmisplaced : Data.Misplaced us (.scalar .null) .valueWithoutProperty :=
    .valueWithoutProperty rfl rfl rfl
  exact ⟨hbefore, (hfault _).mpr hmisplaced,
    (hfeed us (.scalar .null) [] _).mpr ⟨⟨_, rfl⟩, hmisplaced⟩⟩

end Renderer
end DataMarkup
