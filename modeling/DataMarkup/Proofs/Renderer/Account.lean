import DataMarkup.Proofs.Pull.Items
import DataMarkup.Proofs.Renderer.Finality
import DataMarkup.Proofs.Run.Account

/-! The events that are logged are the account that is due for the tokens accepted, with one note on the
end. They are never taken back, and after the end there are no more of them. -/

namespace DataMarkup

variable {us ts : List Data.Token} {run : Run}

namespace Run

theorem Reaches.events_eq (h : Reaches ts run) :
    run.events =
      Data.account ts ++ Data.endNote ts (run.failure?.map .malformed) run.isDone := by
  cases h with
  | going h =>
    rw [events_after h, failure?_of_going h, isDone_of_going h]
    exact (List.append_nil _).symm
  | stopped h fault =>
    rw [events_stop, events_after h]
    rfl
  | done h hd =>
    rw [events_finish_of_closed h hd, events_after h, accepted_after_start h, deepest_after h,
      failure?_finish_of_closed h hd, isDone_finish_of_closed h hd]
    rfl

theorem Reaches.account_prefix_events (h : Reaches ts run) : Data.account ts <+: run.events := by
  rw [h.events_eq]
  exact List.prefix_append _ _

theorem Reaches.events_of_going (h : Reaches ts run) (hgo : run.hasEnded = false) :
    run.events = Data.account ts := by
  rw [h.eq_after hgo, events_after h.going_after]

theorem Reaches.exists_debug_iff (h : Reaches ts run) :
    (∃ e ∈ run.events, e.level = "DEBUG") ↔ run.hasEnded = true := by
  constructor
  · rintro ⟨e, he, hdebug⟩
    by_contra hgo
    rw [h.events_of_going (Bool.not_eq_true _ ▸ hgo)] at he
    rw [Data.level_of_mem_account he] at hdebug
    exact absurd hdebug (by decide)
  · intro hended
    obtain ⟨e, he⟩ : ∃ e, e ∈ Data.endNote ts (run.failure?.map .malformed) run.isDone := by
      rw [isDone_eq_of_hasEnded hended]
      cases run.failure? <;> exact ⟨_, List.mem_cons_self⟩
    refine ⟨e, ?_, Data.level_of_mem_endNote he⟩
    rw [h.events_eq]
    exact List.mem_append_right _ he

end Run

namespace Pull

theorem events_exhaust (ts : List Data.Token) :
    (ofList ts).exhaust.rest.renderer.run.events =
      Data.account (Data.acceptedPrefix ts) ++
        Data.endNote (Data.acceptedPrefix ts) (ofList ts).exhaust.failure? true := by
  have hended : (ofList ts).ending.hasEnded = true := Run.hasEnded_finish _
  rw [run_rest_exhaust, (reaches_ending ts).events_eq, failure?_exhaust_eq_ending,
    Run.isDone_eq_of_hasEnded hended]
  cases (ofList ts).ending.failure? <;> rfl

theorem events_skip (ts : List Data.Token) (k : Nat) :
    ∃ us, us <+: Data.acceptedPrefix ts ∧
      ((ofList ts).skip k).renderer.run.events = Data.account us ++
        Data.endNote us (((ofList ts).items k).findSome? failureOf?)
          ((ofList ts).skip k).renderer.run.isDone := by
  obtain ⟨us, hus, hreaches⟩ := exists_reaches_skip ts k
  have hfailure := failure?_skip (sound_ofList ts).renderer k
  refine ⟨us, hus, ?_⟩
  rw [hreaches.events_eq, hfailure]
  rfl

theorem events_skip_prefix_exhaust (ts : List Data.Token) (k : Nat) :
    ((ofList ts).skip k).renderer.run.events <+:
        (ofList ts).exhaust.rest.renderer.run.events ∧
      (((ofList ts).skip k).renderer.run.hasEnded = true →
        ((ofList ts).skip k).renderer.run.events =
          (ofList ts).exhaust.rest.renderer.run.events) := by
  rw [run_rest_exhaust]
  cases hended : ((ofList ts).skip k).renderer.run.hasEnded with
  | true =>
    rw [run_ofList_of_hasEnded hended]
    exact ⟨List.prefix_rfl, fun _ => rfl⟩
  | false =>
    obtain ⟨us, ⟨vs, hvs⟩, hreaches⟩ := exists_reaches_skip ts k
    have hall := (reaches_ending ts).account_prefix_events
    rw [← hvs] at hall
    rw [hreaches.events_of_going hended]
    exact ⟨(Data.account_prefix_append us vs).trans hall, fun h => absurd h Bool.noConfusion⟩

end Pull

namespace Renderer

variable {r : Renderer} {l : Ledger}

theorem events_serve (n : Nat) (calls : List Call) :
    let served := (ofCapacity n).serve calls
    let l := Ledger.empty.enterAll (calls.zip (served.1.map Prod.fst))
    served.2.run.events = Data.account l.accepted ++
      Data.endNote l.accepted (served.1.findSome? fun seen => seen.1.failure?)
        served.2.isFinished := by
  intro served l
  have hbalances : served.2.Balances l := balances_serve (l := .empty) (tracks_ofCapacity n) calls
  have hfailure := failure?_serve (sound_ofCapacity n) calls
  rw [hbalances.reaches.events_eq, hfailure]
  rfl

theorem events_prefix_serve (h : r.Balances l) (cs : List Call) :
    r.run.events <+: (r.serve cs).2.run.events := by
  cases hended : r.run.hasEnded with
  | true => rw [(serve_of_hasEnded h.sound hended l cs).1]
  | false =>
    have hlater := balances_serve h cs
    obtain ⟨more, hmore⟩ := l.accepted_prefix_enterAll (cs.zip ((r.serve cs).1.map Prod.fst))
    rw [h.reaches.events_of_going hended]
    refine List.IsPrefix.trans ?_ hlater.reaches.account_prefix_events
    rw [← hmore]
    exact Data.account_prefix_append _ _

/-- A pull at any time, and at its end, and a renderer after any calls have logged the account of what
they have accepted, at the one level, and at the other the note on the end, if there was one. What is
logged stays, and nothing comes after that note. -/
theorem events_eq_account (ts : List Data.Token) (k n : Nat) (calls more : List Call) :
    let pulled := (Pull.ofList ts).exhaust
    let p := (Pull.ofList ts).skip k
    let served := (ofCapacity n).serve calls
    let r := served.2
    let l := Ledger.empty.enterAll (calls.zip (served.1.map Prod.fst))
    (pulled.rest.renderer.run.events = Data.account (Data.acceptedPrefix ts) ++
      Data.endNote (Data.acceptedPrefix ts) pulled.failure? true) ∧
    (∃ us, us <+: Data.acceptedPrefix ts ∧
      p.renderer.run.events = Data.account us ++ Data.endNote us
        (((Pull.ofList ts).items k).findSome? Pull.failureOf?) p.renderer.run.isDone) ∧
    p.renderer.run.events <+: pulled.rest.renderer.run.events ∧
    ((∃ e ∈ p.renderer.run.events, e.level = "DEBUG") →
      p.renderer.run.events = pulled.rest.renderer.run.events) ∧
    (r.run.events = Data.account l.accepted ++
      Data.endNote l.accepted (served.1.findSome? fun seen => seen.1.failure?) r.isFinished) ∧
    r.run.events <+: (r.serve more).2.run.events ∧
    ((∃ e ∈ r.run.events, e.level = "DEBUG") → (r.serve more).2.run.events = r.run.events) ∧
    ∀ us failure? finished, (∀ e ∈ Data.account us, e.level = "TRACE") ∧
      ∀ e ∈ Data.endNote us failure? finished, e.level = "DEBUG" := by
  intro pulled p served r l
  have hr : r.Balances l := balances_serve (l := .empty) (tracks_ofCapacity n) calls
  obtain ⟨us, -, hreaches⟩ := Pull.exists_reaches_skip ts k
  obtain ⟨hwithin, hsame⟩ := Pull.events_skip_prefix_exhaust ts k
  refine ⟨Pull.events_exhaust ts, Pull.events_skip ts k, hwithin, ?_, events_serve n calls,
    events_prefix_serve hr more, ?_, ?_⟩
  · intro hdebug
    exact hsame (hreaches.exists_debug_iff.mp hdebug)
  · intro hdebug
    have hended := hr.reaches.exists_debug_iff.mp hdebug
    rw [(serve_of_hasEnded hr.sound hended l more).1]
  · intro us failure? finished
    exact ⟨fun e => Data.level_of_mem_account, fun e => Data.level_of_mem_endNote⟩

theorem events_eq_account_nested :
    let ts : List Data.Token := [.opening .object none, .property (.ofLocal "a"),
      .opening .array none, .closing .array, .closing .object]
    let r := ((ofCapacity 16).serve [.feed ts, .finish]).2
    let events : List Event := [.pushed 1 (.object false), .pushed 2 .array,
      .popped 1 (some .array), .popped 0 (some (.object false)), .finished 5 2]
    r.run.events = events ∧ ∀ more, (r.serve more).2.run.events = events := by
  intro ts r events
  have hevents : r.run.events = events := by
    obtain ⟨-, -, -, -, hserved, -⟩ := events_eq_account [] 0 16 [.feed ts, .finish] []
    exact hserved.trans rfl
  have hdebug : ∃ e ∈ r.run.events, e.level = "DEBUG" := by
    rw [hevents]
    exact ⟨.finished 5 2, by simp [events], rfl⟩
  refine ⟨hevents, fun more => ?_⟩
  obtain ⟨-, -, -, -, -, -, hsame, -⟩ := events_eq_account [] 0 16 [.feed ts, .finish] more
  exact (hsame hdebug).trans hevents

end Renderer
end DataMarkup
