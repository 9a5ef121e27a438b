import Mathlib
import DataMarkup.Proofs.Renderer.Account
import DataMarkup.Proofs.Renderer.Standing

/-! The events as they are shown. Their fields tell them apart, and from what has been logged one reads how
many containers are open, whether the run has ended, and why. -/

namespace DataMarkup

/-! ### One event -/

namespace Frame

theorem text_injective : Function.Injective text := by
  intro f g h
  rcases f with _ | _ | _ <;> rcases g with _ | _ | _ <;> first | rfl | exact absurd h (by decide)

theorem text_ne_optionText (f : Frame) (g : Option Frame) : f.text ≠ optionText g := by
  rcases f with _ | _ | _ <;> rcases g with _ | _ | _ | _ <;> decide

theorem optionText_injective : Function.Injective optionText := by
  intro f g h
  cases f with
  | none =>
    cases g with
    | none => rfl
    | some g => rcases g with _ | _ | _ <;> exact absurd h (by decide)
  | some f =>
    cases g with
    | none => rcases f with _ | _ | _ <;> exact absurd h (by decide)
    | some g =>
      have htext : "Some(" ++ f.text = "Some(" ++ g.text := (String.append_left_inj ")").mp h
      rw [text_injective ((String.append_right_inj "Some(").mp htext)]

end Frame

namespace Event

theorem values_eq {key key' v v' w w' : String}
    (h : [(key, v), (key', w)] = [(key, v'), (key', w')]) : v = v' ∧ w = w' := by
  simpa using h

theorem fields_injective : Function.Injective fields := by
  intro e f h
  cases e with
  | pushed depth frame =>
    cases f with
    | pushed depth' frame' =>
      obtain ⟨hdepth, hframe⟩ := values_eq h
      rw [Nat.repr_injective hdepth, Frame.text_injective hframe]
    | popped depth' frame' =>
      obtain ⟨-, hframe⟩ := values_eq h
      exact absurd hframe (frame.text_ne_optionText frame')
    | finished | stopped => simp [fields] at h
  | popped depth frame =>
    cases f with
    | pushed depth' frame' =>
      obtain ⟨-, hframe⟩ := values_eq h
      exact absurd hframe.symm (frame'.text_ne_optionText frame)
    | popped depth' frame' =>
      obtain ⟨hdepth, hframe⟩ := values_eq h
      rw [Nat.repr_injective hdepth, Frame.optionText_injective hframe]
    | finished | stopped => simp [fields] at h
  | finished tokens deepest =>
    cases f with
    | finished tokens' deepest' =>
      obtain ⟨htokens, hdeepest⟩ := values_eq h
      rw [Nat.repr_injective htokens, Nat.repr_injective hdeepest]
    | pushed | popped | stopped => simp [fields] at h
  | stopped cause =>
    cases f with
    | stopped cause' =>
      obtain ⟨index, fault⟩ := cause
      obtain ⟨index', fault'⟩ := cause'
      obtain ⟨hindex, hcode⟩ := values_eq h
      obtain rfl : index = index' := Nat.repr_injective hindex
      obtain rfl : fault = fault' := Fault.code_inj.mp (Nat.repr_injective hcode)
      rfl
    | pushed | popped | finished => simp [fields] at h

theorem malformed_ne (fault : Fault) :
    "malformed input: " ++ fault.message ≠ "push frame" ∧
      "malformed input: " ++ fault.message ≠ "pop frame" ∧
      "malformed input: " ++ fault.message ≠ "transform finished" := by
  rcases fault with (_ | _) | _ | _ | _ | _ <;> decide

theorem message_ne_of_debug {e : Event} (h : e.level = "DEBUG") :
    e.message ≠ "push frame" ∧ e.message ≠ "pop frame" := by
  cases e with
  | pushed | popped => exact absurd h (by simp [level])
  | finished tokens deepest => exact ⟨by simp [message], by simp [message]⟩
  | stopped cause => exact ⟨(malformed_ne cause.fault).1, (malformed_ne cause.fault).2.1⟩

theorem message_eq_malformed_iff {e : Event} {fault : Fault} :
    e.message = "malformed input: " ++ fault.message ↔ ∃ index, e = .stopped ⟨index, fault⟩ := by
  constructor
  · intro h
    cases e with
    | pushed => exact absurd h.symm (malformed_ne fault).1
    | popped => exact absurd h.symm (malformed_ne fault).2.1
    | finished => exact absurd h.symm (malformed_ne fault).2.2
    | stopped cause =>
      have hfault : cause.fault.message = fault.message :=
        (String.append_right_inj "malformed input: ").mp h
      rw [← Fault.message_inj.mp hfault]
      exact ⟨cause.index, rfl⟩
  · rintro ⟨index, rfl⟩
    rfl

theorem message_eq_finished_iff {e : Event} :
    e.message = "transform finished" ↔ ∃ tokens deepest, e = .finished tokens deepest := by
  constructor
  · intro h
    cases e with
    | pushed | popped => simp [message] at h
    | finished tokens deepest => exact ⟨tokens, deepest, rfl⟩
    | stopped cause => exact absurd h (malformed_ne cause.fault).2.2
  · rintro ⟨tokens, deepest, rfl⟩
    rfl

end Event

/-! ### All events of a run -/

namespace Data

theorem countP_account {due : Token → Bool} {shows : Event → Bool}
    (h : ∀ us t, (event? us t).toList.countP shows = [t].countP due) (ts : List Token) :
    (account ts).countP shows = ts.countP due := by
  induction ts using List.reverseRecOn with
  | nil => rfl
  | append_singleton us t ih =>
    rw [account_concat, List.countP_append, List.countP_append, ih, h]

end Data

namespace Run

variable {run : Run} {ts : List Data.Token} {e : Event}

theorem frame_of_mem_events (h : (start.after ts).hasEnded = false)
    (he : e ∈ (start.after ts).events) :
    ∃ (depth : Nat) (kind : Container),
      e = .pushed depth kind.frame ∨ e = .popped depth (some kind.frame) := by
  induction ts using List.reverseRecOn with
  | nil => exact absurd he List.not_mem_nil
  | append_singleton us t ih =>
    obtain ⟨hgo, hf, hafter⟩ := after_concat_of_going h
    rw [hafter, events_accept, List.mem_append, Option.mem_toList] at he
    rcases he with he | he
    · exact ih hgo he
    · cases t with
      | opening kind title =>
        cases he
        exact ⟨_, kind, .inl rfl⟩
      | closing kind =>
        cases he
        rw [Nesting.fault?_closing_eq_none_iff.mp hf]
        exact ⟨_, kind, .inr rfl⟩
      | property | scalar => cases he

theorem Reaches.mem_events (h : Reaches ts run) (he : e ∈ run.events) :
    (∃ (depth : Nat) (kind : Container),
      e = .pushed depth kind.frame ∨ e = .popped depth (some kind.frame)) ∨
    (∃ cause, e = .stopped cause ∧ run.failure? = some cause) ∨
    e = .finished run.accepted run.deepest ∧ run.isDone = true := by
  cases h with
  | going h => exact .inl (frame_of_mem_events h he)
  | stopped h fault =>
    rw [events_stop, List.mem_append, List.mem_singleton] at he
    rcases he with he | he
    · exact .inl (frame_of_mem_events h he)
    · exact .inr (.inl ⟨_, he, rfl⟩)
  | done h hd =>
    rw [events_finish_of_closed h hd, List.mem_append, List.mem_singleton] at he
    rcases he with he | he
    · exact .inl (frame_of_mem_events h he)
    · have hsame := (start.after ts).agrees_finish
      rw [← hsame.accepted_eq, ← hsame.deepest_eq] at he
      exact .inr (.inr ⟨he, isDone_finish_of_closed h hd⟩)

theorem Reaches.stopped_mem_events_iff (h : Reaches ts run) (cause : Malformed) :
    .stopped cause ∈ run.events ↔ run.failure? = some cause := by
  constructor
  · intro he
    rcases h.mem_events he with ⟨_, _, hshape | hshape⟩ | ⟨_, hshape, hcause⟩ | ⟨hshape, -⟩
    · cases hshape
    · cases hshape
    · cases hshape
      exact hcause
    · cases hshape
  · intro hcause
    rw [h.events_eq, hcause]
    exact List.mem_append_right _ List.mem_cons_self

theorem Reaches.finished_mem_events_iff (h : Reaches ts run) (tokens deepest : Nat) :
    .finished tokens deepest ∈ run.events ↔
      run.isDone = true ∧ tokens = run.accepted ∧ deepest = run.deepest := by
  constructor
  · intro he
    rcases h.mem_events he with ⟨_, _, hshape | hshape⟩ | ⟨_, hshape, -⟩ | ⟨hshape, hdone⟩
    · cases hshape
    · cases hshape
    · cases hshape
    · cases hshape
      exact ⟨hdone, rfl, rfl⟩
  · rintro ⟨hdone, rfl, rfl⟩
    have hsum := h.sumsUp
    rw [h.events_eq, failure?_of_isDone hdone, hdone, hsum.accepted_eq, hsum.deepest_eq]
    exact List.mem_append_right _ List.mem_cons_self

theorem Reaches.countP_events (h : Reaches ts run) {due : Data.Token → Bool} {shows : Event → Bool}
    (hdue : ∀ us t, (Data.event? us t).toList.countP shows = [t].countP due)
    (hend : ∀ e : Event, e.level = "DEBUG" → shows e = false) :
    run.events.countP shows = ts.countP due := by
  have hnote : (Data.endNote ts (run.failure?.map .malformed) run.isDone).countP shows = 0 := by
    rw [List.countP_eq_zero]
    intro e he
    rw [hend e (Data.level_of_mem_endNote he)]
    exact Bool.false_ne_true
  rw [h.events_eq, List.countP_append, Data.countP_account hdue, hnote, Nat.add_zero]

theorem Reaches.countP_pushed (h : Reaches ts run) :
    run.events.countP (fun e => e.message = "push frame") = Data.openings ts := by
  apply h.countP_events
  · intro us t
    cases t <;> rfl
  · intro e he
    exact decide_eq_false (Event.message_ne_of_debug he).1

theorem Reaches.countP_popped (h : Reaches ts run) :
    run.events.countP (fun e => e.message = "pop frame") = Data.closings ts := by
  apply h.countP_events
  · intro us t
    cases t <;> rfl
  · intro e he
    exact decide_eq_false (Event.message_ne_of_debug he).2

structure Shows (run : Run) : Prop where
  depth_eq : run.events.countP (fun e => e.message = "push frame") =
    run.events.countP (fun e => e.message = "pop frame") + run.depth
  frame_mem : ∀ e ∈ run.events, ∀ frame, ("frame", frame) ∈ e.fields →
    frame ∈ ["Array", "Object { awaiting_value: false }", "Some(Array)",
      "Some(Object { awaiting_value: false })"]
  fault_iff : ∀ fault : Fault,
    (∃ e ∈ run.events, e.message = "malformed input: " ++ fault.message) ↔
      ∃ index, run.failure? = some ⟨index, fault⟩
  cause_iff : ∀ cause : Malformed,
    (∃ e ∈ run.events, e.fields =
      [("index", toString cause.index), ("code", toString cause.fault.code)]) ↔
      run.failure? = some cause
  done_iff : (∃ e ∈ run.events, e.message = "transform finished") ↔ run.isDone = true
  counts_iff : (∃ e ∈ run.events, e.fields =
    [("tokens", toString run.accepted), ("max_depth", toString run.deepest)]) ↔ run.isDone = true

theorem Reaches.frame_mem (h : Reaches ts run) (he : e ∈ run.events) {frame : String}
    (hframe : ("frame", frame) ∈ e.fields) :
    frame ∈ ["Array", "Object { awaiting_value: false }", "Some(Array)",
      "Some(Object { awaiting_value: false })"] := by
  rcases h.mem_events he with ⟨depth, kind, rfl | rfl⟩ | ⟨cause, rfl, -⟩ | ⟨rfl, -⟩
  · have htext : frame = kind.frame.text := by simpa [Event.fields] using hframe
    rw [htext]
    cases kind <;> decide
  · have htext : frame = Frame.optionText (some kind.frame) := by simpa [Event.fields] using hframe
    rw [htext]
    cases kind <;> decide
  · simp [Event.fields] at hframe
  · simp [Event.fields] at hframe

theorem Reaches.shows (h : Reaches ts run) : run.Shows := by
  refine ⟨?_, fun e he frame => h.frame_mem he, ?_, ?_, ?_, ?_⟩
  · rw [h.countP_pushed, h.countP_popped]
    exact h.sumsUp.depth_eq
  · intro fault
    constructor
    · rintro ⟨e, he, hmessage⟩
      obtain ⟨index, rfl⟩ := Event.message_eq_malformed_iff.mp hmessage
      exact ⟨index, (h.stopped_mem_events_iff _).mp he⟩
    · rintro ⟨index, hcause⟩
      exact ⟨_, (h.stopped_mem_events_iff _).mpr hcause, rfl⟩
  · intro cause
    constructor
    · rintro ⟨e, he, hfields⟩
      obtain rfl : e = .stopped cause := Event.fields_injective hfields
      exact (h.stopped_mem_events_iff _).mp he
    · intro hcause
      exact ⟨_, (h.stopped_mem_events_iff _).mpr hcause, rfl⟩
  · constructor
    · rintro ⟨e, he, hmessage⟩
      obtain ⟨tokens, deepest, rfl⟩ := Event.message_eq_finished_iff.mp hmessage
      exact ((h.finished_mem_events_iff _ _).mp he).1
    · intro hdone
      exact ⟨_, (h.finished_mem_events_iff _ _).mpr ⟨hdone, rfl, rfl⟩, rfl⟩
  · constructor
    · rintro ⟨e, he, hfields⟩
      obtain rfl : e = .finished run.accepted run.deepest := Event.fields_injective hfields
      exact ((h.finished_mem_events_iff _ _).mp he).1
    · intro hdone
      exact ⟨_, (h.finished_mem_events_iff _ _).mpr ⟨hdone, rfl, rfl⟩, rfl⟩

end Run

/-- The log of a pull, and of a renderer after any calls, tells by its texts alone how many containers are
open and whether and how the run has ended. -/
theorem Renderer.shows_skip_and_serve (ts : List Data.Token) (k n : Nat) (calls : List Call) :
    ((Pull.ofList ts).skip k).renderer.run.Shows ∧ ((ofCapacity n).serve calls).2.run.Shows := by
  have hr : ((ofCapacity n).serve calls).2.Balances _ :=
    balances_serve (l := .empty) (tracks_ofCapacity n) calls
  exact ⟨(Pull.reaches_skip ts k).shows, hr.reaches.shows⟩

end DataMarkup
