import DataMarkup.Proofs.Pull.Extent
import DataMarkup.Proofs.Pull.Move
import DataMarkup.Proofs.Renderer.Tracking

/-! The items that a pull gives, call by call. What is owed comes first, a token a call; a failure comes
when nothing is owed, and after it, or after an end, nothing comes and nothing moves. -/

namespace DataMarkup.Pull

open Run

variable {p : Pull} {x : Option (Except Failure Markup.Token) × Pull} {failure : Failure}

def items (p : Pull) : Nat → List (Option (Except Failure Markup.Token))
  | 0 => []
  | k + 1 => p.next.1 :: p.next.2.items k

def failureOf? : Option (Except Failure Markup.Token) → Option Failure
  | some (.error failure) => some failure
  | _ => none

structure Spent (p : Pull) : Prop where
  ended : p.renderer.run.hasEnded = true
  empty : p.renderer.ring.toList = []

theorem Spent.next_eq (h : p.Spent) (hs : p.renderer.Sound) : p.next = (none, p) :=
  nextFrom_of_hasEnded (hs.wellFormed.holds_of_toList_eq h.empty) h.ended p.pulls p.source

theorem Spent.skip_eq (h : p.Spent) (hs : p.renderer.Sound) (k : Nat) : p.skip k = p := by
  induction k with
  | zero => rfl
  | succ k ih => rw [skip, h.next_eq hs, ih]

theorem Moves.spent (hx : p.Moves x) (hno : ∀ m, x.1 ≠ some (.ok m)) : x.2.Spent := by
  cases hx with
  | waiting _ _ => exact absurd rfl (hno _)
  | ended hms hended => exact ⟨hended, hms⟩
  | accepted _ _ _ _ _ _ => exact absurd rfl (hno _)
  | stopped hms _ _ _ => exact ⟨hasEnded_stop _ _, hms⟩
  | unclosed hms _ _ _ => exact ⟨hasEnded_stop _ _, hms⟩
  | closed _ _ _ _ holds =>
    cases hend : p.renderer.run.finish.2 with
    | nil => exact ⟨hasEnded_finish _, by rw [holds.items_eq, hend, List.tail_nil]⟩
    | cons m ms => exact absurd (by rw [hend]; rfl) (hno m)

theorem Moves.depth_eq_of_failure (hx : p.Moves x) (h : x.1 = some (.error failure)) :
    x.2.depth = p.depth := by
  cases hx with
  | waiting _ _ => cases h
  | ended _ _ => cases h
  | accepted _ _ _ _ _ _ => cases h
  | stopped _ _ _ _ => rfl
  | unclosed _ _ _ _ => rfl
  | closed _ _ _ _ _ =>
    obtain ⟨m, -, hm⟩ := Option.map_eq_some_iff.mp h
    cases hm

theorem not_failure_of_spent {q : Pull} {k : Nat} (h : p.Spent) (hs : p.renderer.Sound) :
    (p.skip k).next ≠ (some (.error failure), q) := by
  rw [h.skip_eq hs, h.next_eq hs]
  exact fun heq => absurd (congrArg Prod.fst heq).symm (Option.some_ne_none _)

theorem items_of_failure {q : Pull} {k : Nat} (h : p.Sound)
    (hx : (p.skip k).next = (some (.error failure), q)) :
    p.items k = p.owed.map (fun m => some (.ok m)) ∧ q.renderer.run = p.ending ∧
      p.ending.failure?.map .malformed = some failure := by
  induction k generalizing p with
  | zero =>
    have hgives : p.Gives (some (.error failure), q) := hx ▸ gives_next h
    cases hgives with
    | failure owed_eq run_eq cause_eq => exact ⟨by rw [owed_eq]; rfl, run_eq, by rw [cause_eq]; rfl⟩
  | succ k ih =>
    have hgives := gives_next h
    have hmoves := moves_next h.renderer
    rw [skip] at hx
    rw [items]
    generalize p.next = y at hgives hmoves hx ⊢
    cases hgives with
    | token sound owed_eq ending_eq =>
      obtain ⟨hitems, hrun, hfailure⟩ := ih sound hx
      rw [hitems, owed_eq, ← ending_eq]
      exact ⟨rfl, hrun, hfailure⟩
    | failure _ _ _ =>
      have hspent := hmoves.spent (fun m hm => by cases hm)
      exact absurd hx (not_failure_of_spent hspent (hmoves.sound h.renderer))
    | nothing _ _ _ =>
      have hspent := hmoves.spent (fun m hm => by cases hm)
      exact absurd hx (not_failure_of_spent hspent (hmoves.sound h.renderer))

/-! ### The run after some calls -/

theorem Moves.ending_eq (hx : p.Moves x) : x.2.ending = p.ending := by
  cases hx with
  | waiting _ _ => rfl
  | ended _ _ => rfl
  | accepted _ _ source _ _ _ =>
    rw [ending, ending, source]
    rfl
  | stopped _ going source misplaced =>
    have hended := hasEnded_stop p.renderer.run
    rw [ending_of_hasEnded (hended _), ending, source, after_cons_of_fault going misplaced,
      finish_of_hasEnded (hended _)]
  | unclosed _ going source hd =>
    rw [ending_of_hasEnded (hasEnded_stop _ _), ending, source, after, finish_of_unclosed going hd]
  | closed _ _ source _ _ =>
    rw [ending_of_hasEnded (hasEnded_finish _), ending, source, after]

theorem Moves.exists_after (hx : p.Moves x) (hgo : x.2.renderer.run.hasEnded = false) :
    ∃ us, p.source = us ++ x.2.source ∧ x.2.renderer.run = p.renderer.run.after us := by
  cases hx with
  | waiting _ _ => exact ⟨[], rfl, rfl⟩
  | ended _ _ => exact ⟨[], rfl, rfl⟩
  | @accepted t ts _ _ _ _ _ source _ _ _ => exact ⟨[t], source, rfl⟩
  | stopped _ _ _ _ | unclosed _ _ _ _ =>
    rw [hasEnded_stop] at hgo
    exact absurd hgo Bool.noConfusion
  | closed _ _ _ _ _ =>
    rw [hasEnded_finish] at hgo
    exact absurd hgo Bool.noConfusion

theorem Moves.failure?_eq (hx : p.Moves x) :
    x.2.renderer.run.failure?.map .malformed =
      (p.renderer.run.failure?.map .malformed).or (failureOf? x.1) := by
  cases hx with
  | waiting _ _ | ended _ _ => exact (Option.or_none).symm
  | accepted _ going _ placed _ _ =>
    rw [step_of_accepted going placed, failure?_of_going (hasEnded_accept _ _),
      failure?_of_going going]
    rfl
  | stopped _ going _ _ | unclosed _ going _ _ =>
    rw [failure?_of_going going]
    rfl
  | closed _ going _ hd _ =>
    rw [failure?_finish_of_closed going hd, failure?_of_going going]
    cases p.renderer.run.finish.2.head? <;> rfl

theorem run_skip_of_hasEnded (h : p.renderer.Sound) {k : Nat}
    (hended : (p.skip k).renderer.run.hasEnded = true) : (p.skip k).renderer.run = p.ending := by
  induction k generalizing p with
  | zero => exact (ending_of_hasEnded hended).symm
  | succ k ih =>
    have hmoves := moves_next h
    rw [← hmoves.ending_eq]
    exact ih (hmoves.sound h) hended

theorem exists_after_skip (h : p.renderer.Sound) {k : Nat}
    (hgo : (p.skip k).renderer.run.hasEnded = false) :
    ∃ us, p.source = us ++ (p.skip k).source ∧
      (p.skip k).renderer.run = p.renderer.run.after us := by
  induction k generalizing p with
  | zero => exact ⟨[], rfl, rfl⟩
  | succ k ih =>
    have hmoves := moves_next h
    obtain ⟨vs, hrest, hrun⟩ := ih (hmoves.sound h) hgo
    have hnext : p.next.2.renderer.run.hasEnded = false := by
      rw [skip, hrun] at hgo
      exact going_of_after hgo
    obtain ⟨us, hsource, hnextRun⟩ := hmoves.exists_after hnext
    refine ⟨us ++ vs, ?_, ?_⟩
    · rw [hsource, hrest, List.append_assoc]
      rfl
    · rw [skip, hrun, hnextRun, after_append]

theorem failure?_skip (h : p.renderer.Sound) (k : Nat) :
    (p.skip k).renderer.run.failure?.map .malformed =
      (p.renderer.run.failure?.map .malformed).or ((p.items k).findSome? failureOf?) := by
  induction k generalizing p with
  | zero => exact (Option.or_none).symm
  | succ k ih =>
    have hmoves := moves_next h
    rw [skip, ih (hmoves.sound h), hmoves.failure?_eq, Option.or_assoc, items,
      List.findSome?_cons]
    cases failureOf? p.next.1 <;> rfl

/-! ### The whole of an input -/

variable {ts : List Data.Token} {cause : Malformed}

theorem failure?_exhaust_eq_ending (ts : List Data.Token) :
    (ofList ts).exhaust.failure? = (ofList ts).ending.failure?.map .malformed :=
  (exhaustFrom_eq (sound_ofList ts) _ _).2.1

theorem run_rest_exhaust (ts : List Data.Token) :
    (ofList ts).exhaust.rest.renderer.run = (ofList ts).ending :=
  (run_exhaust ts).trans (run_render ts)

theorem acceptedPrefix_eq_take (h : (ofList ts).ending.failure? = some cause) :
    Data.acceptedPrefix ts = ts.take cause.index := by
  rw [Data.acceptedPrefix, failure?_exhaust_eq_ending, h]
  rfl

theorem owed_ofList (h : (ofList ts).ending.failure? = some cause) :
    (ofList ts).owed = start.markup (ts.take cause.index) := by
  have hmarkup : (ofList ts).exhaust.markup.toList = [] ++ (ofList ts).owed :=
    (exhaustFrom_eq (sound_ofList ts) _ _).1
  have hfailure : (ofList ts).exhaust.failure? ≠ none := by
    rw [failure?_exhaust_eq_ending, h]
    exact Option.some_ne_none _
  rw [← List.nil_append (owed _), ← hmarkup, markup_exhaust_of_failure hfailure,
    acceptedPrefix_eq_take h]

theorem reaches_ending (ts : List Data.Token) :
    Reaches (Data.acceptedPrefix ts) (ofList ts).ending := by
  rcases going_or_fault hasEnded_start ts with h | ⟨us, t, vs, fault, rfl, h, hf⟩
  · rw [Data.acceptedPrefix_of_going h]
    show Reaches ts (start.after ts).finish.1
    by_cases hd : (start.after ts).depth = 0
    · exact .done h hd
    · rw [finish_of_unclosed h hd]
      exact .stopped h _
  · rw [Data.acceptedPrefix_of_fault h hf]
    show Reaches us (start.after (us ++ t :: vs)).finish.1
    rw [after_of_fault h hf, finish_of_hasEnded (hasEnded_stop _ _)]
    exact .stopped h fault

theorem run_ofList_of_hasEnded {k : Nat}
    (hended : ((ofList ts).skip k).renderer.run.hasEnded = true) :
    ((ofList ts).skip k).renderer.run = (ofList ts).ending :=
  run_skip_of_hasEnded (sound_ofList ts).renderer hended

theorem exists_reaches_skip (ts : List Data.Token) (k : Nat) :
    ∃ us, us <+: Data.acceptedPrefix ts ∧ Reaches us ((ofList ts).skip k).renderer.run := by
  cases hgo : ((ofList ts).skip k).renderer.run.hasEnded with
  | true =>
    rw [run_ofList_of_hasEnded hgo]
    exact ⟨_, List.prefix_rfl, reaches_ending ts⟩
  | false =>
    obtain ⟨us, hsource, hrun⟩ := exists_after_skip (sound_ofList ts).renderer hgo
    have hts : ts = us ++ ((ofList ts).skip k).source := hsource
    replace hrun : ((ofList ts).skip k).renderer.run = start.after us := hrun
    rw [hrun] at hgo ⊢
    rw [hts]
    exact ⟨us, Data.prefix_acceptedPrefix hgo _, .going hgo⟩

theorem items_ofList_of_failure {q : Pull} {k : Nat}
    (hx : ((ofList ts).skip k).next = (some (.error failure), q)) :
    ∃ cause, failure = .malformed cause ∧
      (ofList ts).items k = (start.markup (ts.take cause.index)).map (fun m => some (.ok m)) ∧
      q.depth = (Data.unclosed (ts.take cause.index)).length := by
  obtain ⟨hitems, hrun, hfailure⟩ := items_of_failure (sound_ofList ts) hx
  obtain ⟨cause, hcause, rfl⟩ := Option.map_eq_some_iff.mp hfailure
  refine ⟨cause, rfl, by rw [hitems, owed_ofList hcause], ?_⟩
  rw [← acceptedPrefix_eq_take hcause, ← (reaches_ending ts).depth_eq, ← hrun]
  rfl

end DataMarkup.Pull
