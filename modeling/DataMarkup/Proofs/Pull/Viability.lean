import DataMarkup.Proofs.Nesting.Summary
import DataMarkup.Proofs.Pull.Extent

/-! A pull fails at the first token after which no continuation is left, and at the end of the input
only for want of one. While a run goes on, what it has read can be completed: a property that waits
gets a value, and what is open is closed, innermost first. -/

namespace DataMarkup

namespace Nesting

variable {n : Nesting}

theorem update_settle_of_not_awaits (h : n.awaits = false) : n.update Frame.settle = n := by
  apply eq_of_frames_eq
  rw [frames_update]
  rcases hfs : n.frames with _ | ⟨_ | _ | _, fs⟩
  · rfl
  · rfl
  · rfl
  · simp [awaits, innermost?, hfs] at h

theorem passage_value (n : Nesting) :
    ∃ ms, Passage n (if n.awaits then [.scalar .null] else []) ms (n.update Frame.settle) := by
  cases h : n.awaits with
  | false =>
    rw [update_settle_of_not_awaits h]
    exact ⟨[], .nil n⟩
  | true =>
    have htop : n.innermost? = some (.object true) := of_decide_eq_true h
    have hready : n.Ready := by simp [Ready, htop]
    exact ⟨_, .single ((fault?_eq_none_iff_ready rfl).mpr hready)⟩

theorem passage_closings {kinds : List Container} (h : n.kinds = kinds) :
    ∃ ms, Passage (n.update Frame.settle) (kinds.map .closing) ms empty := by
  induction kinds generalizing n with
  | nil =>
    have hempty : n.update Frame.settle = empty := by
      apply eq_of_frames_eq
      rw [frames_update, List.map_eq_nil_iff.mp h]
      rfl
    rw [hempty]
    exact ⟨[], .nil empty⟩
  | cons kind kinds ih =>
    obtain ⟨f, fs, hfs, hkind, -⟩ := List.map_eq_cons_iff.mp h
    have htop : (n.update Frame.settle).innermost? = some kind.frame := by
      rw [innermost?_update, innermost?, hfs, ← hkind, ← f.settle_eq_frame_kind]
      rfl
    have hpop : (n.update Frame.settle).pop = n.pop := by
      apply eq_of_frames_eq
      rw [frames_pop, frames_pop, frames_update, hfs]
      rfl
    have hkinds : n.pop.kinds = kinds := by rw [kinds_pop, h, List.tail_cons]
    obtain ⟨ms, hrest⟩ := ih hkinds
    rw [← hpop] at hrest
    exact ⟨_, .cons (fault?_closing_eq_none_iff.mpr htop) hrest⟩

end Nesting

namespace Data

open Run Nesting

variable {us ts : List Token}

def Accepted (ts : List Token) : Prop := ∃ ms, (Pull.ofList ts).exhaust.document = .ok ms

def Viable (ts : List Token) : Prop := ∃ us, Accepted (ts ++ us)

/-- A value if a property waits for one, and the ends that are missing. -/
def completion (ts : List Token) : List Token :=
  (if pending ts then [.scalar .null] else []) ++ (unclosed ts).map .closing

theorem accepted_iff_failure? : Accepted ts ↔ (Pull.ofList ts).exhaust.failure? = none := by
  simp [Accepted, Pull.document_exhaust_eq_ok_iff]

theorem accepted_iff :
    Accepted ts ↔ (start.after ts).hasEnded = false ∧ (start.after ts).depth = 0 := by
  rw [accepted_iff_failure?, Pull.failure?_exhaust_eq_none_iff]

theorem accepted_append_completion (h : (start.after ts).hasEnded = false) :
    Accepted (ts ++ completion ts) := by
  have hsummary := summarizes_of_going h
  obtain ⟨ms, hbefore⟩ := passage_of_going h
  obtain ⟨as, hvalue⟩ := passage_value (start.after ts).nesting
  obtain ⟨bs, hclosings⟩ := passage_closings (n := (start.after ts).nesting) rfl
  have hall := hbefore.append (hvalue.append hclosings)
  rw [← hsummary.pending_eq, ← hsummary.unclosed_eq] at hall
  obtain ⟨hgo, hnesting⟩ := going_of_passage hall
  exact accepted_iff.mpr ⟨hgo, congrArg Nesting.depth hnesting⟩

theorem viable_iff : Viable ts ↔ (start.after ts).hasEnded = false := by
  constructor
  · rintro ⟨us, h⟩
    exact going_of_append (accepted_iff.mp h).1
  · intro h
    exact ⟨completion ts, accepted_append_completion h⟩

theorem viable_take_of_failure {i : Nat} {fault : Fault} (hi : i < ts.length)
    (hfailure : (Pull.ofList ts).exhaust.failure? = some (.malformed ⟨i, fault⟩)) :
    Viable (ts.take i) ∧ ¬ Viable (ts.take (i + 1)) := by
  rw [viable_iff, viable_iff, Bool.not_eq_false]
  rcases going_or_fault hasEnded_start ts with h | ⟨us, t, vs, found, rfl, h, hf⟩
  · rcases Pull.failure?_exhaust_of_going h with hnone | hunclosed
    · rw [hnone] at hfailure
      cases hfailure
    · rw [hunclosed] at hfailure
      cases hfailure
      exact absurd hi (Nat.lt_irrefl _)
  · rw [Pull.failure?_exhaust_of_fault h hf] at hfailure
    cases hfailure
    have htake : (us ++ t :: vs).take (us.length + 1) = us ++ [t] := by
      rw [List.take_length_add_append, List.take_succ_cons, List.take_zero]
    rw [List.take_left, htake]
    exact ⟨h, (hasEnded_after_concat_iff h).mpr ⟨fault, hf⟩⟩

theorem failure_of_viable_take {i : Nat} (hbefore : Viable (ts.take i))
    (hafter : ¬ Viable (ts.take (i + 1))) :
    i < ts.length ∧
      ∃ fault, (Pull.ofList ts).exhaust.failure? = some (.malformed ⟨i, fault⟩) := by
  have hi : i < ts.length := by
    by_contra hle
    rw [List.take_of_length_le (by omega)] at hbefore hafter
    exact hafter hbefore
  rw [viable_iff] at hbefore
  rw [viable_iff, Bool.not_eq_false, List.take_succ_eq_append_getElem hi,
    hasEnded_after_concat_iff hbefore] at hafter
  obtain ⟨fault, hf⟩ := hafter
  have hfailure := Pull.failure?_exhaust_of_fault hbefore hf (ts.drop (i + 1))
  rw [List.getElem_cons_drop, List.take_append_drop,
    List.length_take_of_le (Nat.le_of_lt hi)] at hfailure
  exact ⟨hi, fault, hfailure⟩

theorem failure?_exhaust_eq_unclosed_iff :
    (Pull.ofList ts).exhaust.failure? = some (.malformed ⟨ts.length, .unclosedContainer⟩) ↔
      Viable ts ∧ ¬ Accepted ts := by
  rw [viable_iff, accepted_iff_failure?]
  constructor
  · intro hfailure
    constructor
    · rcases going_or_fault hasEnded_start ts with h | ⟨us, t, vs, found, rfl, h, hf⟩
      · exact h
      · rw [Pull.failure?_exhaust_of_fault h hf] at hfailure
        simp at hfailure
    · intro hnone
      rw [hnone] at hfailure
      cases hfailure
  · rintro ⟨h, hfails⟩
    exact (Pull.failure?_exhaust_of_going h).resolve_left hfails

/-- A pull fails at a token exactly if that token is the first that leaves nothing to continue with, and
at the end of the input exactly if only a continuation is missing. It fails in no other way. -/
theorem failure?_exhaust_iff_viable (ts : List Token) :
    let failure? := (Pull.ofList ts).exhaust.failure?
    (∀ i, (i < ts.length ∧ ∃ fault, failure? = some (.malformed ⟨i, fault⟩)) ↔
      Viable (ts.take i) ∧ ¬ Viable (ts.take (i + 1))) ∧
    (failure? = some (.malformed ⟨ts.length, .unclosedContainer⟩) ↔ Viable ts ∧ ¬ Accepted ts) ∧
    (failure? = none ↔ Accepted ts) ∧
    (failure? = none ∨
      (∃ i fault, i < ts.length ∧ failure? = some (.malformed ⟨i, fault⟩)) ∨
      failure? = some (.malformed ⟨ts.length, .unclosedContainer⟩)) := by
  intro failure?
  refine ⟨fun i => ⟨?_, ?_⟩, failure?_exhaust_eq_unclosed_iff, accepted_iff_failure?.symm, ?_⟩
  · rintro ⟨hi, fault, hfailure⟩
    exact viable_take_of_failure hi hfailure
  · rintro ⟨hbefore, hafter⟩
    exact failure_of_viable_take hbefore hafter
  · rcases going_or_fault hasEnded_start ts with h | ⟨us, t, vs, fault, rfl, h, hf⟩
    · rcases Pull.failure?_exhaust_of_going h with hnone | hunclosed
      · exact .inl hnone
      · exact .inr (.inr hunclosed)
    · refine .inr (.inl ⟨us.length, fault, ?_, Pull.failure?_exhaust_of_fault h hf vs⟩)
      rw [List.length_append, List.length_cons]
      omega

end Data
end DataMarkup
