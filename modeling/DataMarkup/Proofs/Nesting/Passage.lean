import DataMarkup.Proofs.Run.Course

/-! The way from one nesting to another over tokens that all have a place, with the markup they bring.
It is what a run does once its wrapper stands, without the counts and the journal. -/

namespace DataMarkup

namespace Nesting

variable {n m l : Nesting} {t : Data.Token} {us vs ts : List Data.Token}
  {as bs ms : List Markup.Token}

inductive Passage : Nesting → List Data.Token → List Markup.Token → Nesting → Prop
  | nil (n : Nesting) : Passage n [] [] n
  | cons {n m : Nesting} {t : Data.Token} {ts : List Data.Token} {ms : List Markup.Token}
    (hf : n.fault? t = none) (h : Passage (n.after t) ts ms m) :
    Passage n (t :: ts) (n.markup t ++ ms) m

theorem Passage.single (hf : n.fault? t = none) : Passage n [t] (n.markup t) (n.after t) := by
  have h := Passage.cons hf (.nil (n.after t))
  rwa [List.append_nil] at h

theorem Passage.append (hu : Passage n us as m) (hv : Passage m vs bs l) :
    Passage n (us ++ vs) (as ++ bs) l := by
  induction hu with
  | nil n => exact hv
  | cons hf h ih =>
    rw [List.cons_append, List.append_assoc]
    exact .cons hf (ih hv)

theorem Passage.keeps {P : Nesting → List Data.Token → Prop}
    (hstep : ∀ {n us t}, P n us → n.fault? t = none → P (n.after t) (us ++ [t])) (h : P n us)
    (hp : Passage n ts ms m) : P m (us ++ ts) := by
  induction hp generalizing us with
  | nil n => rwa [List.append_nil]
  | @cons n m t ts ms hf hp ih =>
    have hall := ih (hstep h hf)
    rwa [List.append_assoc] at hall

theorem passage_or_fault (n : Nesting) (ts : List Data.Token) :
    (∃ ms m, Passage n ts ms m) ∨
      ∃ us t vs fault ms m, ts = us ++ t :: vs ∧ Passage n us ms m ∧ m.fault? t = some fault := by
  induction ts generalizing n with
  | nil => exact .inl ⟨[], n, .nil n⟩
  | cons t ts ih =>
    cases hf : n.fault? t with
    | some fault => exact .inr ⟨[], t, ts, fault, [], n, rfl, .nil n, hf⟩
    | none =>
      rcases ih (n.after t) with ⟨ms, m, h⟩ | ⟨us, u, vs, fault, ms, m, rfl, h, hu⟩
      · exact .inl ⟨_, m, .cons hf h⟩
      · exact .inr ⟨t :: us, u, vs, fault, _, m, rfl, .cons hf h, hu⟩

def Ready (n : Nesting) : Prop := n.innermost? ≠ some (.object false)

theorem fault?_eq_none_iff_ready (ht : t.startsValue = true) : n.fault? t = none ↔ n.Ready := by
  have hif :
      (if n.innermost? = some (.object false) then some Fault.valueWithoutProperty else none) =
        none ↔ n.Ready := by simp [Ready]
  cases t with
  | opening kind title => exact hif
  | scalar value => exact hif
  | closing kind => exact absurd ht Bool.noConfusion
  | property name => exact absurd ht Bool.noConfusion

theorem fault?_closing_eq_none_iff {kind : Container} :
    n.fault? (.closing kind) = none ↔ n.innermost? = some kind.frame := by
  rcases h : n.innermost? with _ | _ | _ | _ <;> cases kind <;> simp [fault?, h, Container.frame]

theorem fault?_property_eq_none_iff {name : QualifiedName} :
    n.fault? (.property name) = none ↔ n.innermost? = some (.object false) := by
  rcases h : n.innermost? with _ | _ | _ | _ <;> simp [fault?, h]

theorem ready_empty : empty.Ready := by simp [Ready, innermost?, empty]

theorem ready_push_array (n : Nesting) : (n.push .array).Ready := by simp [Ready, innermost?, push]

theorem ready_push_pending (n : Nesting) : (n.push (.object true)).Ready := by
  simp [Ready, innermost?, push]

theorem update_push (n : Nesting) (f : Frame) (g : Frame → Frame) :
    (n.push f).update g = n.push (g f) := eq_of_frames_eq rfl

theorem update_empty (g : Frame → Frame) : empty.update g = empty := eq_of_frames_eq rfl

theorem itemBegin_push_array (n : Nesting) :
    (n.push .array).itemBegin = [Markup.Tag.li.start] := rfl

theorem itemBegin_push_object (n : Nesting) (pending : Bool) :
    (n.push (.object pending)).itemBegin = [] := rfl

theorem itemBegin_empty : empty.itemBegin = [] := rfl

theorem itemEnd_push (n : Nesting) (f : Frame) : (n.push f).itemEnd = [.elementEnd] := rfl

theorem itemEnd_empty : empty.itemEnd = [] := rfl

end Nesting

namespace Run

open Nesting

variable {run : Run} {n : Nesting} {t : Data.Token} {ts : List Data.Token}
  {ms : List Markup.Token}

theorem passage_of_going (h : (run.after ts).hasEnded = false) :
    ∃ ms, Passage run.nesting ts ms (run.after ts).nesting := by
  induction ts generalizing run with
  | nil => exact ⟨[], .nil run.nesting⟩
  | cons t ts ih =>
    obtain ⟨hr, hf⟩ := going_of_step (going_of_after h)
    obtain ⟨ms, hms⟩ := ih h
    rw [step_of_accepted hr hf] at hms
    refine ⟨run.nesting.markup t ++ ms, .cons hf ?_⟩
    rw [after, step_of_accepted hr hf]
    exact hms

theorem after_of_passage (h : Passage run.nesting ts ms n) (hw : run.phase = .writing) :
    run.markup ts = ms ∧ (run.after ts).nesting = n ∧ (run.after ts).phase = .writing := by
  generalize hn : run.nesting = k at h
  induction h generalizing run with
  | nil => exact ⟨rfl, hn, hw⟩
  | @cons k m t ts ms hf h ih =>
    subst hn
    have hstep := step_of_accepted (hasEnded_eq_false_iff.mpr (.inr hw)) hf
    have hrest : (run.accept t).markup ts = ms ∧ ((run.accept t).after ts).nesting = m ∧
        ((run.accept t).after ts).phase = .writing := ih rfl rfl
    obtain ⟨hmarkup, hnesting, hphase⟩ := hrest
    rw [markup, after, hstep, hmarkup, wrapper_of_writing hw]
    exact ⟨rfl, hnesting, hphase⟩

theorem after_start_of_passage (h : Passage .empty ts ms n) (hne : ts ≠ []) :
    start.markup ts = Markup.Tag.div.start :: ms ∧ (start.after ts).nesting = n ∧
      (start.after ts).phase = .writing := by
  cases h with
  | nil => exact absurd rfl hne
  | @cons _ _ t ts ms hf h =>
    have hstep : start.step t = (start.accept t, start.wrapper ++ empty.markup t) :=
      step_of_accepted rfl hf
    have hrest : Passage (start.accept t).nesting ts ms n := h
    obtain ⟨hmarkup, hnesting, hphase⟩ := after_of_passage hrest rfl
    rw [markup, after, hstep, hmarkup]
    exact ⟨rfl, hnesting, hphase⟩

theorem holds_of_going {P : Nesting → List Data.Token → Prop} (hempty : P .empty [])
    (hstep : ∀ {n us t}, P n us → n.fault? t = none → P (n.after t) (us ++ [t]))
    (h : (start.after ts).hasEnded = false) : P (start.after ts).nesting ts := by
  obtain ⟨ms, hp⟩ := passage_of_going h
  exact hp.keeps hstep hempty

theorem exists_passage_of_going (h : (start.after ts).hasEnded = false) (hne : ts ≠ []) :
    ∃ ms, Passage .empty ts ms (start.after ts).nesting ∧
      start.markup ts = Markup.Tag.div.start :: ms := by
  obtain ⟨ms, hp⟩ := passage_of_going h
  exact ⟨ms, hp, (after_start_of_passage hp hne).1⟩

theorem going_of_passage (h : Passage .empty ts ms n) :
    (start.after ts).hasEnded = false ∧ (start.after ts).nesting = n := by
  cases ts with
  | nil =>
    cases h with
    | nil => exact ⟨rfl, rfl⟩
  | cons t ts =>
    obtain ⟨-, hnesting, hphase⟩ := after_start_of_passage h (List.cons_ne_nil t ts)
    exact ⟨hasEnded_eq_false_iff.mpr (.inr hphase), hnesting⟩

end Run
end DataMarkup
