import DataMarkup.Proofs.Pull.Exhaustion
import DataMarkup.Proofs.Rendering.Outcome

/-! How far a pull gets in its input. It accepts a prefix, all of the input or what stands before the
token at fault, and apart from the end of the wrapper it gives the markup of that prefix. -/

namespace DataMarkup

open Run

variable {us ts : List Data.Token} {t : Data.Token} {fault : Fault}

namespace Pull

/-- What a pull gives before the end of the wrapper, or before its failure. -/
def Harvest.body (h : Harvest) : List Markup.Token :=
  match h.failure? with
  | some _ => h.markup.toList
  | none => h.markup.toList.dropLast

theorem failure?_exhaust_of_closed (h : (start.after ts).hasEnded = false)
    (hd : (start.after ts).depth = 0) : (ofList ts).exhaust.failure? = none := by
  rw [failure?_exhaust, failure?_render_of_closed h hd]
  rfl

theorem failure?_exhaust_of_unclosed (h : (start.after ts).hasEnded = false)
    (hd : (start.after ts).depth ≠ 0) :
    (ofList ts).exhaust.failure? = some (.malformed ⟨ts.length, .unclosedContainer⟩) := by
  rw [failure?_exhaust, render_of_unclosed h hd, ← accepted_after_start h]
  rfl

theorem failure?_exhaust_of_fault (h : (start.after us).hasEnded = false)
    (hf : (start.after us).nesting.fault? t = some fault) (vs : List Data.Token) :
    (ofList (us ++ t :: vs)).exhaust.failure? = some (.malformed ⟨us.length, fault⟩) := by
  rw [failure?_exhaust, render_of_fault h hf, ← accepted_after_start h]
  rfl

theorem failure?_exhaust_of_going (h : (start.after ts).hasEnded = false) :
    (ofList ts).exhaust.failure? = none ∨
      (ofList ts).exhaust.failure? = some (.malformed ⟨ts.length, .unclosedContainer⟩) := by
  by_cases hd : (start.after ts).depth = 0
  · exact .inl (failure?_exhaust_of_closed h hd)
  · exact .inr (failure?_exhaust_of_unclosed h hd)

theorem markup_exhaust_of_unclosed (h : (start.after ts).hasEnded = false)
    (hd : (start.after ts).depth ≠ 0) :
    (ofList ts).exhaust.markup.toList = start.markup ts := by
  rw [markup_exhaust, render_of_unclosed h hd]

theorem markup_exhaust_of_fault (h : (start.after us).hasEnded = false)
    (hf : (start.after us).nesting.fault? t = some fault) (vs : List Data.Token) :
    (ofList (us ++ t :: vs)).exhaust.markup.toList = start.markup us := by
  rw [markup_exhaust, render_of_fault h hf]

theorem body_exhaust (h : (start.after ts).hasEnded = false) :
    (ofList ts).exhaust.body = start.markup ts ∧
      ((ofList ts).exhaust.failure? = none ∨
        (ofList ts).exhaust.failure? = some (.malformed ⟨ts.length, .unclosedContainer⟩)) := by
  refine ⟨?_, failure?_exhaust_of_going h⟩
  by_cases hd : (start.after ts).depth = 0
  · rw [Harvest.body, failure?_exhaust_of_closed h hd, markup_exhaust, markup_render_of_closed h hd]
    by_cases hts : ts = []
    · simp [hts, Run.markup]
    · simp [hts]
  · rw [Harvest.body, failure?_exhaust_of_unclosed h hd, markup_exhaust_of_unclosed h hd]

theorem body_exhaust_of_fault (h : (start.after us).hasEnded = false)
    (hf : (start.after us).nesting.fault? t = some fault) (vs : List Data.Token) :
    (ofList (us ++ t :: vs)).exhaust.body = start.markup us := by
  rw [Harvest.body, failure?_exhaust_of_fault h hf, markup_exhaust_of_fault h hf]

theorem document_exhaust_eq_ok_iff {ms : List Markup.Token} :
    (ofList ts).exhaust.document = .ok ms ↔
      (ofList ts).exhaust.failure? = none ∧ (ofList ts).exhaust.markup.toList = ms := by
  unfold Harvest.document
  cases (ofList ts).exhaust.failure? <;> simp

theorem failure?_exhaust_eq_none_iff :
    (ofList ts).exhaust.failure? = none ↔
      (start.after ts).hasEnded = false ∧ (start.after ts).depth = 0 := by
  rw [failure?_exhaust, Option.map_eq_none_iff, failure?_render_eq_none_iff]

end Pull

namespace Data

/-- The tokens that a pull of the input accepts: those before the one at fault, or all. -/
def acceptedPrefix (ts : List Token) : List Token :=
  match (Pull.ofList ts).exhaust.failure? with
  | some (.malformed cause) => ts.take cause.index
  | _ => ts

theorem acceptedPrefix_of_going (h : (start.after ts).hasEnded = false) :
    acceptedPrefix ts = ts := by
  rw [acceptedPrefix]
  rcases Pull.failure?_exhaust_of_going h with hnone | hunclosed
  · rw [hnone]
  · rw [hunclosed]
    exact List.take_length

theorem acceptedPrefix_of_fault (h : (start.after us).hasEnded = false)
    (hf : (start.after us).nesting.fault? t = some fault) (vs : List Token) :
    acceptedPrefix (us ++ t :: vs) = us := by
  rw [acceptedPrefix, Pull.failure?_exhaust_of_fault h hf]
  exact List.take_left

theorem acceptedPrefix_of_success (h : (Pull.ofList ts).exhaust.failure? = none) :
    acceptedPrefix ts = ts :=
  acceptedPrefix_of_going (Pull.failure?_exhaust_eq_none_iff.mp h).1

theorem going_acceptedPrefix (ts : List Token) :
    (start.after (acceptedPrefix ts)).hasEnded = false := by
  rcases going_or_fault hasEnded_start ts with h | ⟨us, t, vs, fault, rfl, h, hf⟩
  · rwa [acceptedPrefix_of_going h]
  · rwa [acceptedPrefix_of_fault h hf]

theorem going_of_prefix (h : us <+: acceptedPrefix ts) : (start.after us).hasEnded = false := by
  obtain ⟨vs, hvs⟩ := h
  have hall := going_acceptedPrefix ts
  rw [← hvs] at hall
  exact going_of_append hall

theorem prefix_acceptedPrefix (h : (start.after us).hasEnded = false) (vs : List Token) :
    us <+: acceptedPrefix (us ++ vs) := by
  rcases going_or_fault hasEnded_start (us ++ vs) with hgo | ⟨ws, t, rest, fault, hsplit, hgo, hf⟩
  · rw [acceptedPrefix_of_going hgo]
    exact List.prefix_append us vs
  · rw [hsplit, acceptedPrefix_of_fault hgo hf]
    rcases List.append_eq_append_iff.mp hsplit with ⟨as, rfl, -⟩ | ⟨bs, rfl, hbs⟩
    · exact List.prefix_append us as
    · -- Else the token at fault would be one of `us`.
      cases bs with
      | nil => simp
      | cons b bs =>
        obtain ⟨rfl, -⟩ := List.cons.inj hbs
        rw [after_of_fault hgo hf, hasEnded_stop] at h
        exact absurd h Bool.noConfusion

end Data

namespace Pull

theorem body_exhaust_eq (ts : List Data.Token) :
    (ofList ts).exhaust.body = start.markup (Data.acceptedPrefix ts) := by
  rcases going_or_fault hasEnded_start ts with h | ⟨us, t, vs, fault, rfl, h, hf⟩
  · rw [Data.acceptedPrefix_of_going h, (body_exhaust h).1]
  · rw [Data.acceptedPrefix_of_fault h hf, body_exhaust_of_fault h hf]

theorem markup_exhaust_of_failure (h : (ofList ts).exhaust.failure? ≠ none) :
    (ofList ts).exhaust.markup.toList = start.markup (Data.acceptedPrefix ts) := by
  rw [← body_exhaust_eq]
  obtain ⟨failure, hfailure⟩ := Option.ne_none_iff_exists'.mp h
  rw [Harvest.body, hfailure]

theorem markup_exhaust_of_success (h : (ofList ts).exhaust.failure? = none) :
    (ofList ts).exhaust.markup.toList =
      start.markup ts ++ if ts = [] then [] else [.elementEnd] := by
  obtain ⟨hgo, hd⟩ := failure?_exhaust_eq_none_iff.mp h
  rw [markup_exhaust, markup_render_of_closed hgo hd]

theorem markup_start_prefix_exhaust (h : us <+: Data.acceptedPrefix ts) :
    start.markup us <+: (ofList ts).exhaust.markup.toList := by
  have hbody := start.markup_prefix_markup h
  by_cases hsuccess : (ofList ts).exhaust.failure? = none
  · rw [Data.acceptedPrefix_of_success hsuccess] at hbody
    rw [markup_exhaust_of_success hsuccess]
    exact hbody.trans (List.prefix_append _ _)
  · rwa [markup_exhaust_of_failure hsuccess]

end Pull
end DataMarkup
