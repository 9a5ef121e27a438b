import DataMarkup.Proofs.Pull.Laziness
import DataMarkup.Proofs.Pull.Viability

/-! What a pull has given stands, however the input goes on. Behind a token at fault nothing is looked at;
before one, a longer input brings more markup but no other, and some longer input is accepted. -/

namespace DataMarkup

open Run

variable {xs : List Data.Token} {cause : Malformed}

namespace Data

theorem acceptedPrefix_prefix_append (xs ys : List Token) :
    acceptedPrefix xs <+: acceptedPrefix (xs ++ ys) := by
  rcases going_or_fault hasEnded_start xs with h | ⟨us, t, vs, fault, rfl, h, hf⟩
  · rw [acceptedPrefix_of_going h]
    exact prefix_acceptedPrefix h ys
  · rw [List.append_assoc, List.cons_append, acceptedPrefix_of_fault h hf,
      acceptedPrefix_of_fault h hf]

end Data

namespace Pull

theorem body_prefix_markup_append (xs ys : List Data.Token) :
    (ofList xs).exhaust.body <+: (ofList (xs ++ ys)).exhaust.markup.toList := by
  rw [body_exhaust_eq]
  exact markup_start_prefix_exhaust (Data.acceptedPrefix_prefix_append xs ys)

theorem items_append_of_failure (hfailure : (ofList xs).exhaust.failure? = some (.malformed cause))
    (hi : cause.index < xs.length) (ys : List Data.Token) :
    (ofList (xs ++ ys)).items = (ofList xs).items ∧
      (ofList (xs ++ ys)).exhaust.failure? = (ofList xs).exhaust.failure? := by
  rcases going_or_fault hasEnded_start xs with h | ⟨us, t, vs, fault, rfl, h, hf⟩
  · -- All tokens have a place, so the failure would be at the end of the input.
    rcases failure?_exhaust_of_going h with hnone | hunclosed
    · rw [hnone] at hfailure
      cases hfailure
    · rw [hunclosed] at hfailure
      cases hfailure
      exact absurd hi (Nat.lt_irrefl _)
  · have hsplit : us ++ t :: vs ++ ys = us ++ t :: (vs ++ ys) := List.append_assoc _ _ _
    have hmarkup : (ofList (us ++ t :: vs ++ ys)).exhaust.markup.toList =
        (ofList (us ++ t :: vs)).exhaust.markup.toList := by
      rw [hsplit, markup_exhaust_of_fault h hf, markup_exhaust_of_fault h hf]
    have hsame : (ofList (us ++ t :: vs ++ ys)).exhaust.failure? =
        (ofList (us ++ t :: vs)).exhaust.failure? := by
      rw [hsplit, failure?_exhaust_of_fault h hf, failure?_exhaust_of_fault h hf]
    exact ⟨items_ofList_congr hmarkup hsame, hsame⟩

theorem exists_document_of_markup (xs : List Data.Token) :
    ∃ zs ms, Data.acceptedPrefix xs <+: zs ∧ (ofList zs).exhaust.document = .ok ms ∧
      (ofList xs).exhaust.markup.toList <+: ms := by
  by_cases hsuccess : (ofList xs).exhaust.failure? = none
  · refine ⟨xs, _, ?_, document_exhaust_eq_ok_iff.mpr ⟨hsuccess, rfl⟩, List.prefix_rfl⟩
    rw [Data.acceptedPrefix_of_success hsuccess]
  · have hgo := Data.going_acceptedPrefix xs
    obtain ⟨ms, hms⟩ := Data.accepted_append_completion hgo
    have hbefore := Data.prefix_acceptedPrefix hgo (Data.completion (Data.acceptedPrefix xs))
    have hmarkup := markup_start_prefix_exhaust hbefore
    rw [(document_exhaust_eq_ok_iff.mp hms).2, ← markup_exhaust_of_failure hsuccess] at hmarkup
    exact ⟨_, ms, List.prefix_append _ _, hms, hmarkup⟩

/-- An input that fails at one of its tokens fails so, item for item, however it goes on. What any input
gives before the end of the wrapper, or before its failure, is what every longer input begins with; and all
that it gives is the beginning of a document. -/
theorem body_prefix_exhaust_append (xs ys : List Data.Token) :
    let pulled := (ofList xs).exhaust
    let longer := (ofList (xs ++ ys)).exhaust
    (∀ cause, pulled.failure? = some (.malformed cause) → cause.index < xs.length →
      (ofList (xs ++ ys)).items = (ofList xs).items ∧ longer.failure? = pulled.failure?) ∧
    pulled.body <+: longer.markup.toList ∧
    ∃ zs ms, Data.acceptedPrefix xs <+: zs ∧ (ofList zs).exhaust.document = .ok ms ∧
      pulled.markup.toList <+: ms := by
  intro pulled longer
  refine ⟨?_, body_prefix_markup_append xs ys, exists_document_of_markup xs⟩
  intro cause hfailure hi
  exact items_append_of_failure hfailure hi ys

theorem body_prefix_exhaust_append_unmatched :
    let xs : List Data.Token := [.opening .array none, .closing .object]
    let ys : List Data.Token := [.closing .array]
    (ofList xs).exhaust.failure? = some (.malformed ⟨1, .unmatchedEnd .object⟩) ∧ 1 < xs.length ∧
      (ofList (xs ++ ys)).exhaust.failure? = some (.malformed ⟨1, .unmatchedEnd .object⟩) := by
  intro xs ys
  have hgo : (start.after [.opening .array none]).hasEnded = false := rfl
  have hfailure : (ofList xs).exhaust.failure? = some (.malformed ⟨1, .unmatchedEnd .object⟩) :=
    failure?_exhaust_of_fault hgo rfl []
  have hi : 1 < xs.length := by decide
  obtain ⟨-, hsame⟩ := (body_prefix_exhaust_append xs ys).1 _ hfailure hi
  exact ⟨hfailure, hi, hsame.trans hfailure⟩

end Pull
end DataMarkup
