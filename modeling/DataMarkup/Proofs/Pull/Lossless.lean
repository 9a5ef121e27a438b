import DataMarkup.Proofs.Nesting.Decoding
import DataMarkup.Proofs.Pull.Extent

/-! The markup keeps everything that was accepted. Two inputs with the same markup, whether they succeed
or fail, have the same accepted tokens, names and values included. -/

namespace DataMarkup

open Nesting

variable {us vs : List Data.Token}

theorem Run.tokens_eq_of_markup_start_eq (hu : (start.after us).hasEnded = false)
    (hv : (start.after vs).hasEnded = false) (h : start.markup us = start.markup vs) : us = vs := by
  by_cases hus : us = []
  · by_cases hvs : vs = []
    · rw [hus, hvs]
    · obtain ⟨ms, -, hms⟩ := exists_passage_of_going hv hvs
      rw [hus, hms] at h
      exact absurd h (List.cons_ne_nil _ _).symm
  · obtain ⟨as, hpassage, has⟩ := exists_passage_of_going hu hus
    by_cases hvs : vs = []
    · rw [hvs, has] at h
      exact absurd h (List.cons_ne_nil _ _)
    · obtain ⟨bs, hpassage', hbs⟩ := exists_passage_of_going hv hvs
      rw [has, hbs] at h
      obtain rfl := (List.cons.inj h).2
      exact hpassage.tokens_eq hpassage'

namespace Data

theorem acceptedPrefix_eq_of_body_eq {xs ys : List Token}
    (h : (Pull.ofList xs).exhaust.body = (Pull.ofList ys).exhaust.body) :
    acceptedPrefix xs = acceptedPrefix ys := by
  rw [Pull.body_exhaust_eq, Pull.body_exhaust_eq] at h
  exact Run.tokens_eq_of_markup_start_eq (going_acceptedPrefix xs) (going_acceptedPrefix ys) h

/-- Before their ends two pulls give the same markup exactly if they accept the same tokens. Inputs with
the same document are the same. -/
theorem body_eq_iff_acceptedPrefix_eq (xs ys : List Token) :
    ((Pull.ofList xs).exhaust.body = (Pull.ofList ys).exhaust.body ↔
      acceptedPrefix xs = acceptedPrefix ys) ∧
    ∀ ms, (Pull.ofList xs).exhaust.document = .ok ms →
      (Pull.ofList ys).exhaust.document = .ok ms → xs = ys := by
  refine ⟨⟨acceptedPrefix_eq_of_body_eq, ?_⟩, ?_⟩
  · intro h
    rw [Pull.body_exhaust_eq, Pull.body_exhaust_eq, h]
  · intro ms hx hy
    obtain ⟨hxnone, hxms⟩ := Pull.document_exhaust_eq_ok_iff.mp hx
    obtain ⟨hynone, hyms⟩ := Pull.document_exhaust_eq_ok_iff.mp hy
    have hbody : (Pull.ofList xs).exhaust.body = (Pull.ofList ys).exhaust.body := by
      rw [Pull.Harvest.body, Pull.Harvest.body, hxnone, hynone, hxms, hyms]
    rw [← acceptedPrefix_of_success hxnone, acceptedPrefix_eq_of_body_eq hbody,
      acceptedPrefix_of_success hynone]

end Data
end DataMarkup
