import DataMarkup.Proofs.Run.Course

/-! The three ways in which the rendering of an input can turn out: at a token without a place, with
containers open at its end, or well. -/

namespace DataMarkup

open Run

variable {us vs ts : List Data.Token} {t : Data.Token} {fault : Fault}

theorem render_eq (ts : List Data.Token) :
    render ts = ⟨start.markup ts ++ (start.after ts).finish.2, (start.after ts).finish.1⟩ := by
  rw [← markup_render, ← run_render]

theorem render_of_fault (h : (start.after us).hasEnded = false)
    (hf : (start.after us).nesting.fault? t = some fault) (vs : List Data.Token) :
    render (us ++ t :: vs) = ⟨start.markup us, (start.after us).stop fault⟩ := by
  rw [render_eq, markup_of_fault h hf, after_of_fault h hf, finish_of_hasEnded (hasEnded_stop _ _),
    List.append_nil]

theorem render_of_unclosed (h : (start.after ts).hasEnded = false)
    (hd : (start.after ts).depth ≠ 0) :
    render ts = ⟨start.markup ts, (start.after ts).stop .unclosedContainer⟩ := by
  rw [render_eq, finish_of_unclosed h hd, List.append_nil]

theorem markup_render_of_closed (h : (start.after ts).hasEnded = false)
    (hd : (start.after ts).depth = 0) :
    (render ts).markup = start.markup ts ++ if ts = [] then [] else [.elementEnd] := by
  rw [markup_render, markup_finish_after_start h hd]

theorem failure?_render_of_closed (h : (start.after ts).hasEnded = false)
    (hd : (start.after ts).depth = 0) : (render ts).failure? = none := by
  rw [Rendering.failure?, run_render, failure?_finish_of_closed h hd]

theorem failure?_render_eq_none_iff :
    (render ts).failure? = none ↔
      (start.after ts).hasEnded = false ∧ (start.after ts).depth = 0 := by
  constructor
  · intro hsuccess
    rcases going_or_fault hasEnded_start ts with h | ⟨us, t, vs, fault, rfl, h, hf⟩
    · by_cases hd : (start.after ts).depth = 0
      · exact ⟨h, hd⟩
      · rw [render_of_unclosed h hd] at hsuccess
        exact absurd hsuccess (Option.some_ne_none _)
    · rw [render_of_fault h hf] at hsuccess
      exact absurd hsuccess (Option.some_ne_none _)
  · rintro ⟨h, hd⟩
    exact failure?_render_of_closed h hd

namespace Rendering

theorem document_eq_ok_iff {r : Rendering} {ms : List Markup.Token} :
    r.document = .ok ms ↔ r.failure? = none ∧ r.markup = ms := by
  unfold document
  split
  · rename_i cause hcause
    simp [hcause]
  · rename_i hsuccess
    simp [hsuccess]

end Rendering
end DataMarkup
