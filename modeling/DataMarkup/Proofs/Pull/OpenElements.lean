import DataMarkup.Proofs.Nesting.Elements
import DataMarkup.Proofs.Pull.Extent

/-! Read with a stack, what a pull gives never ends an element that is not open. The wrapper stays open
until the end of a success, and after each accepted token the open elements are those that the open
containers call for. -/

namespace DataMarkup.Data

open Run Nesting Markup

variable {us ts : List Token}

theorem exists_markup_start_eq_cons (h : (start.after ts).hasEnded = false) (hne : ts ≠ []) :
    ∃ ms, start.markup ts = Tag.div.start :: ms ∧
      openElements [] ms = some (start.after ts).nesting.elements := by
  obtain ⟨ms, hpassage, hms⟩ := exists_passage_of_going h hne
  exact ⟨ms, hms, hpassage.openElements_eq⟩

theorem openElements_markup_start (h : (start.after ts).hasEnded = false) (hne : ts ≠ []) :
    openElements [] (start.markup ts) =
      some ((if pending ts then [⟨"dd", "", ""⟩] else []) ++ elementsOf (unclosed ts)) := by
  obtain ⟨ms, hms, hinside⟩ := exists_markup_start_eq_cons h hne
  have hsummary := summarizes_of_going h
  have hwrapped := openElements_append_base hinside [⟨"div", "", ""⟩]
  rw [elements, ← hsummary.pending_eq, ← hsummary.unclosed_eq, List.append_assoc,
    ← elementsOf_eq] at hwrapped
  rw [hms]
  exact hwrapped

theorem openElements_take_markup_start (h : (start.after ts).hasEnded = false) (k : Nat) :
    ∃ stack, openElements [] ((start.markup ts).take k) = some stack ∧
      (stack = [] ↔ (start.markup ts).take k = []) := by
  by_cases hne : ts = []
  · subst hne
    exact ⟨[], by rw [Run.markup, List.take_nil, openElements], by simp [Run.markup]⟩
  · obtain ⟨ms, hms, hinside⟩ := exists_markup_start_eq_cons h hne
    rw [hms]
    cases k with
    | zero => exact ⟨[], rfl, iff_of_true rfl rfl⟩
    | succ k =>
      obtain ⟨s, hs⟩ := exists_openElements_take hinside k
      refine ⟨s ++ [⟨"div", "", ""⟩], openElements_append_base hs _, ?_⟩
      rw [List.take_succ_cons]
      simp

theorem openElements_document_of_closed (h : (start.after ts).hasEnded = false)
    (hd : (start.after ts).depth = 0) (hne : ts ≠ []) :
    openElements [] (start.markup ts ++ [.elementEnd]) = some [] := by
  have hsummary := summarizes_of_going h
  rw [eq_empty_of_depth_eq_zero hd] at hsummary
  rw [openElements_append, openElements_markup_start h hne, hsummary.pending_eq,
    hsummary.unclosed_eq]
  rfl

theorem openElements_take_exhaust (ts : List Token) (k : Nat) :
    ∃ stack, openElements [] ((Pull.ofList ts).exhaust.markup.toList.take k) = some stack ∧
      (stack = [] ↔ (Pull.ofList ts).exhaust.markup.toList.take k = [] ∨
        (Pull.ofList ts).exhaust.failure? = none ∧
          (Pull.ofList ts).exhaust.markup.toList.length ≤ k) := by
  by_cases hsuccess : (Pull.ofList ts).exhaust.failure? = none
  · obtain ⟨hgo, hd⟩ := Pull.failure?_exhaust_eq_none_iff.mp hsuccess
    rw [Pull.markup_exhaust_of_success hsuccess]
    by_cases hne : ts = []
    · subst hne
      exact ⟨[], by simp [Run.markup, openElements], by simp [Run.markup]⟩
    · rw [if_neg hne]
      have hlength : (start.markup ts ++ [Markup.Token.elementEnd]).length =
          (start.markup ts).length + 1 := List.length_append
      by_cases hk : k ≤ (start.markup ts).length
      · obtain ⟨stack, hstack, hempty⟩ := openElements_take_markup_start hgo k
        rw [List.take_append_of_le_length hk]
        refine ⟨stack, hstack, hempty.trans (or_iff_left ?_).symm⟩
        rintro ⟨-, hall⟩
        omega
      · have hall : (start.markup ts ++ [Markup.Token.elementEnd]).length ≤ k := by omega
        rw [List.take_of_length_le hall]
        exact ⟨[], openElements_document_of_closed hgo hd hne,
          iff_of_true rfl (.inr ⟨hsuccess, hall⟩)⟩
  · rw [Pull.markup_exhaust_of_failure hsuccess]
    obtain ⟨stack, hstack, hempty⟩ :=
      openElements_take_markup_start (going_acceptedPrefix ts) k
    refine ⟨stack, hstack, hempty.trans (or_iff_left ?_).symm⟩
    rintro ⟨hnone, -⟩
    exact hsuccess hnone

/-- No end of an element meets an empty stack. The stack is empty before the first token and after the
last one of a success, at no other time. When the markup of some accepted tokens has been read, it is
what their open containers call for, with one description more after a property. -/
theorem openElements_exhaust (ts : List Token) :
    let pulled := (Pull.ofList ts).exhaust
    let out := pulled.markup.toList
    (∀ k, ∃ stack, openElements [] (out.take k) = some stack ∧
      (stack = [] ↔ out.take k = [] ∨ pulled.failure? = none ∧ out.length ≤ k)) ∧
    ∀ us, us <+: acceptedPrefix ts → us ≠ [] →
      start.markup us <+: out ∧
        openElements [] (start.markup us) =
          some ((if pending us then [⟨"dd", "", ""⟩] else []) ++
            elementsOf (unclosed us)) := by
  intro pulled out
  refine ⟨openElements_take_exhaust ts, ?_⟩
  intro us hbefore hne
  have hgo : (start.after us).hasEnded = false := by
    obtain ⟨vs, hvs⟩ := hbefore
    have hall := going_acceptedPrefix ts
    rw [← hvs] at hall
    exact going_of_append hall
  exact ⟨Pull.markup_start_prefix_exhaust hbefore, openElements_markup_start hgo hne⟩

theorem openElements_exhaust_nested :
    let us : List Token := [.opening .array none, .opening .object none, .property (.ofLocal "a")]
    us <+: acceptedPrefix (us ++ [.closing .array]) ∧ us ≠ [] ∧
      openElements [] (start.markup us) =
        some [⟨"dd", "", ""⟩, ⟨"dl", "", ""⟩, ⟨"li", "", ""⟩, ⟨"ol", "", ""⟩, ⟨"div", "", ""⟩] := by
  intro us
  have hgo : (start.after us).hasEnded = false := rfl
  have hall : acceptedPrefix (us ++ [.closing .array]) = us := acceptedPrefix_of_fault hgo rfl []
  have hbefore : us <+: acceptedPrefix (us ++ [.closing .array]) :=
    ⟨[], by rw [hall, List.append_nil]⟩
  have hne : us ≠ [] := List.cons_ne_nil _ _
  have hopen := (openElements_exhaust (us ++ [.closing .array])).2 us hbefore hne
  exact ⟨hbefore, hne, hopen.2⟩

end DataMarkup.Data
