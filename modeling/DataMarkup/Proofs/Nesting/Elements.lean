import DataMarkup.Markup.OpenElements
import DataMarkup.Proofs.Nesting.Summary

/-! The open elements mirror the frames. Inside the wrapper each container has its own element and
stands in the one that its container gives it; a property leaves the element of its value open. -/

namespace DataMarkup

namespace Markup

variable {stack final : List QualifiedName} {ms : List Token}

def elementsWithin : List Container → List QualifiedName
  | [] => []
  | [kind] => [elementOf kind]
  | kind :: outer :: rest =>
    elementOf kind :: elementAround outer :: elementsWithin (outer :: rest)

def elementsAround : List Container → List QualifiedName
  | [] => []
  | outer :: rest => elementAround outer :: elementsWithin (outer :: rest)

theorem elementsWithin_cons (kind : Container) (rest : List Container) :
    elementsWithin (kind :: rest) = elementOf kind :: elementsAround rest := by
  cases rest <;> rfl

theorem elementsOf_eq (kinds : List Container) :
    elementsOf kinds = elementsWithin kinds ++ [⟨"div", "", ""⟩] := by
  fun_induction elementsWithin kinds with
  | case1 => rfl
  | case2 kind => rfl
  | case3 kind outer rest ih => simp only [elementsOf, ih, List.cons_append]

theorem start_tag (kind : Container) : kind.tag.start = .elementBegin (elementOf kind) := by
  cases kind <;> rfl

theorem openElements_title (stack : List QualifiedName) (name : Option QualifiedName) :
    openElements stack (title name) = some stack := by
  cases name <;> rfl

theorem openElements_append_base (h : openElements stack ms = some final)
    (base : List QualifiedName) : openElements (stack ++ base) ms = some (final ++ base) := by
  induction ms generalizing stack with
  | nil => rw [openElements, Option.some.inj h]
  | cons m ms ih =>
    cases m with
    | elementEnd =>
      cases stack with
      | nil => exact absurd h (Option.some_ne_none _).symm
      | cons name stack => exact ih h
    | elementBegin name => exact ih h
    | attr name => exact ih h
    | text value name => exact ih h

theorem exists_openElements_take (h : openElements stack ms = some final) (k : Nat) :
    ∃ s, openElements stack (ms.take k) = some s := by
  rw [← List.take_append_drop k ms, openElements_append, Option.bind_eq_some_iff] at h
  obtain ⟨s, hs, -⟩ := h
  exact ⟨s, hs⟩

end Markup

namespace Nesting

open Markup

variable {n m : Nesting} {t : Data.Token} {ts : List Data.Token} {ms : List Markup.Token}

def elements (n : Nesting) : List QualifiedName :=
  (if n.awaits then [⟨"dd", "", ""⟩] else []) ++ elementsWithin n.kinds

theorem elements_of_not_awaits (h : n.awaits = false) : n.elements = elementsWithin n.kinds := by
  simp [elements, h]

theorem elements_settle (n : Nesting) :
    (n.update Frame.settle).elements = elementsWithin n.kinds := by
  rw [elements_of_not_awaits n.awaits_settle, kinds_settle]

theorem openElements_itemBegin (h : n.Ready) :
    openElements n.elements n.itemBegin = some (elementsAround n.kinds) := by
  obtain ⟨_ | ⟨_ | _ | _, fs⟩, d, hd⟩ := n
  · rfl
  · rfl
  · exact absurd rfl h
  · rfl

theorem openElements_itemEnd (n : Nesting) :
    openElements (elementsAround n.kinds) n.itemEnd = some (n.update Frame.settle).elements := by
  rw [elements_settle]
  obtain ⟨_ | ⟨f, fs⟩, d, hd⟩ := n
  · rfl
  · rfl

theorem openElements_markup (hf : n.fault? t = none) :
    openElements n.elements (n.markup t) = some (n.after t).elements := by
  cases t with
  | opening kind title =>
    have hbegin := openElements_itemBegin ((fault?_eq_none_iff_ready rfl).mp hf)
    have hafter : (n.push kind.frame).elements = elementsWithin (kind :: n.kinds) := by
      rw [elements_of_not_awaits (n.awaits_push_frame kind), kinds_push, Container.kind_frame]
    rw [markup, openElements_append, hbegin, after, hafter, elementsWithin_cons, start_tag]
    exact openElements_title _ title
  | closing kind =>
    have htop := fault?_closing_eq_none_iff.mp hf
    have hn : n.elements = elementOf kind :: elementsAround n.pop.kinds := by
      rw [elements_of_not_awaits (awaits_of_innermost? htop), kinds_of_innermost? htop,
        Container.kind_frame, elementsWithin_cons]
    rw [markup, after, hn]
    exact n.pop.openElements_itemEnd
  | property name =>
    have htop := fault?_property_eq_none_iff.mp hf
    have hframe : n.innermost? = some Container.object.frame := htop
    have hafter : (n.update Frame.await).elements = ⟨"dd", "", ""⟩ :: n.elements := by
      rw [elements, awaits_await htop, kinds_await,
        elements_of_not_awaits (awaits_of_innermost? hframe)]
      rfl
    rw [after, hafter]
    rfl
  | scalar value =>
    have hbegin := openElements_itemBegin ((fault?_eq_none_iff_ready rfl).mp hf)
    rw [markup, openElements_append, hbegin, after]
    exact n.openElements_itemEnd

theorem Passage.openElements_eq (h : Passage n ts ms m) :
    openElements n.elements ms = some m.elements := by
  induction h with
  | nil n => rfl
  | cons hf h ih => rw [openElements_append, openElements_markup hf, Option.bind_some, ih]

end Nesting
end DataMarkup
