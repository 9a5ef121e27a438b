import DataMarkup.Proofs.Tree.Rendering
import DataMarkup.Proofs.Tree.Unambiguity

/-! The inputs that are accepted are the flat readings of forests. Before its end an accepted input is
the beginning of one: each open frame has its opening token and the values completed so far. -/

namespace DataMarkup.Data

open Nesting DataMarkup.Data.Tree

/-- The tokens begin a forest in which the frames, innermost first, are open. -/
inductive Begins : List Frame → List Token → Prop
  | forest (vs : List Tree) : Begins [] (flattenAll vs)
  | array {fs : List Frame} {ts : List Token} (h : Begins fs ts)
    (hready : fs.head? ≠ some (.object false)) (title : Option QualifiedName) (items : List Tree) :
    Begins (.array :: fs) (ts ++ .opening .array title :: flattenAll items)
  | object {fs : List Frame} {ts : List Token} (h : Begins fs ts)
    (hready : fs.head? ≠ some (.object false)) (title : Option QualifiedName)
    (entries : List (QualifiedName × Tree)) :
    Begins (.object false :: fs) (ts ++ .opening .object title :: flattenEntries entries)
  | pending {fs : List Frame} {ts : List Token} (h : Begins (.object false :: fs) ts)
    (key : QualifiedName) : Begins (.object true :: fs) (ts ++ [.property key])

variable {n : Nesting} {fs : List Frame} {t : Token} {ts : List Token}

namespace Begins

theorem value (h : Begins fs ts) (hready : fs.head? ≠ some (.object false)) (v : Tree) :
    Begins (fs.modifyHead Frame.settle) (ts ++ v.flatten) := by
  -- The value becomes the next one of the innermost frame, or of the forest.
  cases h with
  | forest vs =>
    have hone : flattenAll [v] = v.flatten := List.append_nil _
    rw [← hone, ← flattenAll_append]
    exact .forest (vs ++ [v])
  | array h hr title items =>
    have hone : flattenAll [v] = v.flatten := List.append_nil _
    rw [List.append_assoc, List.cons_append, ← hone, ← flattenAll_append]
    exact .array h hr title (items ++ [v])
  | object h hr title entries => exact absurd rfl hready
  | pending h key =>
    cases h with
    | object h hr title entries =>
      have hone : flattenEntries [(key, v)] = .property key :: v.flatten := List.append_nil _
      rw [List.append_assoc, List.append_assoc, List.cons_append, List.singleton_append, ← hone,
        ← flattenEntries_append]
      exact .object h hr title (entries ++ [(key, v)])

theorem step_opening (h : Begins fs ts) (hready : fs.head? ≠ some (.object false))
    (kind : Container) (title : Option QualifiedName) :
    Begins (kind.frame :: fs) (ts ++ [.opening kind title]) := by
  cases kind with
  | array => exact .array h hready title []
  | object => exact .object h hready title []

theorem step_closing {f : Frame} (h : Begins (f :: fs) ts) (hsettled : f = f.kind.frame) :
    Begins (fs.modifyHead Frame.settle) (ts ++ [.closing f.kind]) := by
  cases h with
  | array h hready title items =>
    have hv := h.value hready (.array title items)
    rwa [flatten, List.cons_append, ← List.cons_append, ← List.append_assoc] at hv
  | object h hready title entries =>
    have hv := h.value hready (.object title entries)
    rwa [flatten, List.cons_append, ← List.cons_append, ← List.append_assoc] at hv
  | pending h key => exact absurd hsettled (by decide)

theorem step (h : Begins n.frames ts) (hf : n.fault? t = none) :
    Begins (n.after t).frames (ts ++ [t]) := by
  cases t with
  | opening kind title => exact h.step_opening ((fault?_eq_none_iff_ready rfl).mp hf) kind title
  | scalar value => exact h.value ((fault?_eq_none_iff_ready rfl).mp hf) (.leaf value)
  | closing kind =>
    have htop : n.frames.head? = some kind.frame := fault?_closing_eq_none_iff.mp hf
    obtain ⟨fs, hfs⟩ := List.head?_eq_some_iff.mp htop
    rw [hfs] at h
    have hclosed := h.step_closing (by rw [Container.kind_frame])
    rw [Container.kind_frame] at hclosed
    show Begins (n.frames.tail.modifyHead Frame.settle) _
    rwa [hfs]
  | property name =>
    have htop : n.frames.head? = some (.object false) := fault?_property_eq_none_iff.mp hf
    obtain ⟨fs, hfs⟩ := List.head?_eq_some_iff.mp htop
    rw [hfs] at h
    show Begins (n.frames.modifyHead Frame.await) _
    rw [hfs]
    exact h.pending name

end Begins

theorem begins_of_going (h : (Run.start.after ts).hasEnded = false) :
    Begins (Run.start.after ts).nesting.frames ts := by
  have hempty : Begins Nesting.empty.frames [] := .forest []
  exact Run.holds_of_going (P := fun n ts => Begins n.frames ts) hempty Begins.step h

theorem exists_forest_of_success (h : (render ts).failure? = none) :
    ∃ f, flattenAll f = ts := by
  obtain ⟨hgo, hd⟩ := failure?_render_eq_none_iff.mp h
  have hbegins := begins_of_going hgo
  have hnil : (Run.start.after ts).nesting.frames = [] := by
    rw [Run.depth, Nesting.depth_eq] at hd
    exact List.eq_nil_of_length_eq_zero hd
  rw [hnil] at hbegins
  cases hbegins with
  | forest vs => exact ⟨vs, rfl⟩

/-- Pulled or rendered at once, the inputs with a document are those that some forest reads as, and
then only one does. -/
theorem document_iff_forest (ts : List Token) :
    (Pull.ofList ts).exhaust.document = (render ts).document ∧
      ((∃ ms, (render ts).document = .ok ms) ↔ ∃ f, flattenAll f = ts) ∧
        ∀ f g, flattenAll f = ts → flattenAll g = ts → f = g := by
  refine ⟨Pull.document_exhaust ts, ⟨?_, ?_⟩, ?_⟩
  · rintro ⟨ms, hms⟩
    exact exists_forest_of_success (Rendering.document_eq_ok_iff.mp hms).1
  · rintro ⟨f, rfl⟩
    exact ⟨document f, document_render_flattenAll f⟩
  · intro f g hf hg
    exact flattenAll_inj (hf.trans hg.symm)

end DataMarkup.Data
