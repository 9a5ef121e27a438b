import DataMarkup.Data.Tree
import DataMarkup.Proofs.Nesting.Passage
import DataMarkup.Proofs.Pull.Exhaustion
import DataMarkup.Proofs.Rendering.Outcome

/-! Nested values are rendered as their shape says. Whatever is open around a value, the way over its
flat reading brings its own markup in the element that its context gives it, and ends where it began. -/

namespace DataMarkup

open Nesting

namespace Data.Tree

/-! ### The markup of a tree in the tokens that a run gives -/

open Markup (Tag)

theorem title_eq_titleMarkup (title : Option QualifiedName) :
    Markup.title title = titleMarkup title := by
  cases title <;> rfl

theorem markup_leaf (value : Scalar) : (leaf value).markup = [.ofScalar value] := rfl

theorem markup_array (title : Option QualifiedName) (items : List Tree) :
    (array title items).markup =
      Tag.ol.start :: Markup.title title ++ markupItems items ++ [.elementEnd] := by
  rw [title_eq_titleMarkup]
  rfl

theorem markup_object (title : Option QualifiedName) (entries : List (QualifiedName × Tree)) :
    (object title entries).markup =
      Tag.dl.start :: Markup.title title ++ markupEntries entries ++ [.elementEnd] := by
  rw [title_eq_titleMarkup]
  rfl

theorem markupItems_cons (v : Tree) (vs : List Tree) :
    markupItems (v :: vs) = Tag.li.start :: v.markup ++ .elementEnd :: markupItems vs := rfl

theorem markupEntries_cons (key : QualifiedName) (v : Tree) (es : List (QualifiedName × Tree)) :
    markupEntries ((key, v) :: es) =
      Tag.dt.start :: .ofName key :: .elementEnd :: Tag.dd.start :: v.markup ++
        .elementEnd :: markupEntries es := rfl

/-! ### The way over a tree -/

mutual

theorem passage_flatten (n : Nesting) (h : n.Ready) :
    (v : Tree) → Passage n v.flatten (n.itemBegin ++ v.markup ++ n.itemEnd) (n.update Frame.settle)
  | leaf value => by
    have hf : n.fault? (.scalar value) = none := (fault?_eq_none_iff_ready rfl).mpr h
    simpa [flatten, markup_leaf, Nesting.markup, Nesting.after] using Passage.single hf
  | array title items => by
    have hf : n.fault? (.opening .array title) = none := (fault?_eq_none_iff_ready rfl).mpr h
    have hc : (n.push .array).fault? (.closing .array) = none := rfl
    -- The items see the array's frame on top, and the closing token takes it off again.
    have hitems := passage_flattenAll n items
    have hall := (Passage.single hf).append (hitems.append (Passage.single hc))
    simpa [flatten, markup_array, Nesting.markup, Nesting.after, pop_push, Container.frame,
      Container.tag] using hall
  | object title entries => by
    have hf : n.fault? (.opening .object title) = none := (fault?_eq_none_iff_ready rfl).mpr h
    have hc : (n.push (.object false)).fault? (.closing .object) = none := rfl
    have hentries := passage_flattenEntries n entries
    have hall := (Passage.single hf).append (hentries.append (Passage.single hc))
    simpa [flatten, markup_object, Nesting.markup, Nesting.after, pop_push, Container.frame,
      Container.tag] using hall

theorem passage_flattenAll (n : Nesting) :
    (vs : List Tree) → Passage (n.push .array) (flattenAll vs) (markupItems vs) (n.push .array)
  | [] => .nil _
  | v :: vs => by
    have hv := passage_flatten (n.push .array) (ready_push_array n) v
    rw [update_push] at hv
    have hall := hv.append (passage_flattenAll n vs)
    simpa [flattenAll, markupItems_cons, itemBegin_push_array, itemEnd_push, Frame.settle] using hall

theorem passage_flattenEntries (n : Nesting) :
    (es : List (QualifiedName × Tree)) →
      Passage (n.push (.object false)) (flattenEntries es) (markupEntries es)
        (n.push (.object false))
  | [] => .nil _
  | (key, v) :: es => by
    have hf : (n.push (.object false)).fault? (.property key) = none := rfl
    have hv := passage_flatten (n.push (.object true)) (ready_push_pending n) v
    rw [update_push] at hv
    have hall := (Passage.single hf).append (hv.append (passage_flattenEntries n es))
    simpa [flattenEntries, markupEntries_cons, Nesting.markup, itemBegin_push_object, itemEnd_push,
      Frame.settle] using hall

end

theorem passage_forest : (vs : List Tree) → Passage empty (flattenAll vs) (vs.flatMap markup) empty
  | [] => .nil _
  | v :: vs => by
    have hv := passage_flatten empty ready_empty v
    rw [update_empty] at hv
    have hall := hv.append (passage_forest vs)
    simpa [flattenAll, itemBegin_empty, itemEnd_empty] using hall

theorem document_render_flattenAll (f : List Tree) :
    (render (flattenAll f)).document = .ok (document f) := by
  rw [Rendering.document_eq_ok_iff]
  cases f with
  | nil => exact ⟨rfl, rfl⟩
  | cons v vs =>
    have hne : flattenAll (v :: vs) ≠ [] := fun hnil =>
      v.flatten_ne_nil (List.append_eq_nil_iff.mp hnil).1
    obtain ⟨hmarkup, hnesting, hphase⟩ :=
      Run.after_start_of_passage (passage_forest (v :: vs)) hne
    have hgo := Run.hasEnded_eq_false_iff.mpr (.inr hphase)
    have hd : (Run.start.after (flattenAll (v :: vs))).depth = 0 := by
      rw [Run.depth, hnesting]
      rfl
    refine ⟨failure?_render_of_closed hgo hd, ?_⟩
    rw [markup_render_of_closed hgo hd, if_neg hne, hmarkup]
    rfl

/-- Rendered at once or pulled to the end, a forest gives its own document. -/
theorem document_flattenAll (f : List Tree) :
    (Pull.ofList (flattenAll f)).exhaust.document = .ok (document f) ∧
      (render (flattenAll f)).document = .ok (document f) := by
  rw [Pull.document_exhaust]
  exact ⟨document_render_flattenAll f, document_render_flattenAll f⟩

end Data.Tree
end DataMarkup
