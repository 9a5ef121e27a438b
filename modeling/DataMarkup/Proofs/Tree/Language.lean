import DataMarkup.Markup.Content
import DataMarkup.Proofs.Pull.Extent
import DataMarkup.Proofs.Tree.Grammar

/-! The documents are exactly what the content model allows. What a tree is rendered as has the
content of its kind, and whatever has that content is the rendering of some tree. -/

namespace DataMarkup.Data.Tree

open DataMarkup.Markup

theorem isTitle_titleMarkup : (title : Option QualifiedName) → IsTitle (titleMarkup title)
  | none => .absent
  | some name => .present (.name name)

mutual

theorem isContent_markup : (v : Tree) → IsContent .value v.markup
  | leaf value => .text value
  | array title items => .list (isTitle_titleMarkup title) (isContent_markupItems items)
  | object title entries => .definitions (isTitle_titleMarkup title) (isContent_markupEntries entries)

theorem isContent_markupItems : (vs : List Tree) → IsContent .items (markupItems vs)
  | [] => .noItems
  | v :: vs => .items (isContent_markup v) (isContent_markupItems vs)

theorem isContent_markupEntries :
    (es : List (QualifiedName × Tree)) → IsContent .entries (markupEntries es)
  | [] => .noEntries
  | (key, v) :: es => .entries (.name key) (isContent_markup v) (isContent_markupEntries es)

end

theorem isContent_flatMap_markup (vs : List Tree) : IsContent .values (vs.flatMap markup) := by
  induction vs with
  | nil => exact .noValues
  | cons v vs ih => exact .values (isContent_markup v) ih

def Renders : Part → List Markup.Token → Prop
  | .value, ms => ∃ v : Tree, v.markup = ms
  | .values, ms => ∃ vs : List Tree, vs.flatMap markup = ms
  | .items, ms => ∃ vs : List Tree, markupItems vs = ms
  | .entries, ms => ∃ es : List (QualifiedName × Tree), markupEntries es = ms

theorem exists_titleMarkup_eq {ms : List Markup.Token} (h : IsTitle ms) :
    ∃ title, titleMarkup title = ms := by
  cases h with
  | absent => exact ⟨none, rfl⟩
  | present hl =>
    obtain ⟨name⟩ := hl
    exact ⟨some name, rfl⟩

theorem renders_of_isContent {part : Part} {ms : List Markup.Token} (h : IsContent part ms) :
    Renders part ms := by
  induction h with
  | text value => exact ⟨.leaf value, rfl⟩
  | list ht hi ih =>
    obtain ⟨title, rfl⟩ := exists_titleMarkup_eq ht
    obtain ⟨vs, rfl⟩ := ih
    exact ⟨.array title vs, rfl⟩
  | definitions ht he ih =>
    obtain ⟨title, rfl⟩ := exists_titleMarkup_eq ht
    obtain ⟨es, rfl⟩ := ih
    exact ⟨.object title es, rfl⟩
  | noValues => exact ⟨[], rfl⟩
  | values hv hr ihv ihr =>
    obtain ⟨v, rfl⟩ := ihv
    obtain ⟨vs, rfl⟩ := ihr
    exact ⟨v :: vs, rfl⟩
  | noItems => exact ⟨[], rfl⟩
  | items hv hr ihv ihr =>
    obtain ⟨v, rfl⟩ := ihv
    obtain ⟨vs, rfl⟩ := ihr
    exact ⟨v :: vs, rfl⟩
  | noEntries => exact ⟨[], rfl⟩
  | entries hl hv hr ihv ihr =>
    obtain ⟨name⟩ := hl
    obtain ⟨v, rfl⟩ := ihv
    obtain ⟨es, rfl⟩ := ihr
    exact ⟨(name, v) :: es, rfl⟩

theorem isDocument_iff_exists_forest {ms : List Markup.Token} :
    IsDocument ms ↔ ∃ f : List Tree, document f = ms := by
  constructor
  · rintro (rfl | ⟨value, rest, hv, hr, rfl⟩)
    · exact ⟨[], rfl⟩
    · obtain ⟨v, rfl⟩ := renders_of_isContent hv
      obtain ⟨vs, rfl⟩ := renders_of_isContent hr
      exact ⟨v :: vs, rfl⟩
  · rintro ⟨_ | ⟨v, vs⟩, rfl⟩
    · exact .inl rfl
    · exact .inr ⟨_, _, isContent_markup v, isContent_flatMap_markup vs, rfl⟩

/-- What pulls give as documents is what the content model allows as documents, no less and no more. -/
theorem exists_document_exhaust_iff (ms : List Markup.Token) :
    (∃ ts, (Pull.ofList ts).exhaust.document = .ok ms) ↔ IsDocument ms := by
  rw [isDocument_iff_exists_forest]
  constructor
  · rintro ⟨ts, hts⟩
    rw [Pull.document_exhaust] at hts
    obtain ⟨f, rfl⟩ := exists_forest_of_success (Rendering.document_eq_ok_iff.mp hts).1
    rw [document_render_flattenAll] at hts
    exact ⟨f, Except.ok.inj hts⟩
  · rintro ⟨f, rfl⟩
    refine ⟨flattenAll f, ?_⟩
    rw [Pull.document_exhaust, document_render_flattenAll]

end DataMarkup.Data.Tree
