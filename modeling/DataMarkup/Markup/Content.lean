import DataMarkup.Markup.Token

/-! The content model of the markup: which elements may hold what, and in what order. -/

namespace DataMarkup.Markup

inductive Part
  | value
  | values
  | items
  | entries
  deriving DecidableEq

inductive IsLabel : Token → Prop
  | name (name : QualifiedName) : IsLabel (.text (.text name.localPart) (some name))

inductive IsTitle : List Token → Prop
  | absent : IsTitle []
  | present {label : Token} (hl : IsLabel label) : IsTitle [.attr ⟨"title", "", ""⟩, label]

/-- A value is a text, an ordered list or a definition list. Items hold one value each; entries are a
term that holds one label and a description that holds one value. -/
inductive IsContent : Part → List Token → Prop
  | text (value : Scalar) : IsContent .value [.text value none]
  | list {title items : List Token} (ht : IsTitle title) (hi : IsContent .items items) :
    IsContent .value (.elementBegin ⟨"ol", "", ""⟩ :: title ++ items ++ [.elementEnd])
  | definitions {title entries : List Token} (ht : IsTitle title)
    (he : IsContent .entries entries) :
    IsContent .value (.elementBegin ⟨"dl", "", ""⟩ :: title ++ entries ++ [.elementEnd])
  | noValues : IsContent .values []
  | values {value rest : List Token} (hv : IsContent .value value) (hr : IsContent .values rest) :
    IsContent .values (value ++ rest)
  | noItems : IsContent .items []
  | items {value rest : List Token} (hv : IsContent .value value) (hr : IsContent .items rest) :
    IsContent .items (.elementBegin ⟨"li", "", ""⟩ :: value ++ .elementEnd :: rest)
  | noEntries : IsContent .entries []
  | entries {label : Token} {value rest : List Token} (hl : IsLabel label)
    (hv : IsContent .value value) (hr : IsContent .entries rest) :
    IsContent .entries (.elementBegin ⟨"dt", "", ""⟩ :: label :: .elementEnd ::
      .elementBegin ⟨"dd", "", ""⟩ :: value ++ .elementEnd :: rest)

def IsDocument (ts : List Token) : Prop :=
  ts = [] ∨ ∃ value rest, IsContent .value value ∧ IsContent .values rest ∧
    ts = .elementBegin ⟨"div", "", ""⟩ :: (value ++ rest) ++ [.elementEnd]

end DataMarkup.Markup
