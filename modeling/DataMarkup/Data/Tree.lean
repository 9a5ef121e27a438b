import DataMarkup.Data.Token
import DataMarkup.Markup.Token

/-! Nested values, their flat reading, and the markup of a value on its own, in the tokens themselves. -/

namespace DataMarkup.Data

inductive Tree
  | leaf (value : Scalar)
  | array (title : Option QualifiedName) (items : List Tree)
  | object (title : Option QualifiedName) (entries : List (QualifiedName × Tree))

namespace Tree

mutual

def flatten : Tree → List Token
  | leaf value => [.scalar value]
  | array title items => .opening .array title :: flattenAll items ++ [.closing .array]
  | object title entries => .opening .object title :: flattenEntries entries ++ [.closing .object]

def flattenAll : List Tree → List Token
  | [] => []
  | v :: vs => v.flatten ++ flattenAll vs

def flattenEntries : List (QualifiedName × Tree) → List Token
  | [] => []
  | (key, v) :: es => .property key :: v.flatten ++ flattenEntries es

end

def titleMarkup : Option QualifiedName → List Markup.Token
  | none => []
  | some name => [.attr ⟨"title", "", ""⟩, .text (.text name.localPart) (some name)]

mutual

/-- Without the element that the value's context gives it. -/
def markup : Tree → List Markup.Token
  | leaf value => [.text value none]
  | array title items =>
    .elementBegin ⟨"ol", "", ""⟩ :: titleMarkup title ++ markupItems items ++ [.elementEnd]
  | object title entries =>
    .elementBegin ⟨"dl", "", ""⟩ :: titleMarkup title ++ markupEntries entries ++ [.elementEnd]

def markupItems : List Tree → List Markup.Token
  | [] => []
  | v :: vs => .elementBegin ⟨"li", "", ""⟩ :: v.markup ++ .elementEnd :: markupItems vs

def markupEntries : List (QualifiedName × Tree) → List Markup.Token
  | [] => []
  | (key, v) :: es =>
    .elementBegin ⟨"dt", "", ""⟩ :: .text (.text key.localPart) (some key) :: .elementEnd ::
      .elementBegin ⟨"dd", "", ""⟩ :: v.markup ++ .elementEnd :: markupEntries es

end

def document : List Tree → List Markup.Token
  | [] => []
  | v :: vs => .elementBegin ⟨"div", "", ""⟩ :: (v :: vs).flatMap markup ++ [.elementEnd]

theorem flatten_ne_nil (v : Tree) : v.flatten ≠ [] := by
  cases v <;> simp [flatten]

theorem flattenAll_append (us vs : List Tree) :
    flattenAll (us ++ vs) = flattenAll us ++ flattenAll vs := by
  induction us with
  | nil => rfl
  | cons u us ih => simp only [List.cons_append, flattenAll, ih, List.append_assoc]

theorem flattenEntries_append (ds es : List (QualifiedName × Tree)) :
    flattenEntries (ds ++ es) = flattenEntries ds ++ flattenEntries es := by
  induction ds with
  | nil => rfl
  | cons d ds ih => simp only [List.cons_append, flattenEntries, ih, List.append_assoc]

end Tree
end DataMarkup.Data
