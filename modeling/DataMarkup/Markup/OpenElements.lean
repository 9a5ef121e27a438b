import DataMarkup.Data.Token
import DataMarkup.Markup.Token

/-! Reading markup from left to right with a stack of the open elements, and the stack that open
containers call for. -/

namespace DataMarkup.Markup

/-- The names of the open elements after the tokens, innermost first; none if an end met an empty
stack. -/
def openElements (stack : List QualifiedName) : List Token → Option (List QualifiedName)
  | [] => some stack
  | .elementBegin name :: ts => openElements (name :: stack) ts
  | .elementEnd :: ts =>
    match stack with
    | [] => none
    | _ :: stack => openElements stack ts
  | _ :: ts => openElements stack ts

theorem openElements_append (stack : List QualifiedName) (us vs : List Token) :
    openElements stack (us ++ vs) = (openElements stack us).bind fun s => openElements s vs := by
  induction us generalizing stack with
  | nil => rfl
  | cons u us ih =>
    cases u with
    | elementEnd =>
      cases stack with
      | nil => rfl
      | cons name stack => exact ih stack
    | elementBegin name => exact ih _
    | attr name => exact ih _
    | text value name => exact ih _

def elementOf : Container → QualifiedName
  | .array => ⟨"ol", "", ""⟩
  | .object => ⟨"dl", "", ""⟩

def elementAround : Container → QualifiedName
  | .array => ⟨"li", "", ""⟩
  | .object => ⟨"dd", "", ""⟩

/-- The stack for open containers, innermost first: the wrapper of all, then for each container the
element its own container puts around it and the element it is. -/
def elementsOf : List Container → List QualifiedName
  | [] => [⟨"div", "", ""⟩]
  | [kind] => [elementOf kind, ⟨"div", "", ""⟩]
  | kind :: outer :: rest => elementOf kind :: elementAround outer :: elementsOf (outer :: rest)

end DataMarkup.Markup
