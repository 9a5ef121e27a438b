import DataMarkup.QualifiedName
import DataMarkup.Scalar

/-! The output alphabet: elements marked by a begin and an end, attributes, and text. -/

namespace DataMarkup.Markup

/-- Text rendered from a name keeps the name beside its local part, since the qualifier and the
namespace would be lost otherwise. -/
inductive Token
  | elementBegin (name : QualifiedName)
  | elementEnd
  | attr (name : QualifiedName)
  | text (value : Scalar) (name : Option QualifiedName)
  deriving BEq

namespace Token

def element (localPart : String) : Token := elementBegin (.ofLocal localPart)

def plainAttr (localPart : String) : Token := attr (.ofLocal localPart)

def ofScalar (value : Scalar) : Token := text value none

def ofName (name : QualifiedName) : Token := text (.text name.localPart) (some name)

def isElementBegin : Token → Bool
  | elementBegin _ => true
  | _ => false

def isElementEnd : Token → Bool
  | elementEnd => true
  | _ => false

theorem ofScalar_inj {v w : Scalar} : ofScalar v = ofScalar w ↔ v = w := by
  simp [ofScalar]

theorem ofName_inj {m n : QualifiedName} : ofName m = ofName n ↔ m = n := by
  simp only [ofName, text.injEq, Scalar.text.injEq, Option.some.injEq]
  exact ⟨And.right, fun h => ⟨congrArg _ h, h⟩⟩

end Token
end DataMarkup.Markup
