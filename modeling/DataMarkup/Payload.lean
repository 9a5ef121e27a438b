import DataMarkup.Markup.Token
import DataMarkup.Data.Token

/-! Replacing what tokens carry, values and names, and leaving their shape as it is. -/

namespace DataMarkup

structure Payload where
  value : Scalar → Scalar
  name : QualifiedName → QualifiedName

def Data.Token.map (p : Payload) : Data.Token → Data.Token
  | opening kind title => opening kind (title.map p.name)
  | closing kind => closing kind
  | property name => property (p.name name)
  | scalar value => scalar (p.value value)

def Markup.Token.map (p : Payload) : Markup.Token → Markup.Token
  | text value none => text (p.value value) none
  | text _ (some name) => text (.text (p.name name).localPart) (some (p.name name))
  | t => t

theorem Markup.Token.map_ofScalar (p : Payload) (v : Scalar) :
    (ofScalar v).map p = ofScalar (p.value v) := rfl

theorem Markup.Token.map_ofName (p : Payload) (n : QualifiedName) :
    (ofName n).map p = ofName (p.name n) := rfl

theorem Markup.Token.map_element (p : Payload) (s : String) : (element s).map p = element s := rfl

end DataMarkup
