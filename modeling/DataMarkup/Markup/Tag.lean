import DataMarkup.Markup.Token
import DataMarkup.Data.Token

/-! The elements the markup is made of. -/

namespace DataMarkup

namespace Markup

inductive Tag
  | div
  | ol
  | li
  | dl
  | dt
  | dd
  deriving DecidableEq

namespace Tag

def name : Tag → String
  | div => "div"
  | ol => "ol"
  | li => "li"
  | dl => "dl"
  | dt => "dt"
  | dd => "dd"

def start (tag : Tag) : Token := .element tag.name

theorem name_inj {s t : Tag} : s.name = t.name ↔ s = t := by
  cases s <;> cases t <;> decide

theorem start_inj {s t : Tag} : s.start = t.start ↔ s = t := by
  rw [start, start, Token.element, Token.element, Token.elementBegin.injEq,
    QualifiedName.ofLocal_inj, name_inj]

end Tag

def title : Option QualifiedName → List Token
  | none => []
  | some name => [.plainAttr "title", .ofName name]

end Markup

namespace Container

def tag : Container → Markup.Tag
  | array => .ol
  | object => .dl

theorem tag_inj {a b : Container} : a.tag = b.tag ↔ a = b := by
  cases a <;> cases b <;> decide

end Container
end DataMarkup
