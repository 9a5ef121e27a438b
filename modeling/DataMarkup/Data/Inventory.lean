import DataMarkup.Data.Account
import DataMarkup.Markup.Tag

/-! What markup is made of, its texts, its elements and its attributes, and how much of each is due for a
list of data tokens. Only an array's items depend on more than the tokens one by one. -/

namespace DataMarkup

namespace Markup

namespace Token

def isText : Token → Bool
  | text _ _ => true
  | _ => false

def elementName? : Token → Option QualifiedName
  | elementBegin name => some name
  | _ => none

def attrName? : Token → Option QualifiedName
  | attr name => some name
  | _ => none

end Token

def texts (ms : List Token) : List Token := ms.filter Token.isText

def elementNames (ms : List Token) : List QualifiedName := ms.filterMap Token.elementName?

def attrNames (ms : List Token) : List QualifiedName := ms.filterMap Token.attrName?

theorem texts_append (us vs : List Token) : texts (us ++ vs) = texts us ++ texts vs :=
  List.filter_append ..

theorem elementNames_append (us vs : List Token) :
    elementNames (us ++ vs) = elementNames us ++ elementNames vs := List.filterMap_append

theorem attrNames_append (us vs : List Token) :
    attrNames (us ++ vs) = attrNames us ++ attrNames vs := List.filterMap_append

def Tag.qualifiedName (tag : Tag) : QualifiedName := .ofLocal tag.name

theorem Tag.qualifiedName_inj {s t : Tag} : s.qualifiedName = t.qualifiedName ↔ s = t := by
  rw [qualifiedName, qualifiedName, QualifiedName.ofLocal_inj, name_inj]

end Markup

namespace Data

open Markup (Tag)

namespace Token

def text? : Token → Option Markup.Token
  | opening _ none => none
  | opening _ (some name) => some (.text (.text name.localPart) (some name))
  | closing _ => none
  | property name => some (.text (.text name.localPart) (some name))
  | scalar value => some (.text value none)

def isTitled : Token → Bool
  | opening _ (some _) => true
  | _ => false

def opens (kind : Container) : Token → Bool
  | opening opened _ => opened = kind
  | _ => false

def tags : Token → List Tag
  | opening kind _ => [kind.tag]
  | property _ => [.dt, .dd]
  | _ => []

end Token

def isItem (us : List Token) (t : Token) : Bool :=
  t.startsValue && innermost? us = some .array

def items (ts : List Token) : List Token :=
  (List.range ts.length).filterMap fun k =>
    ts[k]?.bind fun t => if isItem (ts.take k) t then some t else none

/-- The number of elements with a name; there are none with any other names. -/
def elementCount (ts : List Token) : QualifiedName → Nat
  | ⟨"div", "", ""⟩ => if ts.isEmpty then 0 else 1
  | ⟨"ol", "", ""⟩ => ts.countP (Token.opens .array)
  | ⟨"li", "", ""⟩ => (items ts).length
  | ⟨"dl", "", ""⟩ => ts.countP (Token.opens .object)
  | ⟨"dt", "", ""⟩ => ts.countP Token.isProperty
  | ⟨"dd", "", ""⟩ => ts.countP Token.isProperty
  | _ => 0

theorem elementCount_eq_zero {name : QualifiedName} (ts : List Token)
    (h : ∀ tag : Tag, name ≠ tag.qualifiedName) : elementCount ts name = 0 := by
  unfold elementCount
  split
  · exact absurd rfl (h .div)
  · exact absurd rfl (h .ol)
  · exact absurd rfl (h .li)
  · exact absurd rfl (h .dl)
  · exact absurd rfl (h .dt)
  · exact absurd rfl (h .dd)
  · rfl

def tagsAfter (us : List Token) (t : Token) : List Tag :=
  (if us.isEmpty then [.div] else []) ++ (if isItem us t then [.li] else []) ++ t.tags

theorem items_concat (ts : List Token) (t : Token) :
    items (ts ++ [t]) = items ts ++ if isItem ts t then [t] else [] := by
  have h := filterMap_range_concat (fun us t => if isItem us t then some t else none) ts t
  rw [items, h]
  cases isItem ts t <;> rfl

/-! ### One token more -/

section Concat

variable (ts : List Token) (t : Token)

theorem Token.count_tags_tag (kind : Container) :
    t.tags.count kind.tag = [t].countP (opens kind) := by
  rcases t with ⟨_ | _, _⟩ | _ | _ | _ <;> cases kind <;> rfl

theorem Token.count_tags_of_property {tag : Tag} (h : tag = .dt ∨ tag = .dd) :
    t.tags.count tag = [t].countP isProperty := by
  rcases h with rfl | rfl <;> rcases t with ⟨_ | _, _⟩ | _ | _ | _ <;> rfl

theorem Token.count_tags_of_around {tag : Tag} (h : tag = .div ∨ tag = .li) :
    t.tags.count tag = 0 := by
  rcases h with rfl | rfl <;> rcases t with ⟨_ | _, _⟩ | _ | _ | _ <;> rfl

theorem count_tagsAfter (tag : Tag) :
    (tagsAfter ts t).count tag =
      (if ts.isEmpty ∧ tag = .div then 1 else 0) + (if isItem ts t ∧ tag = .li then 1 else 0) +
        t.tags.count tag := by
  rw [tagsAfter, List.count_append, List.count_append]
  cases ts.isEmpty <;> cases isItem ts t <;> cases tag <;> rfl

theorem elementCount_concat_of_countP {tag : Tag} {due : Token → Bool} (hdiv : tag ≠ .div)
    (hli : tag ≠ .li) (hcount : ∀ us, elementCount us tag.qualifiedName = us.countP due)
    (htags : t.tags.count tag = [t].countP due) :
    elementCount (ts ++ [t]) tag.qualifiedName =
      elementCount ts tag.qualifiedName + (tagsAfter ts t).count tag := by
  rw [hcount, hcount, count_tagsAfter, htags, List.countP_append]
  simp [hdiv, hli]

theorem elementCount_concat (tag : Tag) :
    elementCount (ts ++ [t]) tag.qualifiedName =
      elementCount ts tag.qualifiedName + (tagsAfter ts t).count tag := by
  cases tag with
  | div =>
    have hcount (us : List Token) :
        elementCount us Tag.div.qualifiedName = if us.isEmpty then 0 else 1 := rfl
    rw [hcount, hcount, count_tagsAfter, t.count_tags_of_around (.inl rfl)]
    cases ts <;> simp
  | li =>
    have hcount (us : List Token) :
        elementCount us Tag.li.qualifiedName = (items us).length := rfl
    rw [hcount, hcount, count_tagsAfter, t.count_tags_of_around (.inr rfl), items_concat,
      List.length_append]
    cases isItem ts t <;> simp
  | ol =>
    exact elementCount_concat_of_countP ts t (by decide) (by decide) (fun _ => rfl)
      (t.count_tags_tag .array)
  | dl =>
    exact elementCount_concat_of_countP ts t (by decide) (by decide) (fun _ => rfl)
      (t.count_tags_tag .object)
  | dt =>
    exact elementCount_concat_of_countP ts t (by decide) (by decide) (fun _ => rfl)
      (t.count_tags_of_property (.inl rfl))
  | dd =>
    exact elementCount_concat_of_countP ts t (by decide) (by decide) (fun _ => rfl)
      (t.count_tags_of_property (.inr rfl))

end Concat

end Data
end DataMarkup
