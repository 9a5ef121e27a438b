import DataMarkup.Data.Inventory
import DataMarkup.Proofs.Nesting.Decoding
import DataMarkup.Proofs.Nesting.Misplacement
import DataMarkup.Proofs.Pull.Extent

/-! Nothing of an input gets lost in its markup and nothing is made up. Each accepted token brings its own
text, its own elements and the title it has; the end of an input brings none of these. -/

namespace DataMarkup

open Markup

namespace Nesting

variable {n : Nesting} {us : List Data.Token}

/-! ### What one token brings -/

theorem itemEnd_eq (n : Nesting) : n.itemEnd = [] ∨ n.itemEnd = [.elementEnd] := by
  unfold itemEnd
  split
  · exact .inr rfl
  · exact .inl rfl

theorem texts_itemBegin (n : Nesting) : texts n.itemBegin = [] := by
  rcases n.itemBegin_eq with h | h <;> rw [h] <;> rfl

theorem texts_itemEnd (n : Nesting) : texts n.itemEnd = [] := by
  rcases n.itemEnd_eq with h | h <;> rw [h] <;> rfl

theorem attrNames_itemBegin (n : Nesting) : attrNames n.itemBegin = [] := by
  rcases n.itemBegin_eq with h | h <;> rw [h] <;> rfl

theorem attrNames_itemEnd (n : Nesting) : attrNames n.itemEnd = [] := by
  rcases n.itemEnd_eq with h | h <;> rw [h] <;> rfl

theorem elementNames_itemEnd (n : Nesting) : elementNames n.itemEnd = [] := by
  rcases n.itemEnd_eq with h | h <;> rw [h] <;> rfl

theorem elementNames_itemBegin (h : n.Summarizes us) (t : Data.Token) (ht : t.startsValue = true) :
    elementNames n.itemBegin =
      (if Data.isItem us t then [Tag.li] else []).map Tag.qualifiedName := by
  rw [h.itemBegin_eq, Data.isItem, ht, Bool.true_and]
  by_cases hc : Data.innermost? us = some .array
  · rw [if_pos hc, if_pos (decide_eq_true hc)]
    rfl
  · rw [if_neg hc, if_neg (by simpa using hc)]
    rfl

theorem texts_markup (n : Nesting) (t : Data.Token) : texts (n.markup t) = t.text?.toList := by
  cases t with
  | opening kind title =>
    rw [markup, texts_append, texts_itemBegin]
    cases title <;> rfl
  | closing kind => exact n.pop.texts_itemEnd
  | property name => rfl
  | scalar value =>
    rw [markup, texts_append, texts_itemBegin]
    exact congrArg (Token.ofScalar value :: ·) n.texts_itemEnd

theorem attrNames_markup (n : Nesting) (t : Data.Token) :
    attrNames (n.markup t) = List.replicate ([t].countP Data.Token.isTitled) ⟨"title", "", ""⟩ := by
  cases t with
  | opening kind title =>
    rw [markup, attrNames_append, attrNames_itemBegin]
    cases title <;> rfl
  | closing kind => exact n.pop.attrNames_itemEnd
  | property name => rfl
  | scalar value =>
    rw [markup, attrNames_append, attrNames_itemBegin]
    exact n.attrNames_itemEnd

theorem elementNames_markup (h : n.Summarizes us) (t : Data.Token) :
    elementNames (n.markup t) =
      ((if Data.isItem us t then [Tag.li] else []) ++ t.tags).map Tag.qualifiedName := by
  rw [List.map_append]
  cases t with
  | opening kind title =>
    have hitem := elementNames_itemBegin h (.opening kind title) rfl
    rw [markup, elementNames_append, hitem]
    cases title <;> rfl
  | closing kind => exact n.pop.elementNames_itemEnd
  | property name => rfl
  | scalar value =>
    have hitem := elementNames_itemBegin h (.scalar value) rfl
    rw [markup, elementNames_append, hitem]
    exact congrArg _ n.elementNames_itemEnd

end Nesting

namespace Data

open Run

variable {us ts : List Token} {t : Token}

/-! ### What all tokens bring -/

/-- The markup has the texts, the titles and the elements that are due for the tokens, and no others. The
elements are given by their tags, in the order in which they begin. -/
structure Conserves (ts : List Token) (ms : List Markup.Token) : Prop where
  texts_eq : texts ms = ts.filterMap Token.text?
  attrNames_eq : attrNames ms = List.replicate (ts.countP Token.isTitled) ⟨"title", "", ""⟩
  exists_tags : ∃ tags : List Tag, elementNames ms = tags.map Tag.qualifiedName ∧
    ∀ tag : Tag, tags.count tag = elementCount ts tag.qualifiedName

theorem conserves_nil : Conserves [] [] :=
  ⟨rfl, rfl, [], rfl, fun tag => by cases tag <;> rfl⟩

theorem Conserves.concat (h : Conserves us (start.markup us))
    (hgo : (start.after (us ++ [t])).hasEnded = false) :
    Conserves (us ++ [t]) (start.markup (us ++ [t])) := by
  have hbefore : (start.after us).hasEnded = false := going_of_append hgo
  have hsummary := summarizes_of_going hbefore
  obtain ⟨tags, hnames, hcount⟩ := h.exists_tags
  rw [markup_concat_of_going hgo, wrapper_after_start hbefore]
  generalize (start.after us).nesting = n at hsummary ⊢
  refine ⟨?_, ?_, tags ++ tagsAfter us t, ?_, ?_⟩
  · have hwrapper : texts (if us.isEmpty then [Tag.div.start] else []) = [] := by split <;> rfl
    rw [texts_append, texts_append, hwrapper, h.texts_eq, n.texts_markup, List.filterMap_append]
    rfl
  · have hwrapper : attrNames (if us.isEmpty then [Tag.div.start] else []) = [] := by
      split <;> rfl
    rw [attrNames_append, attrNames_append, hwrapper, h.attrNames_eq, n.attrNames_markup,
      List.nil_append, List.replicate_append_replicate, List.countP_append]
  · have hwrapper : elementNames (if us.isEmpty then [Tag.div.start] else []) =
        (if us.isEmpty then [Tag.div] else []).map Tag.qualifiedName := by split <;> rfl
    rw [elementNames_append, elementNames_append, hwrapper, hnames,
      Nesting.elementNames_markup hsummary, ← List.map_append, ← List.map_append, tagsAfter,
      List.append_assoc]
  · intro tag
    rw [List.count_append, hcount, elementCount_concat]

theorem conserves_markup_start (h : (start.after ts).hasEnded = false) :
    Conserves ts (start.markup ts) := by
  -- A token is looked at with those before it, so the induction is from the end of the list.
  induction ts using List.reverseRecOn with
  | nil => exact conserves_nil
  | append_singleton us t ih => exact (ih (going_of_append h)).concat h

theorem Conserves.append_elementEnd {ms : List Markup.Token} (h : Conserves ts ms) :
    Conserves ts (ms ++ [.elementEnd]) := by
  obtain ⟨tags, hnames, hcount⟩ := h.exists_tags
  refine ⟨?_, ?_, tags, ?_, hcount⟩
  · rw [texts_append, h.texts_eq]
    exact List.append_nil _
  · rw [attrNames_append, h.attrNames_eq]
    exact List.append_nil _
  · rw [elementNames_append, hnames]
    exact List.append_nil _

theorem conserves_exhaust (ts : List Token) :
    Conserves (acceptedPrefix ts) (Pull.ofList ts).exhaust.markup.toList := by
  have hbody := conserves_markup_start (going_acceptedPrefix ts)
  by_cases hsuccess : (Pull.ofList ts).exhaust.failure? = none
  · rw [acceptedPrefix_of_success hsuccess] at hbody ⊢
    rw [Pull.markup_exhaust_of_success hsuccess]
    split
    · rwa [List.append_nil]
    · exact hbody.append_elementEnd
  · rwa [Pull.markup_exhaust_of_failure hsuccess]

theorem Conserves.count_elementNames {ms : List Markup.Token} (h : Conserves ts ms)
    (name : QualifiedName) : (elementNames ms).count name = elementCount ts name := by
  obtain ⟨tags, hnames, hcount⟩ := h.exists_tags
  rw [hnames]
  by_cases hname : ∃ tag : Tag, name = tag.qualifiedName
  · obtain ⟨tag, rfl⟩ := hname
    rw [← hcount, List.count_map_of_injective]
    exact fun s t => Tag.qualifiedName_inj.mp
  · rw [not_exists] at hname
    rw [elementCount_eq_zero ts hname, List.count_eq_zero]
    intro hmem
    obtain ⟨tag, -, htag⟩ := List.mem_map.mp hmem
    exact hname tag htag.symm

/-- The texts that a pull gives are the values and names of the accepted tokens, in their order: a value as
it is, a name with its local part. There are as many elements with each name, and as many titles, as the
tokens call for, and no elements or attributes besides. -/
theorem texts_and_elements_exhaust (ts : List Token) :
    let us := acceptedPrefix ts
    let out := (Pull.ofList ts).exhaust.markup.toList
    texts out = us.filterMap Token.text? ∧
      (∀ name, (elementNames out).count name = elementCount us name) ∧
      attrNames out = List.replicate (us.countP Token.isTitled) ⟨"title", "", ""⟩ := by
  intro us out
  have h : Conserves us out := conserves_exhaust ts
  exact ⟨h.texts_eq, h.count_elementNames, h.attrNames_eq⟩

theorem texts_and_elements_exhaust_nested :
    let a : QualifiedName := ⟨"a", "p", "u"⟩
    let b : QualifiedName := ⟨"b", "", ""⟩
    let us : List Token := [.opening .array (some a), .scalar .null, .opening .object none, .property b]
    let out := (Pull.ofList (us ++ [.closing .object])).exhaust.markup.toList
    texts out = [.text (.text "a") (some a), .text .null none, .text (.text "b") (some b)] ∧
      (elementNames out).count ⟨"li", "", ""⟩ = 2 ∧ (elementNames out).count a = 0 ∧
      attrNames out = [⟨"title", "", ""⟩] := by
  intro a b us out
  have hus : acceptedPrefix (us ++ [.closing .object]) = us := acceptedPrefix_of_fault rfl rfl []
  have hall := texts_and_elements_exhaust (us ++ [.closing .object])
  rw [hus] at hall
  obtain ⟨htexts, hcount, hattrs⟩ := hall
  exact ⟨htexts, hcount _, hcount _, hattrs⟩

end Data
end DataMarkup
