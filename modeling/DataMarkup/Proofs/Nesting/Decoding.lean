import DataMarkup.Proofs.Nesting.Passage

/-! Markup is read back token by token. What a token brings tells the token as soon as the frames are
known and no title is still to come; a title is told by its attribute, and no other token begins with
one. -/

namespace DataMarkup

namespace Markup

def Token.isAttr : Token → Bool
  | attr _ => true
  | _ => false

theorem title_append_inj {m n : Option QualifiedName} {us vs : List Token}
    (hu : ∀ u ∈ us.head?, u.isAttr = false) (hv : ∀ v ∈ vs.head?, v.isAttr = false)
    (h : title m ++ us = title n ++ vs) : m = n ∧ us = vs := by
  cases m with
  | none =>
    cases n with
    | none => exact ⟨rfl, h⟩
    | some n =>
      simp only [title, List.nil_append, List.cons_append] at h
      rw [h] at hu
      exact absurd (hu _ rfl) (by simp [Token.plainAttr, Token.isAttr])
  | some m =>
    cases n with
    | none =>
      simp only [title, List.nil_append, List.cons_append] at h
      rw [← h] at hv
      exact absurd (hv _ rfl) (by simp [Token.plainAttr, Token.isAttr])
    | some n =>
      simpa [title, Token.ofName_inj] using h

end Markup

namespace Nesting

variable {n m k : Nesting} {t u : Data.Token} {us vs ts : List Data.Token}
  {as bs ms : List Markup.Token}

def lead (n : Nesting) : Data.Token → Markup.Token
  | .opening kind _ => n.itemBegin.headD kind.tag.start
  | .closing _ => .elementEnd
  | .property _ => Markup.Tag.dt.start
  | .scalar value => n.itemBegin.headD (.ofScalar value)

theorem itemBegin_eq (n : Nesting) : n.itemBegin = [] ∨ n.itemBegin = [Markup.Tag.li.start] := by
  unfold itemBegin
  split
  · exact .inr rfl
  · exact .inl rfl

theorem exists_markup_eq_cons (n : Nesting) (t : Data.Token) :
    ∃ ms, n.markup t = n.lead t :: ms := by
  cases t with
  | opening kind title =>
    rcases n.itemBegin_eq with hb | hb <;> simp [markup, lead, hb]
  | closing kind => exact ⟨_, rfl⟩
  | property name => exact ⟨_, rfl⟩
  | scalar value =>
    rcases n.itemBegin_eq with hb | hb <;> simp [markup, lead, hb]

theorem head?_markup_append (n : Nesting) (t : Data.Token) (ms : List Markup.Token) :
    (n.markup t ++ ms).head? = some (n.lead t) := by
  obtain ⟨rest, hrest⟩ := n.exists_markup_eq_cons t
  rw [hrest]
  rfl

theorem isAttr_lead (n : Nesting) (t : Data.Token) : (n.lead t).isAttr = false := by
  rcases n.itemBegin_eq with hb | hb <;> cases t <;> simp [lead, hb] <;> rfl

theorem isClosing_iff_lead : t.isClosing = true ↔ n.lead t = .elementEnd := by
  rcases n.itemBegin_eq with hb | hb <;> cases t <;>
    simp [lead, hb, Data.Token.isClosing, Markup.Tag.start, Markup.Token.element,
      Markup.Token.ofScalar]

theorem isProperty_iff_lead : t.isProperty = true ↔ n.lead t = Markup.Tag.dt.start := by
  cases t with
  | opening kind title =>
    rcases n.itemBegin_eq with hb | hb <;> cases kind <;>
      simp [lead, hb, Data.Token.isProperty, Container.tag, Markup.Tag.start_inj]
  | closing kind => simp [lead, Data.Token.isProperty, Markup.Tag.start, Markup.Token.element]
  | property name => simp [lead, Data.Token.isProperty]
  | scalar value =>
    rcases n.itemBegin_eq with hb | hb <;>
      simp [lead, hb, Data.Token.isProperty, Markup.Tag.start, Markup.Token.element,
        Markup.Token.ofScalar, QualifiedName.ofLocal_inj, Markup.Tag.name]

theorem closing_inj {a b : Container} (ha : n.fault? (.closing a) = none)
    (hb : n.fault? (.closing b) = none) : a = b := by
  have hframe := (fault?_closing_eq_none_iff.mp ha).symm.trans (fault?_closing_eq_none_iff.mp hb)
  rw [← a.kind_frame, Option.some.inj hframe, b.kind_frame]

theorem markup_append_inj (ht : n.fault? t = none) (hu : n.fault? u = none)
    (ha : ∀ a ∈ as.head?, a.isAttr = false) (hb : ∀ b ∈ bs.head?, b.isAttr = false)
    (h : n.markup t ++ as = n.markup u ++ bs) : t = u ∧ as = bs := by
  have hlead : n.lead t = n.lead u := by
    have hheads := congrArg List.head? h
    rwa [head?_markup_append, head?_markup_append, Option.some.injEq] at hheads
  have hclosing : t.isClosing = true ↔ u.isClosing = true := by
    rw [isClosing_iff_lead, isClosing_iff_lead, hlead]
  have hproperty : t.isProperty = true ↔ u.isProperty = true := by
    rw [isProperty_iff_lead, isProperty_iff_lead, hlead]
  cases t with
  | closing kind =>
    cases u with
    | closing kind' =>
      obtain rfl := closing_inj ht hu
      exact ⟨rfl, List.append_cancel_left h⟩
    | _ => simp [Data.Token.isClosing] at hclosing
  | property name =>
    cases u with
    | property name' => simpa [markup, Markup.Token.ofName_inj] using h
    | _ => simp [Data.Token.isProperty] at hproperty
  | opening kind title =>
    cases u with
    | opening kind' title' =>
      simp only [markup, List.append_assoc, List.cons_append, List.append_cancel_left_eq,
        List.cons.injEq, Markup.Tag.start_inj, Container.tag_inj] at h
      obtain ⟨rfl, h⟩ := h
      obtain ⟨rfl, hrest⟩ := Markup.title_append_inj ha hb h
      exact ⟨rfl, hrest⟩
    | scalar value =>
      simp [markup, Markup.Tag.start, Markup.Token.element, Markup.Token.ofScalar] at h
    | closing kind' => simp [Data.Token.isClosing] at hclosing
    | property name' => simp [Data.Token.isProperty] at hproperty
  | scalar value =>
    cases u with
    | scalar value' => simpa [markup, Markup.Token.ofScalar_inj] using h
    | opening kind title =>
      simp [markup, Markup.Tag.start, Markup.Token.element, Markup.Token.ofScalar] at h
    | closing kind' => simp [Data.Token.isClosing] at hclosing
    | property name' => simp [Data.Token.isProperty] at hproperty

theorem Passage.head?_isAttr (h : Passage n ts ms m) : ∀ x ∈ ms.head?, x.isAttr = false := by
  cases h with
  | nil => simp
  | @cons _ _ t _ ms hf h =>
    rw [head?_markup_append]
    rintro x ⟨⟩
    exact n.isAttr_lead t

theorem Passage.tokens_eq (hu : Passage n us ms m) (hv : Passage n vs ms k) : us = vs := by
  induction hu generalizing vs with
  | nil n =>
    generalize hms : ([] : List Markup.Token) = ms at hv
    cases hv with
    | nil => rfl
    | cons hf hv => exact absurd (List.append_eq_nil_iff.mp hms.symm).1 (markup_ne_nil _ _)
  | @cons n m t us ms hf hu ih =>
    generalize hms : n.markup t ++ ms = all at hv
    cases hv with
    | nil => exact absurd (List.append_eq_nil_iff.mp hms).1 (markup_ne_nil _ _)
    | @cons _ _ t' vs ms' hf' hv =>
      obtain ⟨rfl, rfl⟩ := markup_append_inj hf hf' hu.head?_isAttr hv.head?_isAttr hms
      rw [ih hv]

end Nesting
end DataMarkup
