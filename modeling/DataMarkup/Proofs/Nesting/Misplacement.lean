import DataMarkup.Proofs.Nesting.Summary

/-! Why a token has no place, told from the tokens before it alone: from the innermost container that
they leave open and from whether they end in a property. The innermost frame comes to the same verdict. -/

namespace DataMarkup

namespace Data

/-- One rule for each fault that a token can have. -/
inductive Misplaced (us : List Token) (t : Token) : Fault → Prop
  | unmatchedEnd {kind : Container} (ht : t = .closing kind) (hc : innermost? us ≠ some kind) :
    Misplaced us t (.unmatchedEnd kind)
  | propertyOutsideObject (ht : t.isProperty = true) (hc : innermost? us ≠ some .object) :
    Misplaced us t .propertyOutsideObject
  | missingPropertyValue (ht : t.isProperty = true ∨ t = .closing .object)
    (hc : innermost? us = some .object) (hp : pending us = true) :
    Misplaced us t .missingPropertyValue
  | valueWithoutProperty (ht : t.startsValue = true) (hc : innermost? us = some .object)
    (hp : pending us = false) : Misplaced us t .valueWithoutProperty

end Data

namespace Nesting

variable {n : Nesting} {t : Data.Token} {us : List Data.Token} {fault : Fault}

theorem Summarizes.innermost?_eq (h : n.Summarizes us) :
    Data.innermost? us = n.innermost?.map Frame.kind := by
  rw [Data.innermost?, h.unclosed_eq, kinds, List.head?_map]
  rfl

theorem Summarizes.innermost?_eq_object_iff (h : n.Summarizes us) (pending : Bool) :
    n.innermost? = some (.object pending) ↔
      Data.innermost? us = some .object ∧ Data.pending us = pending := by
  rw [h.innermost?_eq, h.pending_eq, awaits]
  rcases n.innermost? with _ | _ | _ | _ <;> cases pending <;> simp [Frame.kind]

theorem Summarizes.itemBegin_eq (h : n.Summarizes us) :
    n.itemBegin = if Data.innermost? us = some .array then [Markup.Tag.li.start] else [] := by
  rw [itemBegin, h.innermost?_eq]
  rcases n.innermost? with _ | _ | _ <;> rfl

/-! ### The verdict of the innermost frame, token by token -/

theorem fault?_of_startsValue (ht : t.startsValue = true) :
    n.fault? t = some fault ↔
      n.innermost? = some (.object false) ∧ .valueWithoutProperty = fault := by
  cases t with
  | opening kind title => simp [fault?]
  | scalar value => simp [fault?]
  | closing kind => exact absurd ht Bool.noConfusion
  | property name => exact absurd ht Bool.noConfusion

theorem fault?_closing_eq_some_iff {kind : Container} :
    n.fault? (.closing kind) = some fault ↔
      n.innermost?.map Frame.kind ≠ some kind ∧ .unmatchedEnd kind = fault ∨
        kind = .object ∧ n.innermost? = some (.object true) ∧ .missingPropertyValue = fault := by
  rcases h : n.innermost? with _ | _ | _ | _ <;> cases kind <;> simp [fault?, h, Frame.kind]

theorem fault?_property_eq_some_iff {name : QualifiedName} :
    n.fault? (.property name) = some fault ↔
      n.innermost?.map Frame.kind ≠ some .object ∧ .propertyOutsideObject = fault ∨
        n.innermost? = some (.object true) ∧ .missingPropertyValue = fault := by
  rcases h : n.innermost? with _ | _ | _ | _ <;> simp [fault?, h, Frame.kind]

theorem Summarizes.misplaced_of_fault? (h : n.Summarizes us) (hf : n.fault? t = some fault) :
    Data.Misplaced us t fault := by
  have hvalue : t.startsValue = true → Data.Misplaced us t fault := by
    intro ht
    obtain ⟨htop, rfl⟩ := (fault?_of_startsValue ht).mp hf
    obtain ⟨hc, hp⟩ := (h.innermost?_eq_object_iff false).mp htop
    exact .valueWithoutProperty ht hc hp
  cases t with
  | opening kind title => exact hvalue rfl
  | scalar value => exact hvalue rfl
  | closing kind =>
    rcases fault?_closing_eq_some_iff.mp hf with ⟨hne, rfl⟩ | ⟨rfl, htop, rfl⟩
    · exact .unmatchedEnd rfl (h.innermost?_eq ▸ hne)
    · obtain ⟨hc, hp⟩ := (h.innermost?_eq_object_iff true).mp htop
      exact .missingPropertyValue (.inr rfl) hc hp
  | property name =>
    rcases fault?_property_eq_some_iff.mp hf with ⟨hne, rfl⟩ | ⟨htop, rfl⟩
    · exact .propertyOutsideObject rfl (h.innermost?_eq ▸ hne)
    · obtain ⟨hc, hp⟩ := (h.innermost?_eq_object_iff true).mp htop
      exact .missingPropertyValue (.inl rfl) hc hp

theorem Summarizes.fault?_of_misplaced (h : n.Summarizes us) (ht : Data.Misplaced us t fault) :
    n.fault? t = some fault := by
  cases ht with
  | unmatchedEnd ht hc =>
    subst ht
    exact fault?_closing_eq_some_iff.mpr (.inl ⟨h.innermost?_eq ▸ hc, rfl⟩)
  | propertyOutsideObject ht hc =>
    cases t with
    | property name =>
      exact fault?_property_eq_some_iff.mpr (.inl ⟨h.innermost?_eq ▸ hc, rfl⟩)
    | opening | closing | scalar => exact absurd ht Bool.noConfusion
  | missingPropertyValue ht hc hp =>
    have htop := (h.innermost?_eq_object_iff true).mpr ⟨hc, hp⟩
    rcases ht with hproperty | rfl
    · cases t with
      | property name => exact fault?_property_eq_some_iff.mpr (.inr ⟨htop, rfl⟩)
      | opening | closing | scalar => exact absurd hproperty Bool.noConfusion
    · exact fault?_closing_eq_some_iff.mpr (.inr ⟨rfl, htop, rfl⟩)
  | valueWithoutProperty ht hc hp =>
    have htop := (h.innermost?_eq_object_iff false).mpr ⟨hc, hp⟩
    exact (fault?_of_startsValue ht).mpr ⟨htop, rfl⟩

theorem Summarizes.fault?_eq_some_iff (h : n.Summarizes us) :
    n.fault? t = some fault ↔ Data.Misplaced us t fault :=
  ⟨h.misplaced_of_fault?, h.fault?_of_misplaced⟩

end Nesting

theorem Run.fault?_after_iff {us : List Data.Token} {t : Data.Token} {fault : Fault}
    (h : (start.after us).hasEnded = false) :
    (start.after us).nesting.fault? t = some fault ↔ Data.Misplaced us t fault :=
  (summarizes_of_going h).fault?_eq_some_iff

end DataMarkup
