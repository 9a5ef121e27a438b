import DataMarkup.Data.Tree

/-! A flat reading tells the tree: values that begin the same list of tokens are the same value. A list
of values or of entries is told from what follows by the next token alone. -/

namespace DataMarkup.Data.Tree

theorem flatten_eq_cons (v : Tree) : ∃ t ts, v.flatten = t :: ts ∧ t.startsValue = true := by
  cases v with
  | leaf value => exact ⟨_, _, rfl, rfl⟩
  | array title items => exact ⟨_, _, rfl, rfl⟩
  | object title entries => exact ⟨_, _, rfl, rfl⟩

mutual

theorem flatten_append_inj : (v w : Tree) → {r s : List Token} →
    v.flatten ++ r = w.flatten ++ s → v = w ∧ r = s
  | leaf a, w, r, s, h => by
    cases w with
    | leaf b => simpa [flatten] using h
    | array title items => simp [flatten] at h
    | object title entries => simp [flatten] at h
  | array title items, w, r, s, h => by
    cases w with
    | leaf b => simp [flatten] at h
    | object title' entries => simp [flatten] at h
    | array title' items' =>
      simp only [flatten, List.cons_append, List.append_assoc, List.cons.injEq,
        Token.opening.injEq, true_and] at h
      obtain ⟨rfl, h⟩ := h
      obtain ⟨rfl, hrest⟩ := flattenAll_append_inj items items' (by simp [Token.startsValue])
        (by simp [Token.startsValue]) h
      exact ⟨rfl, (List.cons.inj hrest).2⟩
  | object title entries, w, r, s, h => by
    cases w with
    | leaf b => simp [flatten] at h
    | array title' items => simp [flatten] at h
    | object title' entries' =>
      simp only [flatten, List.cons_append, List.append_assoc, List.cons.injEq,
        Token.opening.injEq, true_and] at h
      obtain ⟨rfl, h⟩ := h
      obtain ⟨rfl, hrest⟩ := flattenEntries_append_inj entries entries' (by simp [Token.isProperty])
        (by simp [Token.isProperty]) h
      exact ⟨rfl, (List.cons.inj hrest).2⟩

theorem flattenAll_append_inj : (us vs : List Tree) → {r s : List Token} →
    (∀ t ∈ r.head?, t.startsValue = false) → (∀ t ∈ s.head?, t.startsValue = false) →
    flattenAll us ++ r = flattenAll vs ++ s → us = vs ∧ r = s
  | [], [], r, s, hr, hs, h => ⟨rfl, h⟩
  | [], v :: vs, r, s, hr, hs, h => by
    -- Where one list is at its end the other begins a value, and `r` does not.
    obtain ⟨t, ts, hv, ht⟩ := v.flatten_eq_cons
    simp only [flattenAll, hv, List.nil_append, List.cons_append] at h
    rw [h] at hr
    exact absurd ht (by simp [hr t rfl])
  | u :: us, [], r, s, hr, hs, h => by
    obtain ⟨t, ts, hu, ht⟩ := u.flatten_eq_cons
    simp only [flattenAll, hu, List.nil_append, List.cons_append] at h
    rw [← h] at hs
    exact absurd ht (by simp [hs t rfl])
  | u :: us, v :: vs, r, s, hr, hs, h => by
    simp only [flattenAll, List.append_assoc] at h
    obtain ⟨rfl, hvalue⟩ := flatten_append_inj u v h
    obtain ⟨rfl, hrest⟩ := flattenAll_append_inj us vs hr hs hvalue
    exact ⟨rfl, hrest⟩

theorem flattenEntries_append_inj : (ds es : List (QualifiedName × Tree)) → {r s : List Token} →
    (∀ t ∈ r.head?, t.isProperty = false) → (∀ t ∈ s.head?, t.isProperty = false) →
    flattenEntries ds ++ r = flattenEntries es ++ s → ds = es ∧ r = s
  | [], [], r, s, hr, hs, h => ⟨rfl, h⟩
  | [], (key, v) :: es, r, s, hr, hs, h => by
    simp only [flattenEntries, List.nil_append, List.cons_append] at h
    rw [h] at hr
    exact absurd (hr _ rfl) (by simp [Token.isProperty])
  | (key, u) :: ds, [], r, s, hr, hs, h => by
    simp only [flattenEntries, List.nil_append, List.cons_append] at h
    rw [← h] at hs
    exact absurd (hs _ rfl) (by simp [Token.isProperty])
  | (key, u) :: ds, (key', v) :: es, r, s, hr, hs, h => by
    simp only [flattenEntries, List.cons_append, List.append_assoc, List.cons.injEq,
      Token.property.injEq] at h
    obtain ⟨rfl, h⟩ := h
    obtain ⟨rfl, hvalue⟩ := flatten_append_inj u v h
    obtain ⟨rfl, hrest⟩ := flattenEntries_append_inj ds es hr hs hvalue
    exact ⟨rfl, hrest⟩

end

theorem flattenAll_inj {us vs : List Tree} (h : flattenAll us = flattenAll vs) : us = vs := by
  have hnil : ∀ t ∈ ([] : List Token).head?, t.startsValue = false := by simp
  exact (flattenAll_append_inj us vs hnil hnil (by rw [h])).1

end DataMarkup.Data.Tree
