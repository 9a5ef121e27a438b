import DataMarkup.Markup.OpenElements
import DataMarkup.Proofs.Pull.Laziness
import DataMarkup.Proofs.Tree.Rendering
import DataMarkup.Proofs.Tree.Unambiguity

/-! A value between other tokens. Whether it may stand there, and the markup before and after its own, do
not depend on the value; and it leaves the open containers as it found them. -/

namespace DataMarkup

open Run Nesting

namespace Pull

variable {n : Nesting} {us ts : List Data.Token} {t : Data.Token} {ms : List Markup.Token}
  {fault : Fault}

theorem exhaust_of_passage_closed (h : Passage .empty ts ms n) (hne : ts ≠ []) (hd : n.depth = 0) :
    (ofList ts).exhaust.markup.toList = Markup.Tag.div.start :: ms ++ [.elementEnd] ∧
      (ofList ts).exhaust.failure? = none := by
  obtain ⟨hgo, rfl⟩ := going_of_passage h
  have hsuccess := failure?_exhaust_of_closed hgo hd
  rw [markup_exhaust_of_success hsuccess, (after_start_of_passage h hne).1, if_neg hne]
  exact ⟨rfl, hsuccess⟩

theorem exhaust_of_passage_unclosed (h : Passage .empty ts ms n) (hne : ts ≠ [])
    (hd : n.depth ≠ 0) :
    (ofList ts).exhaust.markup.toList = Markup.Tag.div.start :: ms ∧
      (ofList ts).exhaust.failure? = some (.malformed ⟨ts.length, .unclosedContainer⟩) := by
  obtain ⟨hgo, rfl⟩ := going_of_passage h
  rw [markup_exhaust_of_unclosed hgo hd, (after_start_of_passage h hne).1]
  exact ⟨rfl, failure?_exhaust_of_unclosed hgo hd⟩

theorem exhaust_of_passage_fault (h : Passage .empty us ms n) (hne : us ≠ [])
    (hf : n.fault? t = some fault) (vs : List Data.Token) :
    (ofList (us ++ t :: vs)).exhaust.markup.toList = Markup.Tag.div.start :: ms ∧
      (ofList (us ++ t :: vs)).exhaust.failure? = some (.malformed ⟨us.length, fault⟩) := by
  obtain ⟨hgo, rfl⟩ := going_of_passage h
  rw [markup_exhaust_of_fault hgo hf, (after_start_of_passage h hne).1]
  exact ⟨rfl, failure?_exhaust_of_fault hgo hf vs⟩

end Pull

/-- The nesting decides what comes of the rest of an input. Of the tokens before it only their number
matters, and only to the index of a failure. -/
theorem Nesting.exists_continuation (n : Nesting) (vs : List Data.Token) :
    ∃ (rest : List Markup.Token) (outcome : Option Malformed), ∀ us ms, us ≠ [] →
      Passage .empty us ms n →
        (Pull.ofList (us ++ vs)).exhaust.markup.toList = Markup.Tag.div.start :: ms ++ rest ∧
          (Pull.ofList (us ++ vs)).exhaust.failure? =
            outcome.map fun cause => .malformed ⟨us.length + cause.index, cause.fault⟩ := by
  rcases passage_or_fault n vs with ⟨ns, m, hvs⟩ | ⟨as, t, bs, fault, ns, m, rfl, has, hf⟩
  · by_cases hd : m.depth = 0
    · refine ⟨ns ++ [.elementEnd], none, ?_⟩
      intro us ms hne hus
      have hall := List.append_ne_nil_of_left_ne_nil hne vs
      obtain ⟨hmarkup, hfailure⟩ := Pull.exhaust_of_passage_closed (hus.append hvs) hall hd
      rw [hmarkup, hfailure, List.cons_append, List.cons_append, List.append_assoc]
      exact ⟨rfl, rfl⟩
    · refine ⟨ns, some ⟨vs.length, .unclosedContainer⟩, ?_⟩
      intro us ms hne hus
      have hall := List.append_ne_nil_of_left_ne_nil hne vs
      obtain ⟨hmarkup, hfailure⟩ := Pull.exhaust_of_passage_unclosed (hus.append hvs) hall hd
      rw [hmarkup, hfailure, List.length_append]
      exact ⟨rfl, rfl⟩
  · refine ⟨ns, some ⟨as.length, fault⟩, ?_⟩
    intro us ms hne hus
    have hbefore := List.append_ne_nil_of_left_ne_nil hne as
    obtain ⟨hmarkup, hfailure⟩ := Pull.exhaust_of_passage_fault (hus.append has) hbefore hf bs
    rw [← List.append_assoc, hmarkup, hfailure, List.length_append]
    exact ⟨rfl, rfl⟩

theorem Run.dd_suffix_markup_of_pending {us : List Data.Token}
    (h : (start.after us).hasEnded = false) (hp : Data.pending us = true) :
    [Markup.Tag.dd.start] <:+ start.markup us := by
  rcases List.eq_nil_or_concat us with rfl | ⟨vs, t, rfl⟩
  · exact absurd hp Bool.noConfusion
  · rw [List.concat_eq_append] at h hp ⊢
    rw [Data.pending_concat] at hp
    cases t with
    | property name =>
      rw [markup_concat_of_going h, ← List.append_assoc]
      exact List.suffix_append_of_suffix ⟨[_, _, _], rfl⟩
    | opening | closing | scalar => exact absurd hp Bool.noConfusion

namespace Data.Tree

variable {us vs : List Token}

/-! ### A value is balanced -/

theorem closings_take_flatten_le (v : Tree) (k : Nat) :
    closings (v.flatten.take k) ≤ openings (v.flatten.take k) := by
  obtain ⟨hgo, -⟩ := going_of_passage (passage_flatten empty ready_empty v)
  rw [← List.take_append_drop k v.flatten] at hgo
  rw [openings_eq_closings_add_depth (going_of_append hgo)]
  exact Nat.le_add_right _ _

/-! ### A value between two lists of tokens -/

def within (us vs : List Token) (v : Tree) : List Token := us ++ v.flatten ++ vs

def Rejected (us vs : List Token) (v : Tree) : Prop :=
  ∃ cause, (Pull.ofList (v.within us vs)).exhaust.failure? = some (.malformed cause) ∧
    cause.index ≤ us.length

/-- The markup around a value that stands after `us`: what `us` brings, in the wrapper, and the element
that the innermost container has for its values. -/
structure Surrounds (us : List Token) (front back : List Markup.Token) : Prop where
  front_eq : front =
    (if us = [] then [.elementBegin ⟨"div", "", ""⟩] else start.markup us) ++
      if innermost? us = some .array then [.elementBegin ⟨"li", "", ""⟩] else []
  element : ∀ kind, innermost? us = some kind →
    [.elementBegin (Markup.elementAround kind)] <:+ front ∧ [.elementEnd] <+: back

/-- All markup, and the failure if there is one; its index is counted from the end of the value. -/
structure Embeds (us vs : List Token) (front back : List Markup.Token) (outcome : Option Malformed)
    (v : Tree) : Prop where
  markup_eq : (Pull.ofList (v.within us vs)).exhaust.markup.toList = front ++ v.markup ++ back
  failure?_eq : (Pull.ofList (v.within us vs)).exhaust.failure? =
    outcome.map fun cause => .malformed ⟨(us ++ v.flatten).length + cause.index, cause.fault⟩

/-- From call `first` to call `last` the tokens of the value are asked for. Only the innermost container
notices that there was a value. -/
structure Returns (us : List Token) (v : Tree) (p : Nat → Pull) (first last : Nat) : Prop where
  pulls_first : (p first).pulls = us.length
  pulls_last : (p last).pulls = (us ++ v.flatten).length
  nesting_eq : (p last).renderer.run.nesting = (p first).renderer.run.nesting.update Frame.settle
  depth_eq : (p last).depth = (p first).depth
  depth_le : ∀ j, first ≤ j → j ≤ last → (p first).depth ≤ (p j).depth

theorem rejected_or_ready (us : List Token) :
    (∃ ms cause, cause.index ≤ us.length ∧ ∀ (vs : List Token) (v : Tree),
      (Pull.ofList (v.within us vs)).exhaust.markup.toList = ms ∧
        (Pull.ofList (v.within us vs)).exhaust.failure? = some (.malformed cause)) ∨
      (start.after us).hasEnded = false ∧ (start.after us).nesting.Ready := by
  rcases going_or_fault hasEnded_start us with hgo | ⟨as, t, bs, fault, rfl, hgo, hf⟩
  · by_cases hready : (start.after us).nesting.Ready
    · exact .inr ⟨hgo, hready⟩
    · refine .inl ⟨start.markup us, ⟨us.length, .valueWithoutProperty⟩, Nat.le_refl _, ?_⟩
      intro vs v
      -- Every value begins with a token that calls for the property.
      obtain ⟨t, ts, hv, ht⟩ := v.flatten_eq_cons
      have hf : (start.after us).nesting.fault? t = some .valueWithoutProperty :=
        (fault?_of_startsValue ht).mpr ⟨not_not.mp hready, rfl⟩
      have hsplit : v.within us vs = us ++ t :: (ts ++ vs) := by
        rw [within, hv, List.append_assoc, List.cons_append]
      rw [hsplit]
      exact ⟨Pull.markup_exhaust_of_fault hgo hf _, Pull.failure?_exhaust_of_fault hgo hf _⟩
  · have hindex : as.length ≤ (as ++ t :: bs).length := (List.prefix_append as _).length_le
    refine .inl ⟨start.markup as, ⟨as.length, fault⟩, hindex, ?_⟩
    intro vs v
    have hsplit : v.within (as ++ t :: bs) vs = as ++ t :: (bs ++ v.flatten ++ vs) := by
      rw [within, List.append_assoc, List.append_assoc, List.cons_append, List.append_assoc]
    rw [hsplit]
    exact ⟨Pull.markup_exhaust_of_fault hgo hf _, Pull.failure?_exhaust_of_fault hgo hf _⟩

theorem Embeds.not_rejected {front back : List Markup.Token} {outcome : Option Malformed} {v : Tree}
    (h : Embeds us vs front back outcome v) : ¬ v.Rejected us vs := by
  rintro ⟨cause, hcause, hindex⟩
  obtain ⟨later, -, hlater⟩ := Option.map_eq_some_iff.mp (h.failure?_eq.symm.trans hcause)
  have hpos : 0 < v.flatten.length := List.length_pos_of_ne_nil v.flatten_ne_nil
  have heq : (us ++ v.flatten).length + later.index = cause.index :=
    congrArg Malformed.index (Failure.malformed.inj hlater)
  rw [List.length_append] at heq
  omega

theorem surrounds_of_ready (hgo : (start.after us).hasEnded = false)
    (hready : (start.after us).nesting.Ready) (rest : List Markup.Token) :
    Surrounds us
      ((if us = [] then [Markup.Tag.div.start] else start.markup us) ++
        (start.after us).nesting.itemBegin)
      ((start.after us).nesting.itemEnd ++ rest) := by
  have hsummary := summarizes_of_going hgo
  generalize (start.after us).nesting = n at hready hsummary ⊢
  have hinnermost := hsummary.innermost?_eq
  refine ⟨?_, ?_⟩
  · rw [hsummary.itemBegin_eq]
    rfl
  · intro kind hkind
    rw [hinnermost] at hkind
    obtain ⟨f, hf, rfl⟩ := Option.map_eq_some_iff.mp hkind
    have hend : n.itemEnd = [.elementEnd] := by rw [itemEnd, hf]
    rw [hend]
    refine ⟨?_, List.prefix_append _ _⟩
    rcases f with _ | _ | _
    · have hbegin : n.itemBegin = [Markup.Tag.li.start] := by rw [itemBegin, hf]
      rw [hbegin]
      exact List.suffix_append _ _
    · exact absurd hf hready
    · -- The element was begun by the property, the last token of `us`.
      have hpending : pending us = true := ((hsummary.innermost?_eq_object_iff true).mp hf).2
      have hne : us ≠ [] := by
        rintro rfl
        exact absurd hpending Bool.noConfusion
      have hbegin : n.itemBegin = [] := by rw [itemBegin, hf]
      rw [if_neg hne, hbegin, List.append_nil]
      exact dd_suffix_markup_of_pending hgo hpending

theorem exists_embeds (hgo : (start.after us).hasEnded = false)
    (hready : (start.after us).nesting.Ready) (vs : List Token) :
    ∃ front back outcome, Surrounds us front back ∧
      ∀ v : Tree, Embeds us vs front back outcome v := by
  obtain ⟨ms, hus⟩ := passage_of_going hgo
  obtain ⟨rest, outcome, hrest⟩ :=
    exists_continuation ((start.after us).nesting.update Frame.settle) vs
  refine ⟨_, _, outcome, surrounds_of_ready hgo hready rest, ?_⟩
  intro v
  have hvalue := hus.append (passage_flatten _ hready v)
  have hne : us ++ v.flatten ≠ [] := List.append_ne_nil_of_right_ne_nil us v.flatten_ne_nil
  obtain ⟨hmarkup, hfailure⟩ := hrest _ _ hne hvalue
  have hfront : (if us = [] then [Markup.Tag.div.start] else start.markup us) =
      Markup.Tag.div.start :: ms := by
    by_cases hnil : us = []
    · subst hnil
      cases hus with
      | nil => rfl
    · rw [if_neg hnil, (after_start_of_passage hus hnil).1]
  refine ⟨?_, hfailure⟩
  rw [within, hmarkup, hfront]
  simp only [List.cons_append, List.append_assoc]

theorem returns_of_ready (hgo : (start.after us).hasEnded = false)
    (hready : (start.after us).nesting.Ready) (vs : List Token) (v : Tree) :
    Returns us v (Pull.ofList (v.within us vs)).skip (start.markup us).length
      (start.markup (us ++ v.flatten)).length := by
  obtain ⟨ms, hus⟩ := passage_of_going hgo
  obtain ⟨hafter, hnesting⟩ := going_of_passage (hus.append (passage_flatten _ hready v))
  have hvalue : us ++ v.flatten <+: acceptedPrefix (v.within us vs) := prefix_acceptedPrefix hafter vs
  have hfirst := Pull.reads_of_prefix ((List.prefix_append us v.flatten).trans hvalue)
  have hlast := Pull.reads_of_prefix hvalue
  rw [← hlast.run_eq, ← hfirst.run_eq] at hnesting
  have hdepth := congrArg Nesting.depth hnesting
  rw [depth_update] at hdepth
  refine ⟨hfirst.pulls_eq, hlast.pulls_eq, hnesting, hdepth, ?_⟩
  intro j hlow hhigh
  obtain ⟨k, hk⟩ := Pull.exists_reads_between hvalue hlow hhigh
  have hbefore := hfirst.openings_eq
  have hwithin := hk.openings_eq
  have hbalance := v.closings_take_flatten_le k
  rw [openings_append, closings_append] at hwithin
  omega

/-- If a pull fails before a value or on its first token, it gives the same with every other value in its
place. Else the value has a place, and so has every other: what is given is the value's own markup, in
the element of its container, between markup that is the same for all values; the containers are as open
after it as before it and never less so in between; and what follows comes out the same, the index of a
failure moved by the length of the value. -/
theorem embeds_within (us vs : List Token) (v : Tree) :
    (v.Rejected us vs → ∀ w : Tree,
      (Pull.ofList (w.within us vs)).items = (Pull.ofList (v.within us vs)).items ∧
        (Pull.ofList (w.within us vs)).exhaust.failure? =
          (Pull.ofList (v.within us vs)).exhaust.failure?) ∧
    (¬ v.Rejected us vs → ∃ front back outcome, Surrounds us front back ∧
      ∀ w : Tree, Embeds us vs front back outcome w ∧
        Returns us w (Pull.ofList (w.within us vs)).skip (start.markup us).length
          (start.markup (us ++ w.flatten)).length) := by
  rcases rejected_or_ready us with ⟨ms, cause, hindex, hsame⟩ | ⟨hgo, hready⟩
  · refine ⟨?_, fun hplaced => absurd ⟨cause, (hsame vs v).2, hindex⟩ hplaced⟩
    rintro - w
    obtain ⟨hv, hvfailure⟩ := hsame vs v
    obtain ⟨hw, hwfailure⟩ := hsame vs w
    have hfailure := hwfailure.trans hvfailure.symm
    exact ⟨Pull.items_ofList_congr (hw.trans hv.symm) hfailure, hfailure⟩
  · obtain ⟨front, back, outcome, hsurrounds, hembeds⟩ := exists_embeds hgo hready vs
    refine ⟨fun hrejected => absurd hrejected (hembeds v).not_rejected, ?_⟩
    rintro -
    exact ⟨front, back, outcome, hsurrounds,
      fun w => ⟨hembeds w, returns_of_ready hgo hready vs w⟩⟩

theorem embeds_within_array :
    let vs : List Token := [.closing .object]
    (leaf .null).Rejected [.opening .object none] vs ∧
      (∀ w : Tree, (Pull.ofList (w.within [.opening .object none] vs)).items =
        (Pull.ofList ((leaf .null).within [.opening .object none] vs)).items) ∧
      ¬ (leaf .null).Rejected [.opening .array none] vs ∧
      ∃ front back outcome, Surrounds [.opening .array none] front back ∧
        ∀ w : Tree, Embeds [.opening .array none] vs front back outcome w := by
  intro vs
  have hfirst : (Pull.ofList ([.opening .object none] ++ .scalar .null :: vs)).exhaust.failure? =
      some (.malformed ⟨1, .valueWithoutProperty⟩) := Pull.failure?_exhaust_of_fault rfl rfl vs
  have hlater :
      (Pull.ofList ([.opening .array none, .scalar .null] ++ .closing .object :: [])).exhaust.failure? =
        some (.malformed ⟨2, .unmatchedEnd .object⟩) := Pull.failure?_exhaust_of_fault rfl rfl []
  have hrejected : (leaf .null).Rejected [.opening .object none] vs :=
    ⟨⟨1, .valueWithoutProperty⟩, hfirst, Nat.le_refl 1⟩
  have hplaced : ¬ (leaf .null).Rejected [.opening .array none] vs := by
    rintro ⟨cause, hcause, hindex⟩
    obtain rfl : ⟨2, .unmatchedEnd .object⟩ = cause :=
      Failure.malformed.inj (Option.some.inj (hlater.symm.trans hcause))
    exact absurd hindex (by decide)
  have hsame := (embeds_within [.opening .object none] vs (leaf .null)).1 hrejected
  obtain ⟨front, back, outcome, hsurrounds, hembeds⟩ :=
    (embeds_within [.opening .array none] vs (leaf .null)).2 hplaced
  exact ⟨hrejected, fun w => (hsame w).1, hplaced, front, back, outcome, hsurrounds,
    fun w => (hembeds w).1⟩

end Data.Tree
end DataMarkup
